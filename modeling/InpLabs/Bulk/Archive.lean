/-
  File:      InpLabs/Bulk/Archive.lean
  Subject:   All files in one string, and back (lab6/others: `main` of client.cpp, `save_to_file` of
             server.cpp, of Star and KJL).

  * `origData`: every file behind its `init_t`; `records`: the loop that writes the files again,
    which compares its pointer with an end. Where it reads behind the array, nothing is defined;
  * `records_origData`: what is written is what was read;
  * `records_padded`: with an end that lies behind the last file, in zeros, empty files with the
    number 0 are written as well;
  * `readSession`: KJL's client has room for the files of its first session only.
-/
import InpLabs.Bulk.Packet

namespace InpLabs.Bulk

open InpLabs.Lib

/-! ## 1. The format -/

/-- A file: its number, and what is in it. -/
abbrev File := Nat × Bytes

/-- `init_t` -/
def initBytes (filename filesize : Nat) : Bytes := le 4 filename ++ le 4 filesize

/-- A file in `orig_data`. -/
def entry (file : File) : Bytes := initBytes file.1 file.2.length ++ file.2

def origData (files : List File) : Bytes := files.flatMap entry

/-- The files that the client reads: 0, 1, and so on. -/
def readFiles (contents : List Bytes) : List File := contents.mapIdx fun i content => (i, content)

/-- `SUB_SIZE`: KJL sends so many files in a session, and then the next ones. -/
def subSize : Nat := 50

/-- What a session of KJL's client ends with where nothing can be sent: a file is not there, or it
would be put behind the end of `files`, which is undefined. -/
inductive SessionError where
  | openFails (idx : Nat)
  | outside (idx : Nat)
  deriving DecidableEq

/-- A file is read, and put into `files` at its number. -/
def readFile (disk : Nat → Option Bytes) (files : List File) (idx : Nat) :
    Except SessionError (List File) :=
  match disk idx with
  | none => .error (.openFails idx)
  | some data =>
    if idx < files.length then .ok (files.set idx (idx, data)) else .error (.outside idx)

/-- The files of the session that begins with file `st`. -/
def readSession (disk : Nat → Option Bytes) (st : Nat) : Except SessionError (List File) :=
  (List.range' st subSize).foldlM (readFile disk) (List.replicate subSize (0, []))

/-- Numbers and sizes are of type `uint32_t`. -/
def Fits (files : List File) : Prop := ∀ f ∈ files, f.1 < 2 ^ 32 ∧ f.2.length < 2 ^ 32

/-- The loop over `ptr`: `left` bytes are left up to the end that it is compared with, and `mem` is
what stands in the array from `ptr` on. The first argument bounds the rounds. -/
def recordsLoop : Nat → Nat → Bytes → Option (List File)
  | 0, left, _ => if left = 0 then some [] else none
  | n + 1, left, mem =>
    if left = 0 then some []
    else
      let filename := ofLe (mem.take 4)
      let filesize := ofLe ((mem.drop 4).take 4)
      if mem.length < 8 + filesize then none
      else (recordsLoop n (left - (8 + filesize)) (mem.drop (8 + filesize))).map
        ((filename, (mem.drop 8).take filesize) :: ·)

/-- The files that are written, in order: every round moves `ptr`, so that no more rounds are needed
than there are bytes. -/
def records (size : Nat) (mem : Bytes) : Option (List File) := recordsLoop size size mem

/-! ## 2. There and back -/

section Records

variable {file : File} {files : List File} {left n : Nat} {mem : Bytes}

theorem initBytes_length (filename filesize : Nat) : (initBytes filename filesize).length = 8 := by
  rw [initBytes, List.length_append, le_length, le_length]

theorem entry_length (file : File) : (entry file).length = 8 + file.2.length := by
  rw [entry, List.length_append, initBytes_length]

theorem origData_cons (file : File) (files : List File) :
    origData (file :: files) = entry file ++ origData files := List.flatMap_cons

/-- One round, where a file stands at `ptr`. -/
theorem recordsLoop_entry (hname : file.1 < 2 ^ 32) (hsize : file.2.length < 2 ^ 32)
    (hleft : left ≠ 0) : recordsLoop (n + 1) left (entry file ++ mem) =
      (recordsLoop n (left - (entry file).length) mem).map (file :: ·) := by
  have hsplit : entry file ++ mem =
      le 4 file.1 ++ (le 4 file.2.length ++ (file.2 ++ mem)) := by
    simp only [entry, initBytes, List.append_assoc]
  have hfour : entry file ++ mem = initBytes file.1 file.2.length ++ (file.2 ++ mem) := by
    simp only [entry, List.append_assoc]
  have hfilename : ofLe ((entry file ++ mem).take 4) = file.1 := by
    rw [hsplit, List.take_left' (le_length 4 _)]
    exact ofLe_le hname
  have hfilesize : ofLe (((entry file ++ mem).drop 4).take 4) = file.2.length := by
    rw [hsplit, List.drop_left' (le_length 4 _), List.take_left' (le_length 4 _)]
    exact ofLe_le hsize
  have hcontent : ((entry file ++ mem).drop 8).take file.2.length = file.2 := by
    rw [hfour, List.drop_left' (initBytes_length _ _), List.take_left]
  rw [recordsLoop, if_neg hleft]
  dsimp only
  rw [hfilename, hfilesize, hcontent, ← entry_length, List.drop_left, if_neg (by simp)]

/-- **Files are read up to the end of the last one**, and what is read behind them follows. -/
theorem recordsLoop_origData (hfits : Fits files) (hn : files.length ≤ n) :
    recordsLoop n ((origData files).length + left) (origData files ++ mem) =
      (recordsLoop (n - files.length) left mem).map (files ++ ·) := by
  induction files generalizing n with
  | nil => simp [origData]
  | cons file files ih =>
    obtain ⟨⟨hname, hsize⟩, hfits⟩ := List.forall_mem_cons.mp hfits
    obtain ⟨n, rfl⟩ := Nat.exists_eq_succ_of_ne_zero (Nat.ne_zero_of_lt hn)
    have hlength := entry_length file
    rw [origData_cons, List.length_append, List.append_assoc,
      recordsLoop_entry hname hsize (by omega),
      Nat.add_assoc, Nat.add_sub_cancel_left, ih hfits (Nat.le_of_succ_le_succ hn),
      Option.map_map, List.length_cons, Nat.succ_sub_succ]
    rfl

theorem length_le_origData (files : List File) : files.length * 8 ≤ (origData files).length := by
  induction files with
  | nil => exact Nat.le_refl 0
  | cons file files ih =>
    rw [origData_cons, List.length_append, entry_length, List.length_cons]
    omega

/-- **The files are written as they were read.** -/
theorem records_origData (hfits : Fits files) :
    records (origData files).length (origData files) = some files := by
  have hle := length_le_origData files
  have hloop : recordsLoop (origData files).length ((origData files).length + 0)
      (origData files ++ []) = _ := recordsLoop_origData hfits (by omega)
  rw [List.append_nil, Nat.add_zero] at hloop
  unfold records
  rw [hloop]
  cases (origData files).length - files.length <;> simp [recordsLoop]

/-- The files that `readFiles` numbers fit. -/
theorem readFiles_fits {contents : List Bytes} (hcount : contents.length ≤ 2 ^ 32)
    (hsize : ∀ c ∈ contents, c.length < 2 ^ 32) : Fits (readFiles contents) := by
  intro f hf
  obtain ⟨i, hi, rfl⟩ := List.mem_mapIdx.mp hf
  exact ⟨by omega, hsize _ (List.getElem_mem hi)⟩

end Records

/-! ## 3. Zeros behind the last file -/

section Padded

variable {files : List File} {pad n : Nat}

/-- In zeros an empty file is read, with the number 0. -/
theorem recordsLoop_zeros (hn : pad ≤ n) : recordsLoop n pad (List.replicate pad 0) =
    if 8 ∣ pad then some (List.replicate (pad / 8) (0, [])) else none := by
  induction n generalizing pad with
  | zero =>
    obtain rfl := Nat.le_zero.mp hn
    rfl
  | succ n ih =>
    by_cases hzero : pad = 0
    · subst hzero
      rfl
    have hof : ∀ k, ofLe (List.replicate k 0) = 0 := fun k => by
      rw [ofLe, List.map_replicate]
      exact Nat.ofDigits_replicate_zero
    rw [recordsLoop, if_neg hzero]
    dsimp only
    rw [List.take_replicate, List.drop_replicate, List.take_replicate, hof, hof,
      List.length_replicate]
    by_cases hlt : pad < 8
    · rw [if_pos hlt, if_neg fun hdvd => hzero (Nat.eq_zero_of_dvd_of_lt hdvd hlt)]
    · obtain ⟨m, rfl⟩ := Nat.exists_eq_add_of_le (Nat.not_lt.mp hlt)
      have hdvd : 8 ∣ 8 + m ↔ 8 ∣ m := Nat.dvd_add_right (Nat.dvd_refl 8)
      have hdiv : (8 + m) / 8 = m / 8 + 1 := by omega
      rw [if_neg (by omega), List.drop_replicate, List.take_zero, Nat.add_zero,
        Nat.add_sub_cancel_left, ih (by omega), hdiv, List.replicate_succ]
      by_cases h : 8 ∣ m
      · rw [if_pos h, if_pos (hdvd.mpr h)]
        rfl
      · rw [if_neg h, if_neg (mt hdvd.mp h)]
        rfl

/-- **Zeros behind the files**: eight of them are one more empty file; where some are left, the
loop reads behind the array. -/
theorem records_padded (hfits : Fits files) (pad : Nat) :
    records ((origData files).length + pad) (origData files ++ List.replicate pad 0) =
      if 8 ∣ pad then some (files ++ List.replicate (pad / 8) (0, [])) else none := by
  have hle := length_le_origData files
  unfold records
  rw [recordsLoop_origData hfits (by omega), recordsLoop_zeros (by omega)]
  split <;> rfl

end Padded

/-! ## 4. The sessions of KJL -/

section Sessions

variable {disk : Nat → Option Bytes} {files files' : List File} {idx k m i st : Nat}

theorem readFile_ok (h : readFile disk files idx = .ok files') :
    idx < files.length ∧ ∃ data, disk idx = some data ∧ files' = files.set idx (idx, data) := by
  unfold readFile at h
  cases hdisk : disk idx with
  | none =>
    rw [hdisk] at h
    cases h
  | some data =>
    rw [hdisk] at h
    dsimp only at h
    split at h
    · exact ⟨‹_›, data, rfl, (Except.ok.inj h).symm⟩
    · cases h

/-- **What the loop has read**: its files at their numbers, and below them what stood there. -/
theorem readFiles_loop (h : (List.range' k m).foldlM (readFile disk) files = .ok files') :
    files'.length = files.length ∧ (∀ i < k, files'[i]? = files[i]?) ∧
      ∀ i, k ≤ i → i < k + m → ∃ data, disk i = some data ∧ files'[i]? = some (i, data) := by
  induction m generalizing k files with
  | zero =>
    obtain rfl : files = files' := Except.ok.inj h
    exact ⟨rfl, fun _ _ => rfl, fun i hle hlt => absurd hle (Nat.not_le.mpr hlt)⟩
  | succ m ih =>
    rw [List.range'_succ, List.foldlM_cons] at h
    cases hread : readFile disk files k with
    | error e =>
      rw [hread] at h
      cases h
    | ok next =>
      rw [hread] at h
      obtain ⟨hk, data, hdisk, rfl⟩ := readFile_ok hread
      obtain ⟨hlength, hbelow, hread⟩ := ih h
      refine ⟨hlength.trans List.length_set, fun i hi => ?_, fun i hle hlt => ?_⟩
      · rw [hbelow i (Nat.lt_succ_of_lt hi), List.getElem?_set_ne (by omega)]
      · by_cases heq : i = k
        · -- the later rounds leave it alone
          subst heq
          exact ⟨data, hdisk, (hbelow i (Nat.lt_succ_self i)).trans (List.getElem?_set_self hk)⟩
        · exact hread i (by omega) (by omega)

/-- **The first session** has read the first files. -/
theorem readSession_ok (h : readSession disk 0 = .ok files) :
    files.map Prod.fst = List.range subSize ∧ ∀ f ∈ files, disk f.1 = some f.2 := by
  obtain ⟨hlength, -, hread⟩ := readFiles_loop h
  rw [List.length_replicate] at hlength
  have hget : ∀ i, (hi : i < files.length) →
      ∃ data, disk i = some data ∧ files[i] = (i, data) := fun i hi => by
    obtain ⟨data, hdisk, hdata⟩ := hread i (Nat.zero_le i) (by omega)
    exact ⟨data, hdisk, (List.getElem?_eq_some_iff.mp hdata).2⟩
  constructor
  · refine List.ext_getElem (by simp [hlength]) fun i hi _ => ?_
    obtain ⟨data, -, hdata⟩ := hget i (by rwa [List.length_map] at hi)
    rw [List.getElem_map, List.getElem_range, hdata]
  · intro f hf
    obtain ⟨i, hi, rfl⟩ := List.getElem_of_mem hf
    obtain ⟨data, hdisk, hdata⟩ := hget i hi
    rw [hdata, hdisk]

/-- **From the second session on** the first file is already put behind the end. -/
theorem readSession_outside (hst : subSize ≤ st) {data : Bytes} (hdisk : disk st = some data) :
    readSession disk st = .error (.outside st) := by
  have hread : readFile disk (List.replicate subSize (0, [])) st = .error (.outside st) := by
    unfold readFile
    rw [hdisk]
    exact if_neg (by rw [List.length_replicate]; exact Nat.not_lt.mpr hst)
  have hrange : List.range' st subSize = st :: List.range' (st + 1) 49 := List.range'_succ
  rw [readSession, hrange, List.foldlM_cons, hread]
  rfl

end Sessions

end InpLabs.Bulk
