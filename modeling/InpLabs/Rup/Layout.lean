/-
  File:      InpLabs/Rup/Layout.lean
  Subject:   All files in one buffer, and where each of them is (lab6/others/Sean: `buf_file` and
             `RUM` of client.cpp, the loop over `rum->size` of server.cpp).

  * `Files`: what the client reads. `merged`, `sizes`, `chunks`: the buffer and the metadata;
  * `rumBytes`: the metadata in memory; `rumChunks`, `rumSize`: its fields;
  * `Layout`, `layout`: the places of the files, and which files to look at when a chunk arrives;
  * `layout_spec`: a chunk names a file only where the file has a part, or its end.
-/
import InpLabs.Rup.Packing
import Mathlib.Data.List.GetD

namespace InpLabs.Rup

open InpLabs.Lib

/-! ## 1. What the client sends -/

/-- The size of `buf_file`. -/
def bufSize : Nat := 17600100

/-- A size in `RUM`, which is a `uint16_t`: so many bytes are read. -/
def fileSize (content : Bytes) : Nat := content.length % 65536

/-- The bytes that are read from a file. -/
def kept (content : Bytes) : Bytes := content.take (fileSize content)

theorem kept_length (content : Bytes) : (kept content).length = fileSize content := by
  rw [kept, List.length_take]
  exact Nat.min_eq_left (Nat.mod_le _ _)

/-- A file is read to its end if its length fits the field. -/
theorem kept_eq_iff (content : Bytes) : kept content = content ↔ content.length < 65536 := by
  constructor
  · intro h
    have hlength := kept_length content
    rw [h] at hlength
    exact hlength ▸ Nat.mod_lt _ (by decide)
  · exact fun h => List.take_of_length_le (Nat.le_of_eq (Nat.mod_eq_of_lt h).symm)

/-- What the files fill. -/
def texts (contents : List Bytes) : Bytes := contents.flatMap kept

/-- The thousand files that the client reads, with the text behind them they fit in `buf_file`. -/
structure Files where
  contents : List Bytes
  count : contents.length = 1000
  fits : (texts contents).length + 2 * chunkBuf ≤ bufSize

namespace Files

variable (files : Files)

def texts : Bytes := Rup.texts files.contents

/-- `buf_file`, up to `p`. -/
def merged : Bytes := files.texts ++ List.replicate chunkBuf 65

/-- `rum->size` -/
def sizes : List Nat := files.contents.map fileSize ++ [chunkBuf]

/-- `rum->chunks` -/
def chunks : Nat := files.merged.length / chunkBuf + 1

/-- A chunk of `buf_file`, which is zero behind `p`. -/
def chunk (k : Nat) : Bytes :=
  (piece chunkBuf files.merged k ++ List.replicate chunkBuf 0).take chunkBuf

/-- `RUM`: `chunks`, `size` and `padding`. -/
def rumBytes : Bytes :=
  (files.chunks :: files.sizes ++ List.replicate 468 0).flatMap (le 2)

end Files

/-- `rum->chunks`, in memory. -/
def rumChunks (rum : Bytes) : Nat := ofLe (rum.take 2)

/-- `rum->size[k]`, in memory. -/
def rumSize (rum : Bytes) (k : Nat) : Nat := ofLe ((rum.drop (2 + 2 * k)).take 2)

/-! ## 2. Where the server looks -/

/-- The variables of the loop over the sizes. -/
structure Layout where
  b : Nat
  d : Nat
  idx2file : Nat → Nat × Nat
  file2rem : Nat → Int
  file2pos : Nat → Nat

/-- One round of the loop. -/
def Layout.add (size : Nat → Nat) (l : Layout) (k : Nat) : Layout :=
  let a := l.b
  let b := a + size k
  let c := l.d
  let d := b / chunkBuf
  { b := b
    d := d
    idx2file := fun i =>
      (if c ≤ i ∧ i < d then k + 1 else (l.idx2file i).1, if i = d then k + 1 else (l.idx2file i).2)
    file2rem := Function.update l.file2rem k (d - c + 1)
    file2pos := Function.update l.file2pos k a }

/-- The loop, over arrays of zeros. -/
def layout (size : Nat → Nat) : Layout :=
  (List.range 1001).foldl (Layout.add size) ⟨0, 0, fun _ => (0, 0), fun _ => 0, fun _ => 0⟩

section Places

variable {size : Nat → Nat} {k i n : Nat}

/-- Where a file starts. -/
def start (size : Nat → Nat) (k : Nat) : Nat := ((List.range k).map size).sum

theorem start_succ (size : Nat → Nat) (k : Nat) : start size (k + 1) = start size k + size k := by
  simp [start, List.range_succ]

theorem start_mono {j : Nat} (h : j ≤ k) : start size j ≤ start size k := by
  induction h with
  | refl => exact Nat.le_refl _
  | step _ ih => exact ih.trans (start_succ size _ ▸ Nat.le_add_right _ _)

/-- The chunks of a file are those from its first to its last. -/
def firstChunk (size : Nat → Nat) (k : Nat) : Nat := start size k / chunkBuf

def lastChunk (size : Nat → Nat) (k : Nat) : Nat := start size (k + 1) / chunkBuf

theorem firstChunk_le (size : Nat → Nat) (k : Nat) : firstChunk size k ≤ lastChunk size k :=
  Nat.div_le_div_right (start_mono (Nat.le_succ k))

/-- What the loop has done for the files before `n`. -/
structure Layout.Placed (l : Layout) (size : Nat → Nat) (n : Nat) : Prop where
  b : l.b = start size n
  d : l.d = start size n / chunkBuf
  idx2file : ∀ i k, (l.idx2file i).1 = k + 1 → k < n ∧ firstChunk size k ≤ i ∧ i < lastChunk size k
  idx2end : ∀ i k, (l.idx2file i).2 = k + 1 → k < n ∧ i = lastChunk size k
  file2rem : ∀ k, k < n → l.file2rem k = lastChunk size k - firstChunk size k + 1
  file2pos : ∀ k, k < n → l.file2pos k = start size k

theorem Layout.Placed.add {l : Layout} (h : l.Placed size n) :
    (l.add size n).Placed size (n + 1) := by
  have hd : (l.b + size n) / chunkBuf = lastChunk size n := by
    rw [h.b, ← start_succ]
    rfl
  have hc : l.d = firstChunk size n := h.d
  constructor
  · rw [start_succ, ← h.b]
    rfl
  · exact hd
  · intro i k hk
    have hk : (if l.d ≤ i ∧ i < (l.b + size n) / chunkBuf then n + 1 else (l.idx2file i).1) =
      k + 1 := hk
    rw [hd, hc] at hk
    split at hk
    · obtain rfl : n = k := Nat.succ.inj hk
      exact ⟨Nat.lt_succ_self n, ‹_ ∧ _›⟩
    · obtain ⟨hlt, hin⟩ := h.idx2file i k hk
      exact ⟨Nat.lt_succ_of_lt hlt, hin⟩
  · intro i k hk
    have hk : (if i = (l.b + size n) / chunkBuf then n + 1 else (l.idx2file i).2) = k + 1 := hk
    rw [hd] at hk
    split at hk
    · obtain rfl : n = k := Nat.succ.inj hk
      exact ⟨Nat.lt_succ_self n, ‹_›⟩
    · obtain ⟨hlt, hin⟩ := h.idx2end i k hk
      exact ⟨Nat.lt_succ_of_lt hlt, hin⟩
  · intro k hk
    show Function.update l.file2rem n (((l.b + size n) / chunkBuf : Nat) - (l.d : Int) + 1) k = _
    rw [hd, hc]
    rcases Nat.lt_succ_iff_lt_or_eq.mp hk with hlt | rfl
    · rw [Function.update_of_ne (Nat.ne_of_lt hlt), h.file2rem k hlt]
    · rw [Function.update_self]
  · intro k hk
    show Function.update l.file2pos n l.b k = _
    rcases Nat.lt_succ_iff_lt_or_eq.mp hk with hlt | rfl
    · rw [Function.update_of_ne (Nat.ne_of_lt hlt), h.file2pos k hlt]
    · rw [Function.update_self, h.b]

/-- **What the loop leaves.** -/
theorem layout_spec (size : Nat → Nat) : (layout size).Placed size 1001 := by
  have hloop : ∀ n, ((List.range n).foldl (Layout.add size)
      ⟨0, 0, fun _ => (0, 0), fun _ => 0, fun _ => 0⟩).Placed size n := by
    intro n
    induction n with
    | zero =>
      exact ⟨rfl, (Nat.zero_div _).symm, fun i k h => Nat.noConfusion h,
        fun i k h => Nat.noConfusion h, fun k h => absurd h (Nat.not_lt_zero k),
        fun k h => absurd h (Nat.not_lt_zero k)⟩
    | succ n ih =>
      rw [List.range_succ, List.foldl_append]
      exact ih.add
  exact hloop 1001

end Places

/-! ## 3. What the metadata says -/

namespace Files

variable (files : Files) {k : Nat}

/-- The size of file `k`; the one behind the last is the padding. -/
def size (k : Nat) : Nat := files.sizes.getD k 0

/-- What should be saved: the whole file. -/
def file (k : Nat) : Bytes := files.contents.getD k []

theorem sizes_length : files.sizes.length = 1001 := by
  rw [sizes, List.length_append, List.length_map, files.count]
  rfl

theorem merged_length : files.merged.length = files.texts.length + chunkBuf := by
  rw [merged, List.length_append, List.length_replicate]

/-- There are at least two chunks, and their numbers are below those of the metadata. -/
theorem chunks_bounds : 2 ≤ files.chunks ∧ files.chunks ≤ 9860 := by
  have hfits := files.fits
  have hmerged := files.merged_length
  have hchunk : chunkBuf = 1785 := rfl
  have hbuf : bufSize = 17600100 := rfl
  have htexts : files.texts = Rup.texts files.contents := rfl
  rw [← htexts] at hfits
  rw [chunks, hchunk]
  omega

theorem rumBytes_length : files.rumBytes.length = 2 * chunkPkt := by
  have hlength := length_blocks (f := le 2) (le_length 2)
    (files.chunks :: files.sizes ++ List.replicate 468 0)
  rw [List.length_append, List.length_cons, files.sizes_length, List.length_replicate] at hlength
  exact hlength

/-- A field of the metadata. -/
theorem word_rumBytes {i w : Nat} (h : (files.chunks :: files.sizes)[i]? = some w)
    (hw : w < 65536) : ofLe ((files.rumBytes.drop (i * 2)).take 2) = w := by
  have hget : (files.chunks :: files.sizes ++ List.replicate 468 0)[i]? = some w := by
    rw [List.getElem?_append_left (List.getElem?_eq_some_iff.mp h).1, h]
  have hpiece : (files.rumBytes.drop (i * 2)).take 2 = le 2 w := piece_blocks (le_length 2) hget
  rw [hpiece, ofLe_le hw]

theorem rumChunks_rumBytes : rumChunks files.rumBytes = files.chunks :=
  files.word_rumBytes (i := 0) rfl (Nat.lt_of_le_of_lt files.chunks_bounds.2 (by decide))

theorem rumSize_rumBytes (hk : k < 1001) : rumSize files.rumBytes k = files.size k := by
  have hlt : k < files.sizes.length := files.sizes_length.symm ▸ hk
  have hget : (files.chunks :: files.sizes)[k + 1]? = some (files.size k) := by
    rw [List.getElem?_cons_succ, size, List.getD_eq_getElem _ _ hlt, List.getElem?_eq_getElem hlt]
  have hsize : files.size k < 65536 := by
    rw [size, List.getD_eq_getElem _ _ hlt]
    have hmem := List.getElem_mem hlt
    rcases List.mem_append.mp hmem with hmem | hmem
    · obtain ⟨content, -, hcontent⟩ := List.mem_map.mp hmem
      rw [← hcontent]
      exact Nat.mod_lt _ (by decide)
    · rw [List.mem_singleton.mp hmem]
      decide
  have hword := files.word_rumBytes hget hsize
  have hplace : (k + 1) * 2 = 2 + 2 * k := by omega
  rw [hplace] at hword
  exact hword

theorem size_of_lt (hk : k < 1000) : files.size k = (kept (files.file k)).length := by
  have hlt : k < files.contents.length := files.count.symm ▸ hk
  have hlt' : k < (files.contents.map fileSize).length := by rwa [List.length_map]
  have hget : files.sizes[k]? = some (fileSize files.contents[k]) := by
    rw [sizes, List.getElem?_append_left hlt', List.getElem?_map, List.getElem?_eq_getElem hlt]
    rfl
  rw [size, List.getD_eq_getElem?_getD, hget, file, kept_length, List.getD_eq_getElem _ _ hlt]
  rfl

/-- Where a file starts, all before it have been read. -/
theorem start_eq (hk : k ≤ 1000) :
    start files.size k = (Rup.texts (files.contents.take k)).length := by
  induction k with
  | zero => rfl
  | succ k ih =>
    have hlt : k < files.contents.length := files.count.symm ▸ hk
    rw [start_succ, ih (Nat.le_of_succ_le hk), files.size_of_lt hk,
      List.take_succ_eq_append_getElem hlt, Rup.texts, Rup.texts, List.flatMap_append,
      List.length_append, List.flatMap_singleton, file, List.getD_eq_getElem _ _ hlt]

/-- **A file stands in the text at its place**, as far as it is read. -/
theorem file_eq (hk : k < 1000) :
    (files.texts.drop (start files.size k)).take (files.size k) = kept (files.file k) := by
  have hlt : k < files.contents.length := files.count.symm ▸ hk
  have hsplit : files.texts = Rup.texts (files.contents.take k) ++
      (kept (files.file k) ++ Rup.texts (files.contents.drop (k + 1))) := by
    unfold texts Rup.texts file
    rw [List.getD_eq_getElem _ _ hlt, ← List.flatMap_cons, ← List.flatMap_append,
      ← List.drop_eq_getElem_cons hlt, List.take_append_drop]
  rw [files.start_eq (Nat.le_of_lt hk), files.size_of_lt hk, hsplit, List.drop_left, List.take_left]

theorem start_le (hk : k ≤ 1000) : start files.size k ≤ files.texts.length := by
  refine (start_mono hk).trans ?_
  rw [files.start_eq (Nat.le_refl _), ← files.count, List.take_length]
  exact Nat.le_refl _

/-- The last file ends in the last chunk but one: the padding goes on. -/
theorem lastChunk_last : lastChunk files.size 999 + 2 = files.chunks := by
  have hend : start files.size 1000 = files.texts.length := by
    rw [files.start_eq (Nat.le_refl _), ← files.count, List.take_length]
    rfl
  rw [lastChunk, hend, chunks, files.merged_length, Nat.add_div_right _ (by decide)]

/-- Every file ends in a chunk that is sent. -/
theorem lastChunk_lt (hk : k < 1001) : lastChunk files.size k < files.chunks := by
  have hend : start files.size (k + 1) ≤ files.merged.length := by
    refine (start_mono (show k + 1 ≤ 1001 from hk)).trans ?_
    have hpad : files.size 1000 = chunkBuf := by
      rw [size, sizes, List.getD_eq_getElem?_getD,
        List.getElem?_append_right (by simp [files.count])]
      simp [files.count]
    rw [start_succ, hpad, files.merged_length]
    exact Nat.add_le_add_right (files.start_le (Nat.le_refl _)) _
  exact Nat.lt_succ_of_le (Nat.div_le_div_right hend)

/-! ## 4. What arrives -/

/-- Printable characters only. -/
def Printable : Prop := ∀ c ∈ files.texts, Rup.Printable c

theorem chunk_length (k : Nat) : (files.chunk k).length = chunkBuf := by
  rw [chunk, List.length_take, List.length_append, List.length_replicate]
  omega

theorem chunk_getElem? {p : Nat} (hp : p < chunkBuf)
    (hin : k * chunkBuf + p < files.merged.length) :
    (files.chunk k)[p]? = files.merged[k * chunkBuf + p]? := by
  have hlength : p < (piece chunkBuf files.merged k).length := by
    rw [piece, List.length_take, List.length_drop]
    omega
  rw [chunk, List.getElem?_take_of_lt hp, List.getElem?_append_left hlength, piece,
    List.getElem?_take_of_lt hp, List.getElem?_drop]

/-- What the server makes of all chunks. -/
def unpacked : Bytes :=
  (List.range files.chunks).flatMap fun k => unpackChunk (packChunk (files.chunk k))

theorem unpacked_chunk (hk : k < files.chunks) :
    piece chunkBuf files.unpacked k = unpackChunk (packChunk (files.chunk k)) :=
  piece_blocks (fun _ => unpackChunk_length _) (List.getElem?_range hk)

/-- A character of a chunk, in its place. -/
theorem unpacked_getElem? {p : Nat} (hk : k < files.chunks) (hp : p < chunkBuf) :
    files.unpacked[k * chunkBuf + p]? = (unpackChunk (packChunk (files.chunk k)))[p]? := by
  rw [← files.unpacked_chunk hk, piece, List.getElem?_take_of_lt hp, List.getElem?_drop]

/-- The padding fills the group of the last character of the files. -/
theorem chunk_arrives (hprint : files.Printable) {p : Nat} (hp : p < chunkBuf)
    (hin : k * chunkBuf + p < files.texts.length) :
    (unpackChunk (packChunk (files.chunk k)))[p]? = files.texts[k * chunkBuf + p]? := by
  have hchunk : chunkBuf = 105 * 17 := rfl
  have hmerged := files.merged_length
  have hgroup : ∀ c ∈ piece 17 (files.chunk k) (p / 17), Rup.Printable c := by
    intro c hc
    obtain ⟨t, ht, hget⟩ := List.mem_iff_getElem.mp hc
    have ht : t < 17 := ht.trans_le (piece_length_le 17 _ _)
    have hget := List.getElem?_eq_some_iff.mpr ⟨_, hget⟩
    rw [piece, List.getElem?_take_of_lt ht, List.getElem?_drop,
      files.chunk_getElem? (by omega) (by omega), merged] at hget
    rcases List.mem_append.mp (List.mem_of_getElem? hget) with hmem | hmem
    · exact hprint c hmem
    · rw [List.eq_of_mem_replicate hmem]
      decide
  rw [unpackChunk_packChunk (files.chunk_length k) hp hgroup,
    files.chunk_getElem? hp (by omega), merged, List.getElem?_append_left hin]

/-- **Printable files arrive** as they are. -/
theorem unpacked_texts (hprint : files.Printable) {i : Nat} (hi : i < files.texts.length) :
    files.unpacked[i]? = files.texts[i]? := by
  have hsplit : i / chunkBuf * chunkBuf + i % chunkBuf = i := Nat.div_add_mod' i chunkBuf
  have hp : i % chunkBuf < chunkBuf := Nat.mod_lt i (by decide)
  have hk : i / chunkBuf < files.chunks := by
    rw [chunks, files.merged_length]
    exact Nat.lt_succ_of_le (Nat.div_le_div_right (hi.le.trans (Nat.le_add_right _ _)))
  have hplace := files.unpacked_getElem? hk hp
  rwa [hsplit, files.chunk_arrives hprint hp (hsplit.symm ▸ hi), hsplit] at hplace

end Files

end InpLabs.Rup
