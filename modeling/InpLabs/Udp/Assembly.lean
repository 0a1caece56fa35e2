/-
  File:      InpLabs/Udp/Assembly.lean
  Subject:   How the server puts the files together.

  * `FileState`, `Window`, `Server.Ok`: the invariant that ties the four arrays and the window
    together. An empty vector means "nothing has arrived" or "already written"; the flag `expanded`
    tells which;
  * `Outcome`, `onPacket_outcome`: all that a packet with a correct header can do;
  * `Server.know`: the abstract state, the set of the packets the server has got. A packet adds
    its number to it (`Outcome.know`), whatever the arrays look like;
  * `Server.Exact`: the data stored is that of the files.
-/
import InpLabs.Udp.Client
import InpLabs.Udp.Server
import Mathlib.Order.Bounds.Basic

namespace InpLabs.Udp

open InpLabs.Lib

/-! ## 1. The invariant -/

/-- What the four arrays hold of a file of `n` packets. -/
inductive FileState (n : Nat) (expanded saved : Bool) (stored : List Bool)
    (datas : List (List Byte)) : Prop where
  | untouched (he : expanded = false) (hv : saved = false) (hs : stored = []) (hd : datas = [])
  | receiving (he : expanded = true) (hv : saved = false) (hs : stored.length = n)
      (hd : datas.length = n) (hm : false ∈ stored)
  | written (he : expanded = true) (hv : saved = true) (hs : stored = []) (hd : datas = [])

/-- The window starts at the first entry that is not set, and the last entry never is. -/
structure Window (fileSaved : Fin (numFiles + 1) → Bool) (startFile endFile : Nat)
    (pc : ServerPc) : Prop where
  last : fileSaved (Fin.last numFiles) = false
  least : IsLeast {i | ∃ h : i < numFiles + 1, fileSaved ⟨i, h⟩ = false} startFile
  endFile_eq : endFile = numFiles
  finishing : pc = .finishing ↔ startFile = numFiles

/-- The state of file `f`, if it has `n` packets. -/
def Server.FileOk (s : Server) (n : Nat) (f : Fin numFiles) : Prop :=
  FileState n (s.expanded f) (s.fileSaved f.castSucc) (s.storedPacket f) (s.datas f)

structure Server.Ok (n : Fin numFiles → Nat) (s : Server) : Prop where
  file : ∀ f, s.FileOk (n f) f
  window : Window s.fileSaved s.startFile s.endFile s.pc

/-- Packet `i` of file `f` has been stored, or the whole file has been written. -/
def Server.Has (s : Server) (f : Fin numFiles) (i : Nat) : Prop :=
  s.fileSaved f.castSucc = true ∨ (s.storedPacket f)[i]? = some true

/-- The packets the server has got. -/
def Server.know (n : Fin numFiles → Nat) (s : Server) : Set (Fin numFiles × Nat) :=
  {k | k.2 < n k.1 ∧ s.Has k.1 k.2}

/-- Every slot that is set holds the data of its packet. -/
def Server.Exact (data : Fin numFiles → Nat → List Byte) (s : Server) : Prop :=
  ∀ f i, (s.storedPacket f)[i]? = some true → (s.datas f)[i]? = some (data f i)

theorem Server.new_ok (n : Fin numFiles → Nat) : Server.new.Ok n where
  file _ := .untouched rfl rfl rfl rfl
  window :=
    { last := rfl
      least := ⟨⟨Nat.succ_pos _, rfl⟩, fun i _ => Nat.zero_le i⟩
      endFile_eq := rfl
      finishing := by decide }

theorem Server.new_exact (data : Fin numFiles → Nat → List Byte) : Server.new.Exact data :=
  fun _ _ h => by cases h

section Facts

variable {n : Fin numFiles → Nat} {s : Server} {f : Fin numFiles}

theorem Server.Ok.start_le (hs : s.Ok n) : s.startFile ≤ numFiles := by
  obtain ⟨hlt, -⟩ := hs.window.least.1
  omega

/-- The window starts at or before a file that is not saved. -/
theorem Server.Ok.start_le_unsaved (hs : s.Ok n) (h : s.fileSaved f.castSucc = false) :
    s.startFile ≤ f :=
  hs.window.least.2 ⟨Nat.lt_succ_of_lt f.isLt, h⟩

/-- The files before the window are saved. -/
theorem Server.Ok.saved_of_lt (hs : s.Ok n) (h : f < s.startFile) :
    s.fileSaved f.castSucc = true := by
  by_contra hne
  have hle := hs.start_le_unsaved (Bool.eq_false_of_not_eq_true hne)
  omega

/-- With everything known of a file, the file has been written. -/
theorem Server.Ok.saved_of_has (hs : s.Ok n) (hpos : 0 < n f) (h : ∀ i < n f, s.Has f i) :
    s.fileSaved f.castSucc = true := by
  by_contra hne
  have hstored : ∀ i < n f, (s.storedPacket f)[i]? = some true :=
    fun i hi => (h i hi).resolve_left hne
  cases hs.file f with
  | untouched he hv hslots hd =>
    have h0 := hstored 0 hpos
    rw [hslots] at h0
    cases h0
  | receiving he hv hslots hd hm =>
    obtain ⟨i, hi, hget⟩ := List.mem_iff_getElem.mp hm
    have hi' := hstored i (hslots ▸ hi)
    rw [List.getElem?_eq_getElem hi, hget] at hi'
    cases hi'
  | written he hv hslots hd => exact hne hv

end Facts

/-! ## 2. What a packet does to the arrays -/

theorem resize_nil {α : Type*} (n : Nat) (value : α) :
    resize [] n value = List.replicate n value := by
  rw [resize, List.take_nil, List.nil_append, List.length_nil, Nat.sub_zero]

/-- The arrays with the packet in its slot. -/
def Server.fill (s : Server) (f : Fin numFiles) (p : Packet) : Server :=
  (s.expand f p.totalPackets).put f p.packetNumber.toNat (p.data.take p.length.toNat)

/-- The vectors of a file before a packet is put into them. -/
structure Expanded (s t : Server) (f : Fin numFiles) (n : Nat) : Prop where
  stored_length : (t.storedPacket f).length = n
  datas_length : (t.datas f).length = n
  expanded : t.expanded f = true
  stored : ∀ i : Nat, (t.storedPacket f)[i]? = some true ↔ (s.storedPacket f)[i]? = some true
  datas : ∀ i : Nat, (s.storedPacket f)[i]? = some true → (t.datas f)[i]? = (s.datas f)[i]?

section Fill

variable {s : Server} {n : Nat} {f g : Fin numFiles} {w : Word} {p : Packet}

theorem expand_frame (s : Server) (f : Fin numFiles) (w : Word) :
    (s.expand f w).fileSaved = s.fileSaved ∧ (s.expand f w).startFile = s.startFile ∧
      (s.expand f w).endFile = s.endFile ∧ (s.expand f w).pc = s.pc := by
  unfold Server.expand
  split <;> exact ⟨rfl, rfl, rfl, rfl⟩

theorem expand_of_ne (s : Server) (w : Word) (h : g ≠ f) :
    (s.expand f w).storedPacket g = s.storedPacket g ∧ (s.expand f w).datas g = s.datas g ∧
      (s.expand f w).expanded g = s.expanded g := by
  unfold Server.expand
  split
  · exact ⟨rfl, rfl, rfl⟩
  · exact ⟨Function.update_of_ne h .., Function.update_of_ne h .., Function.update_of_ne h ..⟩

theorem expand_of_expanded (h : s.expanded f = true) (w : Word) : s.expand f w = s := if_pos h

theorem expand_expanded (hs : s.FileOk n f) (hw : w.toNat = n)
    (hv : s.fileSaved f.castSucc = false) : Expanded s (s.expand f w) f n := by
  cases hs with
  | untouched he hv' hslots hd =>
    have hneg : ¬ s.expanded f = true := by simp [he]
    unfold Server.expand
    rw [if_neg hneg]
    constructor <;> simp [hslots, hd, hw, resize_nil, List.getElem?_replicate]
  | receiving he hv' hslots hd hm =>
    rw [expand_of_expanded he]
    exact ⟨hslots, hd, he, fun i => Iff.rfl, fun i _ => rfl⟩
  | written he hv' hslots hd =>
    rw [hv] at hv'
    cases hv'

/-- A file with a packet that is new has its vectors. -/
theorem expanded_of_new {m : Fin numFiles → Nat} (hs : s.FileOk (m f) f) (hp : Header m f p)
    {i : Nat} (hnew : ¬ s.Has f i) : s.fileSaved f.castSucc = false ∧
      Expanded s (s.expand f p.totalPackets) f (m f) := by
  have hunsaved := Bool.eq_false_of_not_eq_true (not_or.mp hnew).1
  exact ⟨hunsaved, expand_expanded hs hp.total hunsaved⟩

theorem fill_frame (s : Server) (f : Fin numFiles) (p : Packet) :
    (s.fill f p).fileSaved = s.fileSaved ∧ (s.fill f p).startFile = s.startFile ∧
      (s.fill f p).endFile = s.endFile ∧ (s.fill f p).pc = s.pc := expand_frame s f p.totalPackets

theorem fill_of_ne (s : Server) (p : Packet) (h : g ≠ f) :
    (s.fill f p).storedPacket g = s.storedPacket g ∧ (s.fill f p).datas g = s.datas g ∧
      (s.fill f p).expanded g = s.expanded g := by
  obtain ⟨hslots, hd, he⟩ := expand_of_ne s p.totalPackets h
  refine ⟨?_, ?_, he⟩
  · rw [← hslots]
    exact Function.update_of_ne h ..
  · rw [← hd]
    exact Function.update_of_ne h ..

theorem fill_storedPacket (s : Server) (f : Fin numFiles) (p : Packet) :
    (s.fill f p).storedPacket f =
      ((s.expand f p.totalPackets).storedPacket f).set p.packetNumber.toNat true :=
  Function.update_self ..

theorem fill_datas (s : Server) (f : Fin numFiles) (p : Packet) :
    (s.fill f p).datas f = ((s.expand f p.totalPackets).datas f).set p.packetNumber.toNat
      (p.data.take p.length.toNat) :=
  Function.update_self ..

/-- One more slot is set. -/
theorem fill_stored (h : Expanded s (s.expand f p.totalPackets) f n)
    (hi : p.packetNumber.toNat < n) (i : Nat) :
    ((s.fill f p).storedPacket f)[i]? = some true ↔
      (s.storedPacket f)[i]? = some true ∨ i = p.packetNumber.toNat := by
  have hlen := h.stored_length
  rw [fill_storedPacket, List.getElem?_set]
  split
  · rename_i heq
    rw [if_pos (by omega)]
    exact iff_of_true rfl (.inr heq.symm)
  · rename_i hne
    rw [h.stored, or_iff_left fun heq => hne heq.symm]

theorem fill_data (h : Expanded s (s.expand f p.totalPackets) f n)
    (hi : p.packetNumber.toNat < n) :
    ((s.fill f p).datas f)[p.packetNumber.toNat]? = some (p.data.take p.length.toNat) := by
  have hlen := h.datas_length
  rw [fill_datas, List.getElem?_set_self (by omega)]

theorem fill_data_of_ne (h : Expanded s (s.expand f p.totalPackets) f n) {i : Nat}
    (hi : i ≠ p.packetNumber.toNat) (hs : (s.storedPacket f)[i]? = some true) :
    ((s.fill f p).datas f)[i]? = (s.datas f)[i]? := by
  rw [fill_datas, List.getElem?_set_ne hi.symm, h.datas i hs]

end Fill

/-! ## 3. What a packet can do -/

/-- What becomes of a packet that passes the checksum and has a correct header: the server after
    it and the calls of `store_file`. -/
inductive Outcome (s : Server) (f : Fin numFiles) (p : Packet) :
    Server → List StoreFile → Prop where
  | known (h : s.fileSaved f.castSucc = true) : Outcome s f p s.leave []
  | again (hv : s.fileSaved f.castSucc = false)
      (hs : (s.storedPacket f)[p.packetNumber.toNat]? = some true) :
      Outcome s f p { s with pc := .inner } []
  | kept (h : ¬ s.Has f p.packetNumber.toNat) (hl : p.length.toNat ≤ packetSize)
      (hm : false ∈ (s.fill f p).storedPacket f) :
      Outcome s f p { s.fill f p with pc := .inner } []
  | complete (h : ¬ s.Has f p.packetNumber.toNat) (hl : p.length.toNat ≤ packetSize)
      (hall : ∀ b ∈ (s.fill f p).storedPacket f, b = true) :
      Outcome s f p ((s.fill f p).save f).leave [(f, ((s.fill f p).datas f).flatten)]

section Outcome

variable {n : Fin numFiles → Nat} {s : Server} {f : Fin numFiles} {p : Packet}

theorem not_all_of_mem {l : List Bool} (h : false ∈ l) : l.all id = false := by
  rw [List.all_eq_false]
  exact ⟨false, h, Bool.false_ne_true⟩

/-- The slot of a packet that has not been stored is empty. -/
theorem slot_empty (h : Expanded s (s.expand f p.totalPackets) f (n f))
    (hi : p.packetNumber.toNat < n f) (hh : ¬ s.Has f p.packetNumber.toNat) :
    ((s.expand f p.totalPackets).storedPacket f)[p.packetNumber.toNat]? = some false := by
  have hlt : p.packetNumber.toNat < ((s.expand f p.totalPackets).storedPacket f).length := by
    rw [h.stored_length]
    exact hi
  have hne := mt (h.stored p.packetNumber.toNat).mp fun hs => hh (.inr hs)
  rw [List.getElem?_eq_getElem hlt] at hne ⊢
  cases hb : ((s.expand f p.totalPackets).storedPacket f)[p.packetNumber.toNat] with
  | false => rfl
  | true => exact absurd (congrArg some hb) hne

theorem receive_eq (hf : p.fileNumber.toNat = f) (hc : p.checksum = p.calculatedChecksum) :
    s.receive p =
    if ((s.expand f p.totalPackets).storedPacket f).isEmpty then
      .ok (s.expand f p.totalPackets, .leave, [])
    else ((s.expand f p.totalPackets).store f p).map (Server.saveIfComplete · f) := by
  obtain ⟨f, hlt⟩ := f
  subst hf
  unfold Server.receive
  rw [if_neg (not_not.mpr hc), dif_pos hlt]

/-- A packet that does not pass the checksum ends the inner loop. -/
theorem onPacket_rejected (s : Server) (h : p.checksum ≠ p.calculatedChecksum) :
    s.onPacket p = .ok (s.leave, []) := by
  have hr : s.receive p = .ok (s, .leave, []) := if_pos h
  unfold Server.onPacket
  rw [hr]
  rfl

/-- A packet of a file that is written already: the vectors are empty and stay so. -/
theorem onPacket_written (hs : s.FileOk (n f) f) (hf : p.fileNumber.toNat = f)
    (hc : p.checksum = p.calculatedChecksum) (hv : s.fileSaved f.castSucc = true) :
    s.onPacket p = .ok (s.leave, []) := by
  unfold Server.onPacket
  rw [receive_eq hf hc]
  cases hs with
  | untouched _ hv' _ _ => rw [hv] at hv'; cases hv'
  | receiving _ hv' _ _ _ => rw [hv] at hv'; cases hv'
  | written he _ hslots _ =>
    rw [expand_of_expanded he, hslots]
    rfl

/-- A packet for a slot that is set: another slot is still empty. -/
theorem onPacket_duplicate (hs : s.FileOk (n f) f) (hf : p.fileNumber.toNat = f)
    (hc : p.checksum = p.calculatedChecksum)
    (hstored : (s.storedPacket f)[p.packetNumber.toNat]? = some true) :
    s.onPacket p = .ok ({ s with pc := .inner }, []) := by
  unfold Server.onPacket
  rw [receive_eq hf hc]
  cases hs with
  | untouched _ _ hslots _ => rw [hslots] at hstored; cases hstored
  | written _ _ hslots _ => rw [hslots] at hstored; cases hstored
  | receiving he _ _ _ hm =>
    have hne : (s.storedPacket f).isEmpty = false := by
      rw [List.isEmpty_eq_false_iff_exists_mem]
      exact ⟨_, hm⟩
    have hall : s.saveIfComplete f = (s, .again, []) := if_neg (by simp [not_all_of_mem hm])
    have hstore : s.store f p = .ok s := by
      unfold Server.store
      rw [hstored]
    rw [expand_of_expanded he, hne, hstore]
    simp only [Except.map, hall]
    rfl

/-- Either that happens, or the packet is new and too long. -/
theorem onPacket_outcome (hs : s.FileOk (n f) f) (hp : Header n f p)
    (hc : p.checksum = p.calculatedChecksum) :
    (∃ t saved, s.onPacket p = .ok (t, saved) ∧ Outcome s f p t saved) ∨
      (s.onPacket p = .error .length ∧ ¬ s.Has f p.packetNumber.toNat ∧
        packetSize < p.length.toNat) := by
  have hi := hp.number
  by_cases hv : s.fileSaved f.castSucc = true
  · exact .inl ⟨_, _, onPacket_written hs hp.file hc hv, .known hv⟩
  have hv' := Bool.eq_false_of_not_eq_true hv
  by_cases hstored : (s.storedPacket f)[p.packetNumber.toNat]? = some true
  · exact .inl ⟨_, _, onPacket_duplicate hs hp.file hc hstored, .again hv' hstored⟩
  unfold Server.onPacket
  rw [receive_eq hp.file hc]
  have hexp := expand_expanded hs hp.total hv'
  have hne : ((s.expand f p.totalPackets).storedPacket f).isEmpty = false := by
    rw [List.isEmpty_eq_false_iff_exists_mem]
    exact ⟨_, List.getElem_mem (hexp.stored_length ▸ hi)⟩
  rw [if_neg (by simp [hne])]
  have hmiss : ¬ s.Has f p.packetNumber.toNat := not_or.mpr ⟨hv, hstored⟩
  have hdatas : ¬ ((s.expand f p.totalPackets).datas f).length ≤ p.packetNumber.toNat := by
    rw [hexp.datas_length]
    omega
  have hstore : (s.expand f p.totalPackets).store f p =
      if packetSize < p.length.toNat then .error .length else .ok (s.fill f p) := by
    unfold Server.store
    rw [slot_empty hexp hi hmiss, if_neg hdatas]
    rfl
  rw [hstore]
  by_cases hl : packetSize < p.length.toNat
  · rw [if_pos hl]
    exact .inr ⟨rfl, hmiss, hl⟩
  · refine .inl ?_
    rw [if_neg hl]
    have hl := Nat.le_of_not_lt hl
    simp only [Except.map, Server.saveIfComplete]
    cases hall : ((s.fill f p).storedPacket f).all id with
    | true => exact ⟨_, _, rfl, .complete hmiss hl (by simpa using hall)⟩
    | false =>
      obtain ⟨b, hb, hfalse⟩ := List.all_eq_false.mp hall
      have hb' : b = false := Bool.eq_false_of_not_eq_true hfalse
      exact ⟨_, _, rfl, .kept hmiss hl (hb' ▸ hb)⟩

end Outcome

/-! ## 4. The invariant is kept -/

section Leave

variable {n : Fin numFiles → Nat} {s t : Server}

theorem leave_frame (s : Server) : s.leave.storedPacket = s.storedPacket ∧
    s.leave.datas = s.datas ∧ s.leave.expanded = s.expanded ∧
      s.leave.fileSaved = s.fileSaved := by
  unfold Server.leave Server.updateWindow
  split <;> exact ⟨rfl, rfl, rfl, rfl⟩

theorem leave_pc (s : Server) : s.leave.pc = .outer ∨ s.leave.pc = .finishing := by
  unfold Server.leave
  dsimp only
  split
  · exact .inr rfl
  · exact .inl rfl

/-- The loop over `file_saved` always ends at an entry. -/
theorem firstUnsaved_eq (hlast : s.fileSaved (Fin.last numFiles) = false)
    (hle : s.startFile ≤ numFiles) : ∃ i, s.firstUnsaved = some i ∧ s.fileSaved i = false ∧
      ∀ j : Fin (numFiles + 1), s.startFile ≤ j → s.fileSaved j = false → i ≤ j := by
  have hsome : s.firstUnsaved.isSome := by
    unfold Server.firstUnsaved
    rw [List.find?_isSome]
    exact ⟨Fin.last numFiles, List.mem_finRange _, by simp [hlast, hle]⟩
  obtain ⟨i, hi⟩ := Option.isSome_iff_exists.mp hsome
  obtain ⟨hpi, k, hk, hget, hmin⟩ := List.find?_eq_some_iff_getElem.mp hi
  refine ⟨i, hi, ?_, fun j hj hjs => ?_⟩
  · simp only [Bool.and_eq_true, Bool.not_eq_true'] at hpi
    exact hpi.2
  · by_contra hlt
    have hik : i.1 = k := by rw [← hget, List.getElem_finRange]; rfl
    have hjk : j.1 < k := by omega
    have hfail := hmin j hjk
    rw [List.getElem_finRange] at hfail
    simp [hj, hjs] at hfail

/-- The window update makes the window right. -/
theorem leave_window (hlast : s.fileSaved (Fin.last numFiles) = false)
    (hbelow : ∀ i : Fin (numFiles + 1), s.fileSaved i = false → s.startFile ≤ i) :
    Window s.leave.fileSaved s.leave.startFile s.leave.endFile s.leave.pc := by
  obtain ⟨i, hi, hsaved, hmin⟩ := firstUnsaved_eq hlast (hbelow _ hlast)
  have hle : numFiles ≤ i + initialWinSize := Nat.le_add_left numFiles i
  unfold Server.leave Server.updateWindow
  rw [hi]
  simp only [if_pos hle]
  refine ⟨hlast, ⟨⟨i.isLt, hsaved⟩, fun j hj => ?_⟩, rfl, ?_⟩
  · obtain ⟨hlt, hj⟩ := hj
    exact hmin ⟨j, hlt⟩ (hbelow _ hj) hj
  · split
    · rename_i heq
      exact iff_of_true rfl heq
    · rename_i hne
      exact iff_of_false (fun h => by cases h) hne

theorem leave_ok (hfile : ∀ g, s.FileOk (n g) g)
    (hlast : s.fileSaved (Fin.last numFiles) = false)
    (hbelow : ∀ i : Fin (numFiles + 1), s.fileSaved i = false → s.startFile ≤ i) :
    s.leave.Ok n := by
  obtain ⟨hslots, hd, he, hv⟩ := leave_frame s
  refine ⟨fun g => ?_, leave_window hlast hbelow⟩
  unfold Server.FileOk
  rw [hslots, hd, he, hv]
  exact hfile g

theorem Server.Ok.leave (hs : s.Ok n) : s.leave.Ok n :=
  leave_ok hs.file hs.window.last fun i hi => hs.window.least.2 ⟨i.isLt, hi⟩

/-- Waiting at the second `recvfrom`, with a file that is not saved. -/
theorem Server.Ok.inner (hs : s.Ok n) {f : Fin numFiles} (h : s.fileSaved f.castSucc = false) :
    Window s.fileSaved s.startFile s.endFile .inner := by
  have hlt := hs.start_le_unsaved h
  have hne : s.startFile ≠ numFiles := by omega
  exact ⟨hs.window.last, hs.window.least, hs.window.endFile_eq,
    iff_of_false (fun h => by cases h) hne⟩

end Leave

section Kept

variable {n : Fin numFiles → Nat} {s t : Server} {f : Fin numFiles} {p : Packet}
  {saved : List StoreFile}

theorem fill_fileOk_of_ne (hs : s.Ok n) {g : Fin numFiles} (h : g ≠ f) :
    (s.fill f p).FileOk (n g) g := by
  obtain ⟨hslots, hd, he⟩ := fill_of_ne s p h
  unfold Server.FileOk
  rw [hslots, hd, he, (fill_frame s f p).1]
  exact hs.file g

/-- **A packet keeps the invariant.** -/
theorem Outcome.ok (hs : s.Ok n) (hp : Header n f p) (h : Outcome s f p t saved) :
    t.Ok n := by
  obtain ⟨hv, hstart, hend, -⟩ := fill_frame s f p
  cases h with
  | known h => exact hs.leave
  | again hv hslot => exact ⟨hs.file, hs.inner hv⟩
  | kept hmiss hl hm =>
    obtain ⟨hunsaved, hexp⟩ := expanded_of_new (hs.file f) hp hmiss
    refine ⟨fun g => ?_, ?_⟩
    · by_cases hg : g = f
      · subst hg
        refine .receiving hexp.expanded (hv ▸ hunsaved) ?_ ?_ hm
        · rw [fill_storedPacket, List.length_set, hexp.stored_length]
        · rw [fill_datas, List.length_set, hexp.datas_length]
      · exact fill_fileOk_of_ne hs hg
    · have hw := hs.inner hunsaved
      rw [← hv, ← hstart, ← hend] at hw
      exact hw
  | complete hmiss hl hall =>
    obtain ⟨hunsaved, hexp⟩ := expanded_of_new (hs.file f) hp hmiss
    have hsaved : ((s.fill f p).save f).fileSaved =
        Function.update s.fileSaved f.castSucc true := by rw [← hv]; rfl
    have hstart' : ((s.fill f p).save f).startFile = s.startFile := hstart
    refine leave_ok (fun g => ?_) ?_ fun i hi => ?_
    · by_cases hg : g = f
      · subst hg
        exact .written hexp.expanded (Function.update_self ..) (Function.update_self ..)
          (Function.update_self ..)
      · have hok := fill_fileOk_of_ne (p := p) hs hg
        have hne : g.castSucc ≠ f.castSucc := (Fin.castSucc_injective _).ne hg
        unfold Server.FileOk Server.save
        simp only [Function.update_of_ne hg, Function.update_of_ne hne]
        exact hok
    · rw [hsaved, Function.update_of_ne (Fin.castSucc_lt_last f).ne']
      exact hs.window.last
    · rw [hsaved] at hi
      rw [hstart']
      by_cases hne : i = f.castSucc
      · rw [hne, Function.update_self] at hi
        cases hi
      · rw [Function.update_of_ne hne] at hi
        exact hs.window.least.2 ⟨i.isLt, hi⟩

end Kept

/-! ## 5. What the server knows, and its data -/

section Know

variable {n : Fin numFiles → Nat} {s t : Server} {f g : Fin numFiles} {p : Packet} {i : Nat}
  {saved : List StoreFile}

theorem leave_has (s : Server) : s.leave.Has g i ↔ s.Has g i := by
  obtain ⟨hslots, -, -, hv⟩ := leave_frame s
  unfold Server.Has
  rw [hslots, hv]

theorem fill_has_of_ne (h : g ≠ f) : (s.fill f p).Has g i ↔ s.Has g i := by
  unfold Server.Has
  rw [(fill_of_ne s p h).1, (fill_frame s f p).1]

theorem save_has_of_ne (h : g ≠ f) : (s.save f).Has g i ↔ s.Has g i := by
  have hne : g.castSucc ≠ f.castSucc := (Fin.castSucc_injective _).ne h
  unfold Server.Has Server.save
  simp only [Function.update_of_ne h, Function.update_of_ne hne]

theorem fill_has (h : Expanded s (s.expand f p.totalPackets) f (n f))
    (hi : p.packetNumber.toNat < n f) :
    (s.fill f p).Has f i ↔ s.Has f i ∨ i = p.packetNumber.toNat := by
  unfold Server.Has
  rw [fill_stored h hi, (fill_frame s f p).1, or_assoc]

/-- A packet makes its own number known. -/
theorem Outcome.has (hs : s.Ok n) (hp : Header n f p) (h : Outcome s f p t saved)
    (hi : i < n g) : t.Has g i ↔ s.Has g i ∨ (g = f ∧ i = p.packetNumber.toNat) := by
  cases h with
  | known hv =>
    rw [leave_has, or_iff_left_of_imp]
    intro h
    exact .inl (h.1 ▸ hv)
  | again hv hslot =>
    show s.Has g i ↔ _
    rw [or_iff_left_of_imp]
    intro h
    rw [h.1, h.2]
    exact .inr hslot
  | kept hmiss hl hm =>
    obtain ⟨hunsaved, hexp⟩ := expanded_of_new (hs.file f) hp hmiss
    show (s.fill f p).Has g i ↔ _
    by_cases hg : g = f
    · subst hg
      simp only [true_and]
      exact fill_has hexp hp.number
    · rw [fill_has_of_ne hg, or_iff_left fun h => hg h.1]
  | complete hmiss hl hall =>
    obtain ⟨hunsaved, hexp⟩ := expanded_of_new (hs.file f) hp hmiss
    rw [leave_has]
    by_cases hg : g = f
    · subst hg
      refine iff_of_true (.inl (Function.update_self ..)) ?_
      -- every slot is set, and all but one were set before
      have hlen : i < ((s.fill g p).storedPacket g).length := by
        rw [fill_storedPacket, List.length_set, hexp.stored_length]
        exact hi
      have hslot : (s.fill g p).Has g i := by
        refine .inr ?_
        rw [List.getElem?_eq_getElem hlen, hall _ (List.getElem_mem hlen)]
      simp only [true_and]
      exact (fill_has hexp hp.number).mp hslot
    · rw [save_has_of_ne hg, fill_has_of_ne hg, or_iff_left fun h => hg h.1]

/-- **The abstract step**: a packet is added to the set. -/
theorem Outcome.know (hs : s.Ok n) (hp : Header n f p) (h : Outcome s f p t saved) :
    t.know n = insert (f, p.packetNumber.toNat) (s.know n) := by
  ext ⟨g, i⟩
  simp only [Server.know, Set.mem_ofPred_eq, Set.mem_insert_iff, Prod.mk.injEq]
  constructor
  · intro ⟨hi, hhas⟩
    rcases (h.has hs hp hi).mp hhas with hhas | ⟨rfl, rfl⟩
    · exact .inr ⟨hi, hhas⟩
    · exact .inl ⟨rfl, rfl⟩
  · intro hcase
    rcases hcase with ⟨rfl, rfl⟩ | ⟨hi, hhas⟩
    · exact ⟨hp.number, (h.has hs hp hp.number).mpr (.inr ⟨rfl, rfl⟩)⟩
    · exact ⟨hi, (h.has hs hp hi).mpr (.inl hhas)⟩

/-- `store_file` is called for a file that is not saved yet, and then it is. -/
theorem Outcome.storeFile (h : Outcome s f p t saved) :
    (saved = [] ∧ t.fileSaved = s.fileSaved) ∨
      ∃ c, saved = [(f, c)] ∧ s.fileSaved f.castSucc = false ∧
        t.fileSaved = Function.update s.fileSaved f.castSucc true := by
  have hv := (fill_frame s f p).1
  cases h with
  | known h => exact .inl ⟨rfl, (leave_frame s).2.2.2⟩
  | again hv hslot => exact .inl ⟨rfl, rfl⟩
  | kept hmiss hl hm => exact .inl ⟨rfl, hv⟩
  | complete hmiss hl hall =>
    refine .inr ⟨_, rfl, Bool.eq_false_of_not_eq_true (not_or.mp hmiss).1, ?_⟩
    rw [(leave_frame _).2.2.2, ← hv]
    rfl

/-- While another packet of the file is missing, the server waits at its second `recvfrom`. -/
theorem Outcome.inner (hs : s.Ok n) (hp : Header n f p) (h : Outcome s f p t saved) (hi : i < n f)
    (hne : i ≠ p.packetNumber.toNat) (hmiss : ¬ s.Has f i) : t.pc = .inner := by
  have hmiss' : ¬ t.Has f i := fun hhas =>
    ((h.has hs hp hi).mp hhas).elim hmiss fun heq => hne heq.2
  cases h with
  | known hv => exact absurd (.inl hv) hmiss
  | again hv hslot => rfl
  | kept hnew hl hm => rfl
  | complete hnew hl hall =>
    refine absurd (.inl ?_) hmiss'
    rw [(leave_frame _).2.2.2]
    exact Function.update_self ..

end Know

section Exact

variable {n : Fin numFiles → Nat} {data : Fin numFiles → Nat → List Byte} {s t : Server}
  {f : Fin numFiles} {p : Packet} {saved : List StoreFile}

theorem leave_exact (h : s.Exact data) : s.leave.Exact data := by
  obtain ⟨hslots, hd, -, -⟩ := leave_frame s
  unfold Server.Exact
  rw [hslots, hd]
  exact h

theorem fill_exact (hs : s.Exact data) (h : Expanded s (s.expand f p.totalPackets) f (n f))
    (hi : p.packetNumber.toNat < n f)
    (hp : p.data.take p.length.toNat = data f p.packetNumber.toNat) :
    (s.fill f p).Exact data := by
  intro g i hslot
  by_cases hg : g = f
  · subst hg
    by_cases hne : i = p.packetNumber.toNat
    · rw [hne, fill_data h hi, hp]
    · have hold := ((fill_stored h hi i).mp hslot).resolve_right hne
      rw [fill_data_of_ne h hne hold]
      exact hs g i hold
  · obtain ⟨hslots, hd, -⟩ := fill_of_ne s p hg
    rw [hslots] at hslot
    rw [hd]
    exact hs g i hslot

/-- With every slot set, the data is that of all packets. -/
theorem datas_eq (hs : s.Exact data) (hslots : (s.storedPacket f).length = n f)
    (hd : (s.datas f).length = n f) (hall : ∀ b ∈ s.storedPacket f, b = true) :
    s.datas f = (List.range (n f)).map (data f) := by
  refine List.ext_getElem? fun i => ?_
  by_cases hi : i < n f
  · have hlt : i < (s.storedPacket f).length := hslots ▸ hi
    have hslot : (s.storedPacket f)[i]? = some true := by
      rw [List.getElem?_eq_getElem hlt, hall _ (List.getElem_mem hlt)]
    rw [hs f i hslot, List.getElem?_map, List.getElem?_range hi]
    rfl
  · have hle := Nat.le_of_not_lt hi
    rw [List.getElem?_eq_none (by omega), List.getElem?_eq_none (by simpa using hle)]

/-- **A packet with the right data keeps the data right**, in the slots and in the files. -/
theorem Outcome.exact (hs : s.Ok n) (hex : s.Exact data) (hp : Header n f p)
    (hdata : p.data.take p.length.toNat = data f p.packetNumber.toNat)
    (h : Outcome s f p t saved) :
    t.Exact data ∧ ∀ c ∈ saved, c.2 = ((List.range (n c.1)).map (data c.1)).flatten := by
  cases h with
  | known h => exact ⟨leave_exact hex, by simp⟩
  | again hv hslot => exact ⟨hex, by simp⟩
  | kept hmiss hl hm =>
    obtain ⟨hunsaved, hexp⟩ := expanded_of_new (hs.file f) hp hmiss
    exact ⟨fill_exact hex hexp hp.number hdata, by simp⟩
  | complete hmiss hl hall =>
    obtain ⟨hunsaved, hexp⟩ := expanded_of_new (hs.file f) hp hmiss
    have hfill := fill_exact hex hexp hp.number hdata
    refine ⟨leave_exact fun g i hslot => ?_, fun c hc => ?_⟩
    · by_cases hg : g = f
      · have hnil : ((s.fill f p).save f).storedPacket g = [] := by
          rw [hg]
          exact Function.update_self ..
        rw [hnil] at hslot
        cases hslot
      · have hslots : ((s.fill f p).save f).storedPacket g = (s.fill f p).storedPacket g :=
          Function.update_of_ne hg ..
        have hd : ((s.fill f p).save f).datas g = (s.fill f p).datas g :=
          Function.update_of_ne hg ..
        rw [hslots] at hslot
        rw [hd]
        exact hfill g i hslot
    · obtain rfl := List.mem_singleton.mp hc
      have hslots : ((s.fill f p).storedPacket f).length = n f := by
        rw [fill_storedPacket, List.length_set, hexp.stored_length]
      have hd : ((s.fill f p).datas f).length = n f := by
        rw [fill_datas, List.length_set, hexp.datas_length]
      rw [datas_eq hfill hslots hd hall]

end Exact

end InpLabs.Udp
