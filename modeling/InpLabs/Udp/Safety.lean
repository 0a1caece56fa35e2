/-
  File:      InpLabs/Udp/Safety.lean
  Subject:   What the file transfer never does, as long as the packets arrive intact.

  * `Safe`, `transfer_safe`: the slots hold the bytes of the client's files, a file is written once
    and right, the window starts at the least file that is not saved, and the transfer ends only
    with all files saved;
  * `transfer_safe_two`: a run that saves a file.
-/
import InpLabs.Udp.System

namespace InpLabs.Udp

open InpLabs.Lib

/-! ## 1. The statement -/

/-- Every file is split into at most `MAX_PACKETS` packets. -/
def Fits (files : Files) : Prop := ∀ f, (files f).length / packetSize + 1 ≤ maxPackets

/-- `store_file` has been called for the file. -/
def Sys.Saved (s : Sys) (f : Fin numFiles) : Prop := ∃ content, (f, content) ∈ s.saved

/-- The bytes from `a` up to `b`, without `b`. -/
def bytesBetween (content : List Byte) (a b : Nat) : List Byte := (content.take b).drop a

structure Safe (files : Files) (s : Sys) : Prop where
  slots : ∀ f p, (s.server.storedPacket f)[p]? = some true → (s.server.datas f)[p]? =
    some (bytesBetween (files f) (1200 * p) (min (1200 * p + 1200) (files f).length))
  once : (s.saved.map Prod.fst).Nodup
  content : ∀ c ∈ s.saved, c.2 = files c.1
  window : IsLeast {i | i = numFiles ∨ ∃ f : Fin numFiles, f.1 = i ∧ ¬ s.Saved f}
    s.server.startFile
  finish_sent : ∀ a ∈ s.built, a.fileNumber = finish → ∀ f, s.Saved f
  finished : s.client = .finished → ∀ f, s.Saved f

/-! ## 2. The proof -/

section Safe

variable {files : Files} {s : Sys}

theorem chunk_eq (content : List Byte) (p : Nat) : chunk content p =
    bytesBetween content (1200 * p) (min (1200 * p + 1200) content.length) := by
  have htake : content.take (min (1200 * p + 1200) content.length) =
      content.take (1200 * p + 1200) := by
    rw [← List.take_take, List.take_length]
  unfold chunk bytesBetween packetSize
  rw [htake, List.drop_take, Nat.mul_comm p, Nat.add_sub_cancel_left]

theorem Sys.Inv.saved (hs : s.Inv files) (f : Fin numFiles) :
    s.Saved f ↔ s.server.fileSaved f.castSucc = true := by
  rw [← hs.saved_iff]
  constructor
  · intro h
    obtain ⟨content, hmem⟩ := h
    exact List.mem_map.mpr ⟨_, hmem, rfl⟩
  · intro h
    obtain ⟨⟨g, content⟩, hmem, rfl⟩ := List.mem_map.mp h
    exact ⟨content, hmem⟩

/-- The entries of `file_saved` that are not set, in terms of the files. -/
theorem Sys.Inv.window (hs : s.Inv files) :
    IsLeast {i | i = numFiles ∨ ∃ f : Fin numFiles, f.1 = i ∧ ¬ s.Saved f} s.server.startFile := by
  have hset : {i | i = numFiles ∨ ∃ f : Fin numFiles, f.1 = i ∧ ¬ s.Saved f} =
      {i | ∃ h : i < numFiles + 1, s.server.fileSaved ⟨i, h⟩ = false} := by
    ext i
    simp only [Set.mem_ofPred_eq]
    constructor
    · intro h
      rcases h with rfl | ⟨f, rfl, hf⟩
      · exact ⟨Nat.lt_succ_self _, hs.server.window.last⟩
      · rw [hs.saved] at hf
        exact ⟨Nat.lt_succ_of_lt f.isLt, Bool.eq_false_of_not_eq_true hf⟩
    · intro h
      obtain ⟨hlt, hv⟩ := h
      by_cases hi : i = numFiles
      · exact .inl hi
      · refine .inr ⟨⟨i, by omega⟩, rfl, fun hsaved => ?_⟩
        have hv' := (hs.saved _).mp hsaved
        rw [show Fin.castSucc ⟨i, _⟩ = ⟨i, hlt⟩ from rfl, hv] at hv'
        cases hv'
  rw [hset]
  exact hs.server.window.least

/-- The end of the transfer is announced only when all files are saved. -/
theorem Sys.Inv.done_of_finish (hs : s.Inv files) {a : Ack} (ha : a ∈ s.built)
    (hfin : a.fileNumber = finish) : s.server.Done := by
  rcases hs.built a ha with ⟨-, hdone⟩ | ⟨f, hf, -⟩
  · exact hdone
  · exact absurd hfin (ne_of_file (by decide) hf)

/-- What is saved is the client's file. -/
theorem saved_content (hfit : Fits files) (h : ((transfer files).restrict Intact).Reachable s) :
    ∀ c ∈ s.saved, c.2 = files c.1 := by
  intro c hc
  have hex := transfer_exact (h.restrict_mono fun _ _ => Intact.harmless)
  rw [hex.saved c hc, sentContent_eq (Nat.lt_of_le_of_lt (hfit c.1) (by decide))]

/-- **Safety**: in every state that is reached over a network that loses, duplicates, delays and
    reorders datagrams. -/
theorem transfer_safe (hfit : Fits files)
    (h : ((transfer files).restrict Intact).Reachable s) : Safe files s := by
  have hs := transfer_inv h.of_restrict
  have hex := transfer_exact (h.restrict_mono fun _ _ => Intact.harmless)
  refine ⟨fun f p hslot => ?_, hs.saved_nodup, saved_content hfit h, hs.window,
    fun a ha hfin f => ?_, fun hpc f => ?_⟩
  · rw [hex.slots f p hslot]
    exact congrArg some (chunk_eq (files f) p)
  · exact (hs.saved f).mpr (hs.done_of_finish ha hfin f)
  · exact (hs.saved f).mpr (hs.finished hpc f)

/-- Files of two packets, a full one and a short one, which arrive the other way round. -/
theorem transfer_safe_two : let files : Files := fun _ => List.replicate 1300 7
    ∃ s, ((transfer files).restrict Intact).Reachable s ∧ (file0, files file0) ∈ s.saved ∧
      Safe files s := by
  intro files
  have htwo : numPackets files file0 = 2 := numPackets_replicate 1300 7 file0
  have hstart : ((transfer files).restrict Intact).Reachable .start := ⟨[], .start rfl⟩
  have hsent := hstart.step ⟨fun _ _ _ => Label.noConfusion, sentFirst_step files⟩
  obtain ⟨p, hp, hgen, hnum⟩ := exists_sentFirst files (i := 1) (by omega)
  obtain ⟨q, hq, hgen', hnum'⟩ := exists_sentFirst files (i := 0) (by omega)
  -- the second packet arrives, and then the first one
  obtain ⟨t, saved, hout, harrive⟩ := (transfer_inv hsent.of_restrict).arrive (by decide) hp hgen
    fun _ _ => false
  have hone := hsent.step ⟨fun _ _ _ h => (by cases h), harrive⟩
  have hinner : t.pc = .inner := hout.inner (Server.new_ok _) hgen.toHeader (i := 0) (by omega)
    (by omega) fun hhas => by rcases hhas with h | h <;> cases h
  have hleft : q ∈ (Sys.sentFirst files).toServer.erase p :=
    (Multiset.mem_erase_of_ne fun heq => by rw [heq] at hnum'; omega).mpr hq
  have hinv := transfer_inv hone.of_restrict
  obtain ⟨u, saved', hout', harrive'⟩ := hinv.arrive (show t.pc ≠ .finishing by rw [hinner]; decide)
    hleft hgen' fun _ _ => false
  have hboth := hone.step ⟨fun _ _ _ h => (by cases h), harrive'⟩
  have hfit : Fits files := fun f => by
    show (List.replicate 1300 (7 : Byte)).length / packetSize + 1 ≤ maxPackets
    rw [List.length_replicate]
    decide
  have hsafe := transfer_safe hfit hboth
  have hhas : ∀ i < numPackets files file0, u.Has file0 i := by
    intro i hi
    refine (hout'.has hinv.server hgen'.toHeader hi).mpr ?_
    by_cases hzero : i = 0
    · exact .inr ⟨rfl, hzero.trans hnum'.symm⟩
    · refine .inl ((hout.has (Server.new_ok _) hgen.toHeader hi).mpr (.inr ⟨rfl, ?_⟩))
      omega
  have hok := transfer_inv hboth.of_restrict
  obtain ⟨content, hmem⟩ := (hok.saved file0).mpr (hok.server.saved_of_has (by omega) hhas)
  have hcontent : content = files file0 := hsafe.content _ hmem
  exact ⟨_, hboth, hcontent ▸ hmem, hsafe⟩

end Safe

end InpLabs.Udp
