/-
  File:      InpLabs/Udp/Indices.lean
  Subject:   The indices the server uses (lab6: server.cpp).

  * `Access`: a range of an array that is used, with the size the array has;
  * `receiveT`: the body of the inner loop once more, statement by statement with its indices;
    `receiveT_spec`: it faults exactly where an index is outside its array;
  * `leaveIndices`: the indices behind the inner loop, those of the window and of the acks;
    `leaveIndices_safe`: they are inside when every file that is partly there has 48 packets.
-/
import InpLabs.Lib.Traced
import InpLabs.Udp.Assembly

namespace InpLabs.Udp

open InpLabs.Lib Traced

/-! ## 1. Accesses -/

inductive Region where
  | expanded
  | storedPacket
  | slots (f : Fin numFiles)
  | datas
  | strings (f : Fin numFiles)
  | fileSaved
  | packetData
  deriving DecidableEq

/-- The indices from `first` on, `count` of them. -/
structure Access where
  region : Region
  first : Nat
  count : Nat
  size : Nat
  deriving DecidableEq

def Access.Safe (a : Access) : Prop := a.first + a.count ≤ a.size

/-- One index. -/
def use {α : Type} (region : Region) (index size : Nat) (v : α) : Traced Access α :=
  touch ⟨region, index, 1, size⟩ (index < size) v

/-- The indices below `count`. -/
def useAll {α : Type} (region : Region) (count size : Nat) (v : α) : Traced Access α :=
  touch ⟨region, 0, count, size⟩ (count ≤ size) v

/-! ## 2. A packet -/

def Server.expandT (s : Server) (f : Fin numFiles) (totalPackets : Word) :
    Traced Access Server := do
  let expanded ← use .expanded f numFiles (s.expanded f)
  if expanded then pure s
  else
    use .storedPacket f numFiles ()
    use .datas f numFiles ()
    use .expanded f numFiles (s.expand f totalPackets)

def Server.storeT (s : Server) (f : Fin numFiles) (p : Packet) : Traced Access Server := do
  let i := p.packetNumber.toNat
  use .storedPacket f numFiles ()
  let slot ← use (.slots f) i (s.storedPacket f).length ((s.storedPacket f).getD i false)
  if slot then pure s
  else
    useAll .packetData p.length.toNat packetSize ()
    use .datas f numFiles ()
    use (.strings f) i (s.datas f).length ()
    use .storedPacket f numFiles ()
    use (.slots f) i (s.storedPacket f).length (s.put f i (p.data.take p.length.toNat))

/-- A round of the loop that looks for an empty slot; after the first one it does nothing. -/
def Server.completeRound (s : Server) (f : Fin numFiles) (j : Nat) (saveFlg : Bool) :
    Traced Access Bool :=
  if saveFlg then do
    use .storedPacket f numFiles ()
    use (.slots f) j (s.storedPacket f).length ((s.storedPacket f).getD j false)
  else pure false

/-- A round of the loop that clears the strings. -/
def Server.clearRound (s : Server) (f : Fin numFiles) (j : Nat) (_ : Unit) :
    Traced Access Unit := do
  use .datas f numFiles ()
  use (.strings f) j (s.datas f).length ()

def Server.saveIfCompleteT (s : Server) (f : Fin numFiles) :
    Traced Access (Server × Next × List StoreFile) := do
  let saveFlg ← forLoop (s.completeRound f) (s.storedPacket f).length 0 true
  if saveFlg then
    use .datas f numFiles ()
    use .storedPacket f numFiles ()
    forLoop (s.clearRound f) (s.datas f).length 0 ()
    use .datas f numFiles ()
    use .fileSaved f (numFiles + 1) (s.save f, .leave, [(f, (s.datas f).flatten)])
  else pure (s, .again, [])

/-- The body of the inner loop. -/
def Server.receiveT (s : Server) (p : Packet) : Traced Access (Server × Next × List StoreFile) :=
  if p.checksum ≠ p.calculatedChecksum then pure (s, .leave, [])
  else if h : p.fileNumber.toNat < numFiles then do
    let f : Fin numFiles := ⟨p.fileNumber.toNat, h⟩
    let s ← s.expandT f p.totalPackets
    let empty ← use .storedPacket f numFiles (s.storedPacket f).isEmpty
    if empty then pure (s, .leave, [])
    else
      let s ← s.storeT f p
      s.saveIfCompleteT f
  else ⟨[⟨.expanded, p.fileNumber.toNat, 1, numFiles⟩], none⟩

section Receive

variable {α β : Type} {region : Region} {index count size : Nat} {v : α} {g : α → Traced Access β}
  {Q : β → Prop} {s : Server} {f : Fin numFiles} {p : Packet} {w : Word}

theorem yields_use {Q : α → Prop} (h : index < size) (hv : Q v) :
    (use region index size v).Yields Access.Safe Q :=
  yields_touch h (decide_eq_true h) hv

theorem yields_use_bind (h : index < size) (hg : (g v).Yields Access.Safe Q) :
    (use region index size v >>= g).Yields Access.Safe Q := by
  refine (yields_use (Q := (· = v)) h rfl).bind fun a ha => ?_
  rw [ha]
  exact hg

theorem yields_useAll_bind (h : count ≤ size) (hg : (g v).Yields Access.Safe Q) :
    (useAll region count size v >>= g).Yields Access.Safe Q := by
  have hsafe : Access.Safe ⟨region, 0, count, size⟩ := (Nat.zero_add count).trans_le h
  refine (yields_touch (Q := (· = v)) hsafe (decide_eq_true h) rfl).bind fun a ha => ?_
  rw [ha]
  exact hg

theorem lt_of_all_use_bind (h : (use region index size v >>= g).All Access.Safe) :
    index < size ∧ (g v).All Access.Safe := by
  have hok : Access.Safe ⟨region, index, 1, size⟩ → decide (index < size) = true :=
    fun hsafe => decide_eq_true hsafe
  exact (all_touch_bind hok).mp h

theorem le_of_all_useAll_bind (h : (useAll region count size v >>= g).All Access.Safe) :
    count ≤ size ∧ (g v).All Access.Safe := by
  have hle : Access.Safe ⟨region, 0, count, size⟩ → count ≤ size :=
    fun hsafe => (Nat.zero_add count).symm.trans_le hsafe
  obtain ⟨hsafe, hg⟩ := (all_touch_bind fun hsafe => decide_eq_true (hle hsafe)).mp h
  exact ⟨hle hsafe, hg⟩

theorem expandT_yields (s : Server) (f : Fin numFiles) (w : Word) :
    (s.expandT f w).Yields Access.Safe (· = s.expand f w) := by
  unfold Server.expandT
  refine yields_use_bind f.isLt ?_
  cases he : s.expanded f with
  | true =>
    rw [expand_of_expanded he]
    exact yields_pure rfl
  | false =>
    exact yields_use_bind f.isLt (yields_use_bind f.isLt (yields_use f.isLt rfl))

/-- The loop over the slots: it stays inside the vector and finds out whether all are set. -/
theorem completeLoop_yields (s : Server) (f : Fin numFiles) :
    (forLoop (s.completeRound f) (s.storedPacket f).length 0 true).Yields Access.Safe
      (· = (s.storedPacket f).all id) := by
  have hloop : (forLoop (s.completeRound f) (s.storedPacket f).length 0 true).Yields Access.Safe
      (fun b => b = ((s.storedPacket f).take (0 + (s.storedPacket f).length)).all id) := by
    refine Yields.forLoop (I := fun j b => b = ((s.storedPacket f).take j).all id)
      (fun j b _ hj hb => ?_) rfl
    rw [Nat.zero_add] at hj
    have htake : ((s.storedPacket f).take (j + 1)).all id =
        (((s.storedPacket f).take j).all id && (s.storedPacket f)[j]) := by
      rw [List.take_succ_eq_append_getElem hj, List.all_append]
      simp
    unfold Server.completeRound
    rw [htake, ← hb]
    cases b with
    | true =>
      refine yields_use_bind f.isLt (yields_use hj ?_)
      simp [List.getD_eq_getElem?_getD, hj]
    | false => exact yields_pure rfl
  refine hloop.mono fun b hb => ?_
  rw [hb, Nat.zero_add, List.take_length]

theorem saveIfCompleteT_yields (s : Server) (f : Fin numFiles) :
    (s.saveIfCompleteT f).Yields Access.Safe (· = s.saveIfComplete f) := by
  unfold Server.saveIfCompleteT Server.saveIfComplete
  refine (completeLoop_yields s f).bind fun b hb => ?_
  rw [hb]
  cases (s.storedPacket f).all id with
  | false => exact yields_pure rfl
  | true =>
    have hclear : (forLoop (s.clearRound f) (s.datas f).length 0 ()).Yields Access.Safe
        fun _ => True := by
      refine Yields.forLoop (I := fun _ _ => True) (fun j _ _ hj _ => ?_) trivial
      rw [Nat.zero_add] at hj
      exact yields_use_bind f.isLt (yields_use hj trivial)
    refine yields_use_bind f.isLt (yields_use_bind f.isLt (hclear.bind fun _ _ => ?_))
    exact yields_use_bind f.isLt (yields_use (Nat.lt_succ_of_lt f.isLt) rfl)

/-- **Storing faults exactly where an index is outside its array.** -/
theorem storeT_spec (s : Server) (f : Fin numFiles) (p : Packet) :
    (∃ t, s.store f p = .ok t ∧ (s.storeT f p).Yields Access.Safe (· = t)) ∨
      ((∃ e, s.store f p = .error e) ∧ ¬ (s.storeT f p).All Access.Safe) := by
  unfold Server.store Server.storeT
  dsimp only
  by_cases hi : p.packetNumber.toNat < (s.storedPacket f).length
  · have hget : (s.storedPacket f).getD p.packetNumber.toNat false =
        (s.storedPacket f)[p.packetNumber.toNat] := by
      simp [List.getD_eq_getElem?_getD, hi]
    rw [List.getElem?_eq_getElem hi, hget]
    cases (s.storedPacket f)[p.packetNumber.toNat] with
    | true => exact .inl ⟨s, rfl, yields_use_bind f.isLt (yields_use_bind hi (yields_pure rfl))⟩
    | false =>
      dsimp only
      by_cases hd : (s.datas f).length ≤ p.packetNumber.toNat
      · rw [if_pos hd]
        refine .inr ⟨⟨_, rfl⟩, fun h => ?_⟩
        obtain ⟨-, h⟩ := lt_of_all_use_bind (lt_of_all_use_bind h).2
        obtain ⟨-, h⟩ := lt_of_all_use_bind (le_of_all_useAll_bind h).2
        exact absurd (lt_of_all_use_bind h).1 (Nat.not_lt.mpr hd)
      · rw [if_neg hd]
        by_cases hl : packetSize < p.length.toNat
        · rw [if_pos hl]
          refine .inr ⟨⟨_, rfl⟩, fun h => ?_⟩
          obtain ⟨-, h⟩ := lt_of_all_use_bind (lt_of_all_use_bind h).2
          exact absurd (le_of_all_useAll_bind h).1 (Nat.not_le.mpr hl)
        · rw [if_neg hl]
          refine .inl ⟨_, rfl, yields_use_bind f.isLt (yields_use_bind hi ?_)⟩
          exact yields_useAll_bind (Nat.le_of_not_lt hl) (yields_use_bind f.isLt
            (yields_use_bind (Nat.lt_of_not_le hd) (yields_use_bind f.isLt (yields_use hi rfl))))
  · rw [List.getElem?_eq_none (Nat.le_of_not_lt hi)]
    refine .inr ⟨⟨_, rfl⟩, fun h => ?_⟩
    exact hi (lt_of_all_use_bind (lt_of_all_use_bind h).2).1

/-- **A packet faults exactly where an index is outside its array.** -/
theorem receiveT_spec (s : Server) (p : Packet) :
    (∃ r, s.receive p = .ok r ∧ (s.receiveT p).Yields Access.Safe (· = r)) ∨
      ((∃ e, s.receive p = .error e) ∧ ¬ (s.receiveT p).All Access.Safe) := by
  unfold Server.receive Server.receiveT
  by_cases hc : p.checksum ≠ p.calculatedChecksum
  · rw [if_pos hc, if_pos hc]
    exact .inl ⟨_, rfl, yields_pure rfl⟩
  rw [if_neg hc, if_neg hc]
  by_cases hf : p.fileNumber.toNat < numFiles
  · rw [dif_pos hf, dif_pos hf]
    have hexp := expandT_yields s ⟨p.fileNumber.toNat, hf⟩ p.totalPackets
    dsimp only
    generalize s.expand ⟨p.fileNumber.toNat, hf⟩ p.totalPackets = t at hexp
    cases he : (t.storedPacket ⟨p.fileNumber.toNat, hf⟩).isEmpty with
    | true =>
      refine .inl ⟨_, rfl, hexp.bind fun u hu => ?_⟩
      rw [hu, he]
      exact yields_use_bind hf (yields_pure rfl)
    | false =>
      rcases storeT_spec t ⟨p.fileNumber.toNat, hf⟩ p with ⟨u, hu, hyields⟩ | ⟨⟨e, hu⟩, hall⟩
      · rw [hu]
        refine .inl ⟨_, rfl, hexp.bind fun t' ht => ?_⟩
        rw [ht, he]
        refine yields_use_bind hf (hyields.bind fun u' hu' => ?_)
        rw [hu']
        exact saveIfCompleteT_yields u _
      · rw [hu]
        refine .inr ⟨⟨e, rfl⟩, fun h => hall ?_⟩
        rw [hexp.all_bind, he] at h
        exact ((all_bind _ _).mp (lt_of_all_use_bind h).2).1
  · rw [dif_neg hf, dif_neg hf]
    refine .inr ⟨⟨_, rfl⟩, fun h => hf ?_⟩
    exact h _ (List.mem_singleton_self _)

/-- The indices of a packet are inside their arrays exactly when it does not fault. -/
theorem receiveT_all (s : Server) (p : Packet) :
    (s.receiveT p).All Access.Safe ↔ ∃ r, s.receive p = .ok r := by
  rcases receiveT_spec s p with ⟨r, hr, hyields⟩ | ⟨⟨e, he⟩, hall⟩
  · exact iff_of_true hyields.all ⟨r, hr⟩
  · refine iff_of_false hall ?_
    intro ⟨r, hr⟩
    rw [he] at hr
    cases hr

end Receive

/-! ## 3. The acks -/

/-- The loop over `file_saved` goes on to the first file that is not saved. -/
def Server.windowIndices (s : Server) : List Access :=
  ((List.range (numFiles + 1)).filter fun i =>
    s.startFile ≤ i && s.firstUnsaved.all fun k => i ≤ k).map fun i =>
      ⟨.fileSaved, i, 1, numFiles + 1⟩

/-- The ack for a file. -/
def Server.ackIndices (s : Server) (f : Fin numFiles) : List Access :=
  (List.range maxPackets).flatMap fun j =>
    ⟨.storedPacket, f, 1, numFiles⟩ ::
      if (s.storedPacket f).isEmpty then []
      else
        [⟨.storedPacket, f, 1, numFiles⟩, ⟨.slots f, j, 1, (s.storedPacket f).length⟩]

/-- The loop over the window. -/
def Server.requestIndices (s : Server) : List Access :=
  (List.range' s.startFile (s.endFile - s.startFile)).flatMap fun i =>
    ⟨.fileSaved, i, 1, numFiles + 1⟩ ::
      if h : i < numFiles then
        if s.fileSaved (Fin.castSucc ⟨i, h⟩) then [] else s.ackIndices ⟨i, h⟩
      else [⟨.storedPacket, i, 1, numFiles⟩]

/-- Behind the inner loop. -/
def Server.leaveIndices (s : Server) : List Access := s.windowIndices ++ s.leave.requestIndices

/-- The ack for the file stays inside its vector. -/
def Server.AckFits (s : Server) (f : Fin numFiles) : Prop :=
  s.fileSaved f.castSucc = false →
    s.storedPacket f = [] ∨ maxPackets ≤ (s.storedPacket f).length

section Leave

variable {s : Server} {f : Fin numFiles}

theorem ackIndices_safe : (∀ a ∈ s.ackIndices f, a.Safe) ↔
    s.storedPacket f = [] ∨ maxPackets ≤ (s.storedPacket f).length := by
  have hf := f.isLt
  unfold Server.ackIndices
  constructor
  · intro h
    refine or_iff_not_imp_left.mpr fun hne => ?_
    have hempty : (s.storedPacket f).isEmpty = false := by simpa using hne
    have hlast : maxPackets - 1 ∈ List.range maxPackets := by decide
    refine h ⟨.slots f, maxPackets - 1, 1, (s.storedPacket f).length⟩ ?_
    rw [List.mem_flatMap]
    exact ⟨_, hlast, by simp [hempty]⟩
  · intro hfits a ha
    obtain ⟨j, hj, ha⟩ := List.mem_flatMap.mp ha
    have hstored : Access.Safe ⟨.storedPacket, f, 1, numFiles⟩ := hf
    rcases List.mem_cons.mp ha with rfl | ha
    · exact hstored
    · split at ha
      · cases ha
      · rename_i hne
        rcases List.mem_cons.mp ha with rfl | ha
        · exact hstored
        · obtain rfl := List.mem_singleton.mp ha
          have hlen := hfits.resolve_left (by simpa using hne)
          exact (List.mem_range.mp hj).trans_le hlen

/-- Where the indices are inside, an ack says nothing about what lies behind the vector. -/
theorem ack_of_safe (h : ∀ a ∈ s.ackIndices f, a.Safe) (junk junk' : Fin numFiles → Nat → Bool) :
    s.ack junk f = s.ack junk' f := by
  unfold Server.ack
  congr 1
  refine List.map_congr_left fun j hj => ?_
  rcases ackIndices_safe.mp h with hnil | hlen
  · rw [hnil]
    rfl
  · have hlt : j < (s.storedPacket f).length := (List.mem_range.mp hj).trans_le hlen
    simp [List.getD_eq_getElem?_getD, hlt]

/-- **Behind the inner loop**: every file that is partly there must have 48 packets. -/
theorem leaveIndices_safe
    (hw : Window s.leave.fileSaved s.leave.startFile s.leave.endFile s.leave.pc) :
    (∀ a ∈ s.leaveIndices, a.Safe) ↔ ∀ f, s.AckFits f := by
  obtain ⟨hslots, -, -, hsaved⟩ := leave_frame s
  unfold Server.leaveIndices Server.requestIndices
  constructor
  · intro h f hf
    have hle : s.leave.startFile ≤ f :=
      hw.least.2 ⟨Nat.lt_succ_of_lt f.isLt, by rw [hsaved]; exact hf⟩
    have hlt := f.isLt
    rw [← hslots]
    refine ackIndices_safe.mp fun a ha => h a (List.mem_append_right _ ?_)
    refine List.mem_flatMap.mpr ⟨f, ?_, List.mem_cons_of_mem _ ?_⟩
    · rw [List.mem_range'_1, hw.endFile_eq]
      omega
    · rw [dif_pos hlt, if_neg (by rw [hsaved]; exact Bool.eq_false_iff.mp hf)]
      exact ha
  · intro h a ha
    rcases List.mem_append.mp ha with ha | ha
    · obtain ⟨i, hi, rfl⟩ := List.mem_map.mp ha
      exact List.mem_range.mp (List.mem_of_mem_filter hi)
    · obtain ⟨i, hi, ha⟩ := List.mem_flatMap.mp ha
      rw [List.mem_range'_1, hw.endFile_eq] at hi
      have hlt : i < numFiles := by omega
      rcases List.mem_cons.mp ha with rfl | ha
      · exact Nat.lt_succ_of_lt hlt
      · rw [dif_pos hlt] at ha
        split at ha
        · cases ha
        · rename_i hunsaved
          rw [hsaved] at hunsaved
          refine ackIndices_safe.mpr ?_ a ha
          rw [hslots]
          exact h ⟨i, hlt⟩ (Bool.eq_false_of_not_eq_true hunsaved)

end Leave

end InpLabs.Udp
