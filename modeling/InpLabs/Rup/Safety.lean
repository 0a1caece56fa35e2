/-
  File:      InpLabs/Rup/Safety.lean
  Subject:   **The files that the transfer of packed chunks saves** (lab6/others/Sean), whatever
             the network does.

  * `InTime`: no packet that the client has not filled is taken for chunk 0;
  * `Sys.Inv`: the invariant, with chunk 0 as it was sent or blank. `inTime_inv`: as long as every
    step is in time it is as it was sent; `blank_inv`: after one that is not, it stays blank;
  * `savedFile_eq_iff`: which files are saved as they are.
-/
import InpLabs.Rup.Saving

namespace InpLabs.Rup

open InpLabs.Lib

/-! ## 1. The invariant -/

/-- The subscripts that the client uses. -/
def ClientPc.Ready (files : Files) : ClientPc → Prop
  | announce n => n < 20
  | first k => k < files.chunks
  | round k => k < files.chunks
  | ended => True

structure Sys.Inv (files : Files) (blank : Bool) (s : Sys) : Prop where
  server : s.server.Inv files blank
  zero : blank = true → 0 ∈ s.server.completed
  ready : s.client.pc.Ready files
  acked : s.client.completed ⊆ s.server.completed
  toServer : ∀ p ∈ s.toServer, ∃ k, (files.Number k ∨ k = files.chunks) ∧ p = files.rup k
  toClient : ∀ r ∈ s.toClient, r.bits ⊆ s.server.completed

/-- No packet that the client has not filled comes before chunk 0. -/
def InTime (files : Files) (s : Sys) (l : Label) : Prop :=
  l = .packet (files.rup files.chunks) → 0 ∈ s.server.completed

section Inv

variable {files : Files} {blank : Bool} {garbage : Nat} {s s' : Sys} {l : Label}

theorem skip_le {completed : Finset Nat} {k j : Nat} (hle : k ≤ j) (hj : j ∉ completed) :
    skip completed k ≤ j := Nat.find_min' _ ⟨hle, hj⟩

theorem skip_spec (completed : Finset Nat) (k : Nat) :
    k ≤ skip completed k ∧ skip completed k ∉ completed :=
  Nat.find_spec (exists_missing completed k)

theorem start_inv (files : Files) (garbage : Nat) :
    Sys.Inv files false ⟨.start, .new garbage, 0, 0⟩ where
  server := by
    have hno : ∀ {i : Nat} {P : Prop}, i ∈ (∅ : Finset Nat) → P := fun h =>
      absurd h (Finset.notMem_empty _)
    refine ⟨⟨fun i hi => hno hi, ?_, hno, hno, fun i hi => hno hi⟩, fun _ => ⟨rfl, rfl, rfl⟩,
      fun h => hno h.1, fun _ h => hno h.1⟩
    show (le 2 garbage ++ List.replicate (2 * chunkPkt - 2) 0).length = 2 * chunkPkt
    rw [List.length_append, le_length, List.length_replicate]
    rfl
  zero := Bool.noConfusion
  ready := by
    show 0 < 20
    decide
  acked := Finset.empty_subset _
  toServer p hp := absurd hp (Multiset.notMem_zero p)
  toClient r hr := absurd hr (Multiset.notMem_zero r)

/-- A pass of the main loop stays in the array, up to the first packet that is not filled. -/
theorem Sys.Inv.skip (h : s.Inv files blank) {k : Nat} (hk : s.client.pc = .round k) :
    Rup.skip s.client.completed k ≤ files.chunks := by
  have hready := h.ready
  rw [hk] at hready
  have hsmall := files.chunks_bounds
  refine skip_le (Nat.le_of_lt hready) fun hmem => ?_
  rcases h.server.holds.number _ (h.acked hmem) with hlt | heq | heq <;> omega

theorem roundAt_ready (files : Files) (k : Nat) : (roundAt files.chunks k).Ready files := by
  have hsmall := files.chunks_bounds
  unfold roundAt ClientPc.Ready
  dsimp only
  split <;> omega

/-- What a pass sends. -/
theorem Sys.Inv.sends (h : s.Inv files blank) {k : Nat} (hk : s.client.pc = .round k)
    (late : Bool) :
    ∀ p ∈ (if late then {files.rup (Rup.skip s.client.completed k)} else 0) + s.toServer,
      ∃ k, (files.Number k ∨ k = files.chunks) ∧ p = files.rup k := by
  intro p hp
  rcases Multiset.mem_add.mp hp with hp | hp
  · split at hp
    · exact ⟨_, (Nat.lt_or_eq_of_le (h.skip hk)).imp_left .inl, Multiset.mem_singleton.mp hp⟩
    · exact absurd hp (Multiset.notMem_zero p)
  · exact h.toServer p hp

/-- A datagram is read. -/
theorem Sys.Inv.packet (h : s.Inv files blank) (p : Packet) {blank' : Bool}
    (hserver : (s.server.onPacket p).1.Inv files blank')
    (hzero : blank' = true → 0 ∈ (s.server.onPacket p).1.completed) :
    Sys.Inv files blank' { s with
      server := (s.server.onPacket p).1
      toServer := s.toServer.erase p
      toClient := (s.server.onPacket p).2 + s.toClient } where
  server := hserver
  zero := hzero
  ready := h.ready
  acked := h.acked.trans (onPacket_subset _ _)
  toServer q hq := h.toServer q (Multiset.mem_of_mem_erase hq)
  toClient r hr := by
    rcases Multiset.mem_add.mp hr with hr | hr
    · rw [onPacket_sent hr]
    · exact (h.toClient r hr).trans (onPacket_subset _ _)

/-- What the server makes of a datagram. -/
theorem Sys.Inv.onPacket (h : s.Inv files blank)
    (hrun : s.server.running = true) {p : Packet} (hp : p ∈ s.toServer) :
    (InTime files s (.packet p) → (s.server.onPacket p).1.Inv files blank) ∧
      (¬ InTime files s (.packet p) → (s.server.onPacket p).1.Inv files true ∧
        0 ∈ (s.server.onPacket p).1.completed) := by
  obtain ⟨k, hk, hrup⟩ := h.toServer p hp
  by_cases hempty : p = files.rup files.chunks
  · subst hempty
    by_cases h0 : 0 ∈ s.server.completed
    · have hsame : s.server.onPacket (files.rup files.chunks) = (s.server, 0) := by
        rw [rup_empty]
        exact if_pos h0
      rw [hsame]
      exact ⟨fun _ => h.server, fun hlate => absurd (fun _ => h0) hlate⟩
    · refine ⟨fun hin => absurd (hin rfl) h0, fun _ => ⟨h.server.onEmpty hrun h0, ?_⟩⟩
      rw [onPacket_completed, rup_empty]
      exact Finset.mem_insert_self _ _
  · have hin : InTime files s (.packet p) := fun e => absurd (Label.packet.inj e) hempty
    have hnumber : files.Number k := hk.resolve_right fun e => hempty (e ▸ hrup)
    have hinv := h.server.onNumber h.zero hrun hnumber
    rw [← hrup] at hinv
    exact ⟨fun _ => hinv, fun hlate => absurd hin hlate⟩

/-- What the client makes of a status. -/
theorem Sys.Inv.pass (h : s.Inv files blank) {r : Status} (hr : r ∈ s.toClient) (k : Nat)
    (late : Bool) : (s.client.pass files.chunks k late (some r)).pc.Ready files ∧
      (s.client.pass files.chunks k late (some r)).completed ⊆ s.server.completed := by
  unfold Client.pass
  dsimp only
  split
  · exact ⟨trivial, h.acked⟩
  · exact ⟨roundAt_ready files _, Finset.union_subset h.acked (h.toClient r hr)⟩

/-- **One step keeps the invariant**, and a step that is not in time makes chunk 0 blank. -/
theorem Step.inv (h : s.Inv files blank) (hstep : Step files s l s') :
    (InTime files s l → s'.Inv files blank) ∧ (¬ InTime files s l → s'.Inv files true) := by
  have hother : s'.Inv files blank → (∀ p, l ≠ .packet p) →
      (InTime files s l → s'.Inv files blank) ∧ (¬ InTime files s l → s'.Inv files true) :=
    fun hinv hl => ⟨fun _ => hinv, fun hlate => absurd (fun e => absurd e (hl _)) hlate⟩
  cases hstep with
  | @announce n hpc =>
    have hready := h.ready
    rw [hpc] at hready
    have hn : n < 20 := hready
    refine hother { h with ready := ?_, toServer := fun p hp => ?_ } fun p => Label.noConfusion
    · have hsmall := files.chunks_bounds
      show (if n + 1 = 20 then ClientPc.first 0 else .announce (n + 1)).Ready files
      split
      · show 0 < files.chunks
        omega
      · show n + 1 < 20
        omega
    · rcases Multiset.mem_cons.mp hp with rfl | hp
      · exact ⟨_, .inl (.inr (by omega)), rfl⟩
      · exact h.toServer p hp
  | @first k hpc =>
    have hready := h.ready
    rw [hpc] at hready
    have hk : k < files.chunks := hready
    refine hother { h with ready := ?_, toServer := fun p hp => ?_ } fun p => Label.noConfusion
    · show (if k + 1 < files.chunks then ClientPc.first (k + 1) else .round 0).Ready files
      split
      · assumption
      · exact Nat.zero_lt_of_lt hk
    · rcases Multiset.mem_cons.mp hp with rfl | hp
      · exact ⟨k, .inl (.inl hk), rfl⟩
      · exact h.toServer p hp
  | @quiet k late hpc =>
    exact hother { h with ready := roundAt_ready files _, toServer := h.sends hpc late }
      fun p => Label.noConfusion
  | @heard k late r hpc hr =>
    refine hother ?_ fun p => Label.noConfusion
    have hclient := h.pass hr k late
    exact { h with
      ready := hclient.1
      acked := hclient.2
      toServer := h.sends hpc late
      toClient := fun q hq => h.toClient q (Multiset.mem_of_mem_erase hq) }
  | status hrun hc =>
    refine hother { h with toClient := fun r hr => ?_ } fun p => Label.noConfusion
    rcases Multiset.mem_cons.mp hr with rfl | hr
    · exact Finset.Subset.refl _
    · exact h.toClient r hr
  | @packet p hrun hp =>
    obtain ⟨hin, hlate⟩ := h.onPacket hrun hp
    exact ⟨fun htime => h.packet p (hin htime) fun hb => onPacket_subset _ _ (h.zero hb),
      fun htime => h.packet p (hlate htime).1 fun _ => (hlate htime).2⟩
  | toServer hnet =>
    exact hother { h with toServer := fun p hp => h.toServer p (hnet.subset hp) }
      fun p => Label.noConfusion
  | toClient hnet =>
    exact hother { h with toClient := fun r hr => h.toClient r (hnet.subset hr) }
      fun p => Label.noConfusion

theorem Step.keeps (h : ∃ blank, s.Inv files blank)
    (hstep : Step files s l s') : ∃ blank, s'.Inv files blank := by
  obtain ⟨blank, hs⟩ := h
  obtain ⟨hin, hlate⟩ := hstep.inv hs
  by_cases htime : InTime files s l
  · exact ⟨blank, hin htime⟩
  · exact ⟨true, hlate htime⟩

end Inv

/-! ## 2. The files -/

section Files

variable {files : Files} {garbage : Nat} {s s' t : Sys} {l : Label}

/-- Every reachable state has the invariant, with chunk 0 as it is or blank. -/
theorem reachable_inv (h : (transfer files garbage).Reachable s) :
    ∃ blank, s.Inv files blank := by
  refine h.invariant (I := fun s => ∃ blank, s.Inv files blank) (fun s hs => ?_)
    fun s l s' hs hstep => ?_
  · obtain rfl : s = _ := hs
    exact ⟨false, start_inv files garbage⟩
  · have hstep' : Step files s l s' := hstep
    exact hstep'.keeps hs

/-- A run whose steps are all in time. -/
theorem inTime_inv
    (h : ((transfer files garbage).restrict (InTime files)).Reachable s) : s.Inv files false := by
  refine h.invariant (fun s hs => ?_) fun s l s' hs hstep => ?_
  · obtain rfl : s = _ := hs
    exact start_inv files garbage
  · have hstep' : Step files s l s' := hstep.2
    exact (hstep'.inv hs).1 hstep.1

/-- Once chunk 0 is blank, it stays so. -/
theorem blank_inv (h : (transfer files garbage).Leads s t)
    (hs : s.Inv files true) : t.Inv files true := by
  induction h with
  | refl => exact hs
  | @tail u v _ hstep ih =>
    obtain ⟨l, hl⟩ := hstep
    have hl : Step files u l v := hl
    exact (hl.inv ih).1 fun _ => ih.zero rfl

/-- What is saved for a file, at a state with the invariant. -/
theorem Sys.Inv.saved {blank : Bool} (h : s.Inv files blank) {k : Nat} (hk : k < 1000)
    {bytes : Bytes} (hsaved : s.server.saved k = some bytes) :
    bytes = savedFile files blank k := by
  by_cases hknown : s.server.Known
  · obtain ⟨⟨late, htracks⟩, -⟩ := h.server.known hknown
    exact (htracks.saved k bytes hsaved).2 hk
  · rw [(h.server.unknown hknown).2.2] at hsaved
    cases hsaved

/-- A file is not saved as long as a chunk of it is missing. -/
theorem Sys.Inv.not_saved {blank : Bool} (h : s.Inv files blank) {k i : Nat}
    (hi : firstChunk files.size k ≤ i) (hi' : i ≤ lastChunk files.size k)
    (hnew : i ∉ s.server.completed) : s.server.saved k = none := by
  by_cases hknown : s.server.Known
  · obtain ⟨⟨late, htracks⟩, -⟩ := h.server.known hknown
    cases hsaved : s.server.saved k with
    | none => rfl
    | some bytes => exact absurd ((htracks.saved k bytes hsaved).1 i hi hi') hnew
  · rw [(h.server.unknown hknown).2.2]

/-- Everything is saved in the end. -/
theorem Sys.Inv.ended {blank : Bool} (h : s.Inv files blank) (hstop : s.server.running = false)
    (hknown : s.server.Known) {k : Nat} (hk : k < 1000) :
    s.server.saved k = some (savedFile files blank k) := by
  have hsome := h.server.stopped hstop hknown k (Nat.lt_succ_of_lt hk)
  obtain ⟨bytes, hbytes⟩ := Option.ne_none_iff_exists'.mp hsome
  rw [hbytes, h.saved hk hbytes]

/-- **Printable files**: a file is saved as it is when it is read to its end, and has blanks where
    chunk 0 is lost. -/
theorem savedFile_eq_iff (hprint : files.Printable) {k : Nat} (hk : k < 1000) (blank : Bool) :
    savedFile files blank k = files.file k ↔ (files.file k).length < 65536 ∧ (blank = true →
      ∀ i < (files.file k).length, start files.size k + i < chunkBuf →
        (files.file k)[i]? = some 32) := by
  have hget : ∀ i, (savedFile files blank k)[i]? = (kept (files.file k))[i]?.map fun c =>
      if blank && decide (start files.size k + i < chunkBuf) then 32 else c :=
    fun i => savedFile_getElem? hprint hk
  constructor
  · intro heq
    have hlength := congrArg List.length heq
    rw [savedFile, List.length_map, List.length_range, files.size_of_lt hk, kept_length] at hlength
    have hkept : kept (files.file k) = files.file k :=
      List.take_of_length_le (Nat.le_of_eq hlength.symm)
    refine ⟨(kept_eq_iff _).mp hkept, fun hblank i hi hin => ?_⟩
    have hi' := hget i
    rw [heq, hkept, List.getElem?_eq_getElem hi, Option.map_some] at hi'
    rw [List.getElem?_eq_getElem hi, Option.some.inj hi']
    simp [hblank, hin]
  · rintro ⟨hlength, hblanks⟩
    refine List.ext_getElem? fun i => ?_
    rw [hget i, (kept_eq_iff _).mpr hlength]
    cases blank with
    | false => simp
    | true =>
      by_cases hi : i < (files.file k).length ∧ start files.size k + i < chunkBuf
      · rw [hblanks rfl i hi.1 hi.2]
        simp
      · by_cases hlt : i < (files.file k).length
        · have hout : ¬ start files.size k + i < chunkBuf := fun hin => hi ⟨hlt, hin⟩
          simp [hout]
        · rw [List.getElem?_eq_none (Nat.not_lt.mp hlt)]
          rfl

/-- A file as it is read, with blanks where it lies in chunk 0. -/
def blanked (files : Files) (k : Nat) : Bytes :=
  (kept (files.file k)).mapIdx fun i c => if start files.size k + i < chunkBuf then 32 else c

theorem savedFile_true (hprint : files.Printable) {k : Nat} (hk : k < 1000) :
    savedFile files true k = blanked files k := by
  refine List.ext_getElem? fun i => ?_
  rw [savedFile_getElem? hprint hk, blanked, List.getElem?_mapIdx]
  simp

end Files

/-! ## 3. Some letters -/

theorem letters_fit :
    (texts (List.replicate 1000 (List.replicate 10 65))).length + 2 * chunkBuf ≤ bufSize := by
  rw [texts, List.length_flatMap, List.map_replicate, List.sum_replicate]
  decide

/-- A thousand files with ten letters each. -/
def letters : Files where
  contents := List.replicate 1000 (List.replicate 10 65)
  count := List.length_replicate
  fits := letters_fit

theorem letters_printable : letters.Printable := by
  intro c hc
  obtain ⟨content, hcontent, hmem⟩ := List.mem_flatMap.mp hc
  rw [List.eq_of_mem_replicate hcontent] at hmem
  rw [List.eq_of_mem_replicate (List.mem_of_mem_take hmem)]
  decide

theorem letters_chunks : letters.chunks = 7 := by
  rw [Files.chunks, Files.merged_length, Files.texts, letters, texts, List.length_flatMap,
    List.map_replicate, List.sum_replicate]
  decide

theorem letters_file {k : Nat} (hk : k < 1000) : letters.file k = List.replicate 10 65 := by
  rw [Files.file, letters, List.getD_eq_getElem?_getD, List.getElem?_replicate_of_lt hk]
  rfl

theorem letters_start {k : Nat} (hk : k ≤ 1000) : start letters.size k = 10 * k := by
  induction k with
  | zero => rfl
  | succ k ih =>
    rw [start_succ, ih (Nat.le_of_succ_le hk), letters.size_of_lt hk, letters_file hk]
    rfl

end InpLabs.Rup
