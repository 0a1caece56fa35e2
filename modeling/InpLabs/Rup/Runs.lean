/-
  File:      InpLabs/Rup/Runs.lean
  Subject:   **Two runs that every transfer of packed chunks may take**, and what is saved
             (lab6/others/Sean).

  * `announced`: the client has sent everything once;
  * `Sys.Ending.ends`: when all that is missing is on its way, the server may end with it;
  * `blanks`, `loses_chunk`: no datagram is lost, and yet the transfer ends with chunk 0 blank;
  * `saves_iff`: as long as every step is in time, what is saved is what the client has read, and in
    the end all is saved, or nothing; after a step that is not, no file is saved right that lies in
    chunk 0 and is not blank there;
  * `closes`, `strands`: the client ends when six packets are missing, and the server waits on.
-/
import InpLabs.Rup.Safety

namespace InpLabs.Rup

open InpLabs.Lib

/-! ## 1. What the client sends -/

/-- The transfer over a network that only reorders. -/
def ordered (files : Files) (garbage : Nat) : Lts Sys Label :=
  (transfer files garbage).restrict fun _ l => ∀ e, l ≠ .network e

section Client

variable {files : Files} {garbage : Nat} {s s' : Sys} {l : Label}

theorem leads_step (h : Step files s l s') (hl : ∀ e, l ≠ .network e) :
    (ordered files garbage).Leads s s' :=
  Lts.Leads.of_step (M := ordered files garbage) ⟨hl, h⟩

theorem start_reachable (files : Files) (garbage : Nat) :
    (ordered files garbage).Reachable ⟨.start, .new garbage, 0, 0⟩ := ⟨[], .start rfl⟩

/-- **The client sends everything once.** -/
theorem announced (files : Files) (garbage : Nat) : ∃ c,
    (ordered files garbage).Leads ⟨.start, .new garbage, 0, 0⟩
      ⟨⟨.round 0, ∅⟩, .new garbage, c, 0⟩ ∧ ∀ i, files.Number i → files.rup i ∈ c := by
  have hsmall := files.chunks_bounds
  have hmeta : ∀ n < 20, ∃ c, (ordered files garbage).Leads ⟨.start, .new garbage, 0, 0⟩
      ⟨⟨.announce n, ∅⟩, .new garbage, c, 0⟩ ∧ ∀ m < n, files.rup (10001 + m / 10) ∈ c := by
    intro n hn
    induction n with
    | zero => exact ⟨0, .refl, fun m hm => absurd hm (Nat.not_lt_zero m)⟩
    | succ n ih =>
      obtain ⟨c, hleads, hc⟩ := ih (Nat.lt_of_succ_lt hn)
      have hstep : Step files ⟨⟨.announce n, ∅⟩, .new garbage, c, 0⟩ .announce _ := .announce rfl
      rw [if_neg (by omega)] at hstep
      refine ⟨_, hleads.trans (leads_step hstep fun e => Label.noConfusion), fun m hm => ?_⟩
      rcases Nat.lt_succ_iff_lt_or_eq.mp hm with hlt | rfl
      · exact Multiset.mem_cons_of_mem (hc m hlt)
      · exact Multiset.mem_cons_self _ _
  have hfirst : ∀ k < files.chunks, ∃ c,
      (ordered files garbage).Leads ⟨.start, .new garbage, 0, 0⟩
        ⟨⟨.first k, ∅⟩, .new garbage, c, 0⟩ ∧ files.rup 10001 ∈ c ∧ files.rup 10002 ∈ c ∧
          ∀ i < k, files.rup i ∈ c := by
    intro k hk
    induction k with
    | zero =>
      obtain ⟨c, hleads, hc⟩ := hmeta 19 (by decide)
      have hstep : Step files ⟨⟨.announce 19, ∅⟩, .new garbage, c, 0⟩ .announce _ := .announce rfl
      refine ⟨_, hleads.trans (leads_step hstep fun e => Label.noConfusion), ?_, ?_, ?_⟩
      · exact Multiset.mem_cons_of_mem (hc 0 (by decide))
      · exact Multiset.mem_cons_self _ _
      · exact fun i hi => absurd hi (Nat.not_lt_zero i)
    | succ k ih =>
      obtain ⟨c, hleads, h1, h2, hc⟩ := ih (Nat.lt_of_succ_lt hk)
      have hstep : Step files ⟨⟨.first k, ∅⟩, .new garbage, c, 0⟩ .first _ := .first rfl
      rw [if_pos hk] at hstep
      refine ⟨_, hleads.trans (leads_step hstep fun e => Label.noConfusion),
        Multiset.mem_cons_of_mem h1, Multiset.mem_cons_of_mem h2, fun i hi => ?_⟩
      rcases Nat.lt_succ_iff_lt_or_eq.mp hi with hlt | rfl
      · exact Multiset.mem_cons_of_mem (hc i hlt)
      · exact Multiset.mem_cons_self _ _
  obtain ⟨k, hk⟩ := Nat.exists_eq_add_of_le' (show 1 ≤ files.chunks by omega)
  obtain ⟨c, hleads, h1, h2, hc⟩ := hfirst k (by omega)
  have hstep : Step files ⟨⟨.first k, ∅⟩, .new garbage, c, 0⟩ .first _ := .first rfl
  rw [if_neg (by omega)] at hstep
  refine ⟨_, hleads.trans (leads_step hstep fun e => Label.noConfusion), ?_⟩
  intro i hi
  rcases hi with hi | rfl | rfl
  · rcases Nat.lt_or_eq_of_le (show i ≤ k by omega) with hlt | rfl
    · exact Multiset.mem_cons_of_mem (hc i hlt)
    · exact Multiset.mem_cons_self _ _
  · exact Multiset.mem_cons_of_mem h1
  · exact Multiset.mem_cons_of_mem h2

end Client

/-! ## 2. What the server takes -/

section Server

variable {files : Files} {blank : Bool} {s : Server} {p : Packet}

theorem Server.Holds.rumChunks (h : s.Holds files blank) (h1 : 10001 ∈ s.completed) :
    rumChunks s.rum = files.chunks := by
  have htake : ∀ rum : Bytes, (rum.take chunkPkt).take 2 = rum.take 2 := fun rum =>
    List.take_take
  rw [← files.rumChunks_rumBytes, Rup.rumChunks, Rup.rumChunks, ← htake s.rum, h.first h1, htake]

/-- **A chunk, when the number of chunks is known**: the server closes the client when six packets
    are missing, and ends when none is. -/
theorem onPacket_chunk (h : s.Holds files blank) (h1 : 10001 ∈ s.completed)
    (hi : p.index < files.chunks) (hnew : p.index ∉ s.completed) :
    (s.onPacket p).1.index =
        (if (insert p.index s.completed).card + 4 = files.chunks then -42 else s.index) ∧
      (s.onPacket p).1.running =
        if (insert p.index s.completed).card = files.chunks + 2 then false else s.running := by
  have hsmall := files.chunks_bounds
  obtain ⟨-, -, hrunning, hindex⟩ :=
    onChunk_frame { s with completed := insert p.index s.completed } p
  unfold Server.onPacket
  rw [if_neg hnew]
  dsimp only
  rw [if_neg (by omega), h.rumChunks h1]
  generalize Server.onChunk _ _ = t at hrunning hindex ⊢
  have hrunning : t.running = s.running := hrunning
  have hindex : t.index = s.index := hindex
  generalize hcard : (insert p.index s.completed).card = n
  by_cases hclose : n + 4 = files.chunks
  · have hsix : (files.chunks + 2 - n : Int) = 6 := by omega
    have hmore : n ≠ files.chunks + 2 := by omega
    rw [if_pos hsix, if_pos hclose, if_neg hmore]
    exact ⟨rfl, hrunning⟩
  · have hsix : (files.chunks + 2 - n : Int) ≠ 6 := by omega
    rw [if_neg hsix, if_neg hclose]
    by_cases hall : n = files.chunks + 2
    · have hzero : (files.chunks + 2 - n : Int) = 0 := by omega
      obtain ⟨saved, hframe⟩ := finish_frame t
      rw [if_pos hzero, if_pos hall]
      dsimp only
      rw [hframe]
      exact ⟨hindex, rfl⟩
    · have hzero : (files.chunks + 2 - n : Int) ≠ 0 := by omega
      rw [if_neg hzero, if_neg hall]
      exact ⟨hindex, hrunning⟩

/-- Then all have arrived. -/
theorem Server.Holds.card (h : s.Holds files blank) (hknown : s.Known)
    (hall : ∀ i < files.chunks, i ∈ s.completed) : s.completed.card = files.chunks + 2 := by
  rw [← card_numbers]
  refine congrArg Finset.card (Finset.ext fun i => ?_)
  rw [mem_numbers]
  refine ⟨h.number i, ?_⟩
  intro hi
  rcases hi with hi | rfl | rfl
  · exact hall i hi
  · exact hknown.1
  · exact hknown.2

/-- A packet of the metadata. -/
theorem onPacket_metadata (hi : p.index = 10001 ∨ p.index = 10002) (hnew : p.index ∉ s.completed) :
    (s.onPacket p).1.index = s.index ∧ (s.onPacket p).1.running = s.running := by
  have hframe : ∀ (s : Server) (p : Packet), (s.onMetadata p).index = s.index ∧
      (s.onMetadata p).running = s.running := by
    intro s p
    unfold Server.onMetadata
    dsimp only
    split
    · exact ⟨rfl, rfl⟩
    · exact ⟨rfl, rfl⟩
  unfold Server.onPacket
  rw [if_neg hnew]
  dsimp only
  rw [if_pos (by omega)]
  exact hframe _ _

end Server

/-! ## 3. The end of a transfer -/

/-- For every packet that has not arrived, one with its number is on its way. -/
def Sys.Pending (files : Files) (s : Sys) : Prop :=
  ∀ i, files.Number i → i ∉ s.server.completed → ∃ p ∈ s.toServer, p.index = i

section Ends

variable {files : Files} {s : Sys} {p : Packet} {i : Nat}

theorem rup_index (hi : files.Number i) : (files.rup i).index = i := by
  rcases hi with hi | hi
  · exact congrArg Packet.index (if_pos hi)
  · exact rup_metadata hi

theorem Sys.Inv.number {blank : Bool} (h : s.Inv files blank) (hp : p ∈ s.toServer) :
    files.Number p.index := by
  have hsmall := files.chunks_bounds
  obtain ⟨k, hk | rfl, rfl⟩ := h.toServer p hp
  · rwa [rup_index hk]
  · rw [rup_empty]
    exact .inl (show 0 < files.chunks by omega)

/-- **One of them arrives.** -/
theorem Sys.Pending.take (hpending : s.Pending files) (hrun : s.server.running = true)
    (hp : p ∈ s.toServer) : ∃ t, Step files s (.packet p) t ∧ t.Pending files ∧
      t.client = s.client ∧ t.server = (s.server.onPacket p).1 := by
  refine ⟨_, .packet hrun hp, fun j hj hnew => ?_, rfl, rfl⟩
  have hnew : j ∉ (s.server.onPacket p).1.completed := hnew
  rw [onPacket_completed, Finset.mem_insert, not_or] at hnew
  obtain ⟨q, hq, rfl⟩ := hpending j hj hnew.2
  have hne : q ≠ p := fun heq => hnew.1 (congrArg Packet.index heq)
  exact ⟨q, (Multiset.mem_erase_of_ne hne).mpr hq, rfl⟩

/-- Everything is there or on its way, and the last will be a chunk. -/
structure Sys.Ending (files : Files) (s : Sys) : Prop where
  pending : s.Pending files
  chunk : s.server.running = true → ∃ i < files.chunks, i ∉ s.server.completed
  known : s.server.running = false → s.server.Known

/-- **One more arrives**: a chunk only when both packets of the metadata are there. -/
theorem Sys.Ending.closer (hs : s.Ending files)
    (h : ∃ blank, s.Inv files blank) (hrun : s.server.running = true) :
    ∃ p t, Step files s (.packet p) t ∧ t.Ending files ∧
      (files.numbers \ t.server.completed).card < (files.numbers \ s.server.completed).card := by
  have hsmall := files.chunks_bounds
  obtain ⟨k, hk, hknew⟩ := hs.chunk hrun
  obtain ⟨i, hi, hnew, hchoice⟩ : ∃ i, files.Number i ∧ i ∉ s.server.completed ∧
      ((i = 10001 ∨ i = 10002) ∨ s.server.Known ∧ i < files.chunks) := by
    by_cases h1 : 10001 ∈ s.server.completed
    · by_cases h2 : 10002 ∈ s.server.completed
      · exact ⟨k, .inl hk, hknew, .inr ⟨⟨h1, h2⟩, hk⟩⟩
      · exact ⟨10002, .inr (.inr rfl), h2, .inl (.inr rfl)⟩
    · exact ⟨10001, .inr (.inl rfl), h1, .inl (.inl rfl)⟩
  obtain ⟨p, hp, rfl⟩ := hs.pending i hi hnew
  obtain ⟨t, htake, hpending, -, hserver⟩ := hs.pending.take hrun hp
  have hinsert : t.server.completed = insert p.index s.server.completed :=
    hserver ▸ onPacket_completed _ _
  refine ⟨p, t, htake, ?_, ?_⟩
  · rcases hchoice with hmeta | ⟨hknown, hchunk⟩
    · have hrunning := (onPacket_metadata hmeta hnew).2
      rw [← hserver, hrun] at hrunning
      refine ⟨hpending, fun _ => ⟨k, hk, ?_⟩,
        fun hstop => Bool.noConfusion (hstop.symm.trans hrunning)⟩
      rw [hinsert, Finset.mem_insert, not_or]
      exact ⟨by omega, hknew⟩
    · obtain ⟨blank', ht⟩ := htake.keeps h
      obtain ⟨blank, h⟩ := h
      have hrunning := (onPacket_chunk h.server.holds hknown.1 hchunk hnew).2
      rw [← hserver, ← hinsert] at hrunning
      have hknown' : t.server.Known :=
        ⟨hinsert ▸ Finset.mem_insert_of_mem hknown.1, hinsert ▸ Finset.mem_insert_of_mem hknown.2⟩
      refine ⟨hpending, fun hrun' => ?_, fun _ => hknown'⟩
      by_contra hall
      have hall : ∀ i < files.chunks, i ∈ t.server.completed := by simpa using hall
      rw [if_pos (ht.server.holds.card hknown' hall)] at hrunning
      exact Bool.noConfusion (hrunning.symm.trans hrun')
  · rw [hinsert]
    refine Finset.card_lt_card ((Finset.ssubset_iff_of_subset ?_).mpr ⟨p.index, ?_, ?_⟩)
    · exact Finset.sdiff_subset_sdiff (Finset.Subset.refl _) (Finset.subset_insert _ _)
    · exact Finset.mem_sdiff.mpr ⟨mem_numbers.mpr hi, hnew⟩
    · exact fun hmem => (Finset.mem_sdiff.mp hmem).2 (Finset.mem_insert_self _ _)

/-- **What is on its way may arrive**, and the server ends with all. -/
theorem Sys.Ending.ends (hs : s.Ending files) (garbage : Nat)
    (h : ∃ blank, s.Inv files blank) : ∃ t, (ordered files garbage).Leads s t ∧
      (∃ blank, t.Inv files blank) ∧ t.server.Known ∧ t.server.running = false := by
  have hstep : ∀ s : Sys, (∃ blank, s.Inv files blank) ∧ s.Ending files →
      ¬ s.server.running = false → ∃ t, (ordered files garbage).Leads s t ∧
        ((∃ blank, t.Inv files blank) ∧ t.Ending files) ∧
        (files.numbers \ t.server.completed).card < (files.numbers \ s.server.completed).card := by
    intro s hs hrun
    obtain ⟨p, t, htake, ht, hless⟩ := hs.2.closer hs.1 (Bool.not_eq_false _ ▸ hrun)
    exact ⟨t, leads_step htake fun e => Label.noConfusion, ⟨htake.keeps hs.1, ht⟩, hless⟩
  obtain ⟨t, hleads, ⟨hinv, ht⟩, hstop⟩ := Lts.leads_of_measure _ hstep ⟨h, hs⟩
  exact ⟨t, hleads, hinv, ht.known hstop, hstop⟩

end Ends

/-! ## 4. A transfer that loses chunk 0 -/

section Loses

variable {files : Files} {garbage : Nat} {s : Sys}

/-- The client has sent everything once and heard nothing, and these packets have arrived. -/
structure Stage (files : Files) (garbage : Nat) (completed : Finset Nat) (s : Sys) : Prop where
  leads : (ordered files garbage).Leads ⟨.start, .new garbage, 0, 0⟩ s
  inv : ∃ blank, s.Inv files blank
  pending : s.Pending files
  client : s.client = ⟨.round 0, ∅⟩
  completed : s.server.completed = completed
  index : s.server.index = 0
  running : s.server.running = true

theorem leads_inv
    (h : (ordered files garbage).Leads ⟨.start, .new garbage, 0, 0⟩ s) :
    ∃ blank, s.Inv files blank :=
  reachable_inv (h.reachable (start_reachable files garbage)).of_restrict

theorem stage_start (files : Files) (garbage : Nat) :
    ∃ s, Stage files garbage ∅ s := by
  obtain ⟨c, hleads, hc⟩ := announced files garbage
  exact ⟨_, hleads, leads_inv hleads, fun i hi _ => ⟨_, hc i hi, rup_index hi⟩,
    rfl, rfl, rfl, rfl⟩

variable {completed : Finset Nat} {i : Nat}

/-- One more arrives, and the server goes on. -/
theorem Stage.next (h : Stage files garbage completed s)
    (hi : files.Number i) (hnew : i ∉ completed)
    (hsame : ∀ p : Packet, p.index = i → (s.server.onPacket p).1.index = s.server.index ∧
      (s.server.onPacket p).1.running = s.server.running) :
    ∃ t, Stage files garbage (insert i completed) t := by
  obtain ⟨p, hp, hpi⟩ := h.pending i hi (by rwa [h.completed])
  obtain ⟨t, htake, hpending, hclient, hserver⟩ := h.pending.take h.running hp
  obtain ⟨hindex, hrunning⟩ := hsame p hpi
  refine ⟨t, h.leads.trans (leads_step htake fun e => Label.noConfusion),
    htake.keeps h.inv, hpending, hclient.trans h.client, ?_, ?_, ?_⟩
  · rw [hserver, onPacket_completed, hpi, h.completed]
  · rw [hserver, hindex, h.index]
  · rw [hserver, hrunning, h.running]

theorem Stage.metadata (h : Stage files garbage completed s)
    (hi : i = 10001 ∨ i = 10002) (hnew : i ∉ completed) :
    ∃ t, Stage files garbage (insert i completed) t := by
  refine h.next (.inr hi) hnew fun p hp => ?_
  subst hp
  exact onPacket_metadata hi (by rwa [h.completed])

theorem Stage.chunk (h : Stage files garbage completed s)
    (h1 : 10001 ∈ completed) (hi : i < files.chunks) (hnew : i ∉ completed)
    (hclose : (insert i completed).card + 4 ≠ files.chunks)
    (hend : (insert i completed).card ≠ files.chunks + 2) :
    ∃ t, Stage files garbage (insert i completed) t := by
  refine h.next (.inl hi) hnew fun p hp => ?_
  subst hp
  obtain ⟨blank, hinv⟩ := h.inv
  rw [← h.completed] at h1 hnew hclose hend
  obtain ⟨hindex, hrunning⟩ := onPacket_chunk hinv.server.holds h1 hi hnew
  exact ⟨hindex.trans (if_neg hclose), hrunning.trans (if_neg hend)⟩

/-- The last chunk and the metadata arrive, in an order in which the server does not close. -/
theorem last_arrives (files : Files) (garbage : Nat) :
    ∃ s, Stage files garbage {10001, 10002, files.chunks - 1} s := by
  have hsmall := files.chunks_bounds
  obtain ⟨k, hk⟩ := Nat.exists_eq_add_of_le' (show 2 ≤ files.chunks by omega)
  have hlast : files.chunks - 1 = k + 1 := by omega
  have hfar : k + 1 ≠ 10001 ∧ k + 1 ≠ 10002 := by omega
  rw [hlast]
  obtain ⟨s₀, h₀⟩ := stage_start files garbage
  obtain ⟨s₁, h₁⟩ := h₀.metadata (.inl rfl) (Finset.notMem_empty _)
  by_cases hseven : files.chunks = 7
  · have hcard : (insert (k + 1) (insert 10001 ∅) : Finset Nat).card = 2 :=
      Finset.card_pair hfar.1
    obtain ⟨s₂, h₂⟩ := h₁.chunk (i := k + 1) (by simp) (by omega) (by simp [hfar])
      (by omega) (by omega)
    obtain ⟨s₃, h₃⟩ := h₂.metadata (.inr rfl) (by simp [hfar.2.symm])
    have hset : (insert 10002 (insert (k + 1) (insert 10001 ∅)) : Finset Nat) =
        {10001, 10002, k + 1} := by grind
    exact ⟨s₃, hset ▸ h₃⟩
  · obtain ⟨s₂, h₂⟩ := h₁.metadata (.inr rfl) (by simp)
    have hcard : (insert (k + 1) (insert 10002 (insert 10001 ∅)) : Finset Nat).card = 3 :=
      Finset.card_eq_three.mpr ⟨k + 1, 10002, 10001, hfar.2, hfar.1, by decide, rfl⟩
    obtain ⟨s₃, h₃⟩ := h₂.chunk (i := k + 1) (by simp) (by omega) (by simp [hfar])
      (by omega) (by omega)
    have hset : (insert (k + 1) (insert 10002 (insert 10001 ∅)) : Finset Nat) =
        {10001, 10002, k + 1} := by grind
    exact ⟨s₃, hset ▸ h₃⟩

theorem skip_eq {completed : Finset Nat} {k : Nat} (h : k ∉ completed) : skip completed k = k :=
  Nat.le_antisymm (skip_le (Nat.le_refl k) h) (skip_spec completed k).1

/-- The client goes round, until it stands before the last chunk. -/
theorem rounds (garbage : Nat) {completed : Finset Nat} (server : Server) (c : Multiset Packet)
    (d : Multiset Status) (hnew : ∀ k < files.chunks - 1, k ∉ completed) :
    ∀ k ≤ files.chunks - 1, ∃ c', (ordered files garbage).Leads
      ⟨⟨.round 0, completed⟩, server, c, d⟩ ⟨⟨.round k, completed⟩, server, c', d⟩ ∧
        ∀ p ∈ c, p ∈ c' := by
  intro k hk
  induction k with
  | zero => exact ⟨c, .refl, fun p hp => hp⟩
  | succ k ih =>
    obtain ⟨c', hleads, hc⟩ := ih (Nat.le_of_succ_le hk)
    have hskip := skip_eq (hnew k hk)
    have hstep : Step files ⟨⟨.round k, completed⟩, server, c', d⟩ (.round true none) _ :=
      .quiet rfl
    have hpass : Client.pass ⟨.round k, completed⟩ files.chunks k true none =
        ⟨.round (k + 1), completed⟩ := by
      unfold Client.pass
      dsimp only
      rw [hskip, if_pos rfl, roundAt, if_pos (by omega)]
    dsimp only at hstep
    rw [hpass] at hstep
    exact ⟨_, hleads.trans (leads_step hstep fun e => Label.noConfusion),
      fun p hp => Multiset.mem_add.mpr (.inr (hc p hp))⟩

/-- The server reports, and the client reads it. -/
theorem hears (files : Files) (garbage : Nat) {server : Server} (c : Multiset Packet)
    (d : Multiset Status) (hrun : server.running = true) (hc : server.completed ≠ ∅) :
    (ordered files garbage).Leads ⟨⟨.round 0, ∅⟩, server, c, d⟩
      ⟨Client.pass ⟨.round 0, ∅⟩ files.chunks 0 false (some server.status), server, c, d⟩ := by
  have hstatus : Step files ⟨⟨.round 0, ∅⟩, server, c, d⟩ .status _ := .status hrun hc
  have hheard : Step files ⟨⟨.round 0, ∅⟩, server, c, server.status ::ₘ d⟩
      (.round false (some server.status)) _ := .heard rfl (Multiset.mem_cons_self _ _)
  dsimp only at hheard
  rw [if_neg Bool.false_ne_true, zero_add, Multiset.erase_cons_head] at hheard
  exact (leads_step hstatus fun e => Label.noConfusion).trans
    (leads_step hheard fun e => Label.noConfusion)

/-- **A packet that the client has not filled is sent**, and nothing of chunk 0 has arrived. -/
theorem sends_empty
    (h : Stage files garbage {10001, 10002, files.chunks - 1} s) :
    ∃ t, (ordered files garbage).Leads s t ∧ (∃ blank, t.Inv files blank) ∧ t.Pending files ∧
      t.server = s.server ∧ files.rup files.chunks ∈ t.toServer := by
  have hsmall := files.chunks_bounds
  obtain ⟨client, server, c, d⟩ := s
  obtain rfl : client = ⟨.round 0, ∅⟩ := h.client
  have hcompleted : server.completed = {10001, 10002, files.chunks - 1} := h.completed
  have hhears := hears files garbage c d h.running
    (by rw [hcompleted]; exact Finset.insert_ne_empty _ _)
  have hpass : Client.pass ⟨.round 0, ∅⟩ files.chunks 0 false (some server.status) =
      ⟨.round 0, {10001, 10002, files.chunks - 1}⟩ := by
    have hindex : server.index ≠ -42 := by
      rw [show server.index = 0 from h.index]
      decide
    unfold Client.pass Server.status
    dsimp only
    rw [if_neg hindex, skip_eq (Finset.notMem_empty 0), hcompleted, Finset.empty_union, roundAt,
      if_neg Bool.false_ne_true, if_pos (by omega)]
  rw [hpass] at hhears
  have hnew : ∀ k < files.chunks - 1,
      k ∉ ({10001, 10002, files.chunks - 1} : Finset Nat) := by
    intro k hk
    simp only [Finset.mem_insert, Finset.mem_singleton]
    omega
  obtain ⟨c', hrounds, hc⟩ := rounds garbage server c d hnew (files.chunks - 1) (Nat.le_refl _)
  have hskip : skip {10001, 10002, files.chunks - 1} (files.chunks - 1) = files.chunks := by
    obtain ⟨hle, hout⟩ := skip_spec {10001, 10002, files.chunks - 1} (files.chunks - 1)
    have hupper : skip {10001, 10002, files.chunks - 1} (files.chunks - 1) ≤ files.chunks := by
      refine skip_le (Nat.sub_le _ _) ?_
      simp only [Finset.mem_insert, Finset.mem_singleton]
      omega
    have hne : skip {10001, 10002, files.chunks - 1} (files.chunks - 1) ≠ files.chunks - 1 := by
      intro heq
      rw [heq] at hout
      exact hout (by simp)
    omega
  have hsend : Step files ⟨⟨.round (files.chunks - 1), {10001, 10002, files.chunks - 1}⟩, server,
      c', d⟩ (.round true none) _ := .quiet rfl
  dsimp only at hsend
  rw [hskip, if_pos rfl] at hsend
  have hleads := (hhears.trans hrounds).trans (leads_step hsend fun e => Label.noConfusion)
  refine ⟨_, hleads, leads_inv (h.leads.trans hleads), fun i hi hmissing => ?_, rfl, ?_⟩
  · obtain ⟨p, hp, hpi⟩ := h.pending i hi hmissing
    exact ⟨p, Multiset.mem_add.mpr (.inr (hc p hp)), hpi⟩
  · exact Multiset.mem_add.mpr (.inl (Multiset.mem_singleton_self _))

/-- **Every transfer may lose chunk 0**: the packet that is not filled comes before it, and the
    server ends with all files. -/
theorem blanks (files : Files) (garbage : Nat) : ∃ s l t u,
    (ordered files garbage).Reachable s ∧ Step files s l t ∧ (∀ e, l ≠ .network e) ∧
      ¬ InTime files s l ∧ (ordered files garbage).Leads t u ∧ u.server.running = false ∧
        ∀ k < 1000, u.server.saved k = some (savedFile files true k) := by
  have hsmall := files.chunks_bounds
  obtain ⟨s₁, h₁⟩ := last_arrives files garbage
  obtain ⟨s₂, hleads₂, hinv₂, hpending₂, hserver, hmem⟩ := sends_empty h₁
  have hcompleted : s₂.server.completed = {10001, 10002, files.chunks - 1} := by
    rw [hserver, h₁.completed]
  have hrun : s₂.server.running = true := by rw [hserver, h₁.running]
  have h0 : 0 ∉ s₂.server.completed := by
    rw [hcompleted]
    simp only [Finset.mem_insert, Finset.mem_singleton]
    omega
  have hknown : s₂.server.Known := by simp [Server.Known, hcompleted]
  -- chunk 0 is blank from here on
  obtain ⟨t, htake, hpending, -, ht⟩ := hpending₂.take hrun hmem
  obtain ⟨blank, hinv⟩ := hinv₂
  have hlate : ¬ InTime files s₂ (.packet (files.rup files.chunks)) := fun hin => h0 (hin rfl)
  have hblank := (htake.inv hinv).2 hlate
  have hzero : (files.rup files.chunks).index = 0 := by rw [rup_empty]
  have hinsert : t.server.completed = {0, 10001, 10002, files.chunks - 1} := by
    rw [ht, onPacket_completed, hzero, hcompleted]
  have hfour : ({0, 10001, 10002, files.chunks - 1} : Finset Nat).card = 4 := by
    rw [Finset.card_insert_of_notMem (by simp; omega)]
    exact congrArg Nat.succ (Finset.card_eq_three.mpr
      ⟨10001, 10002, files.chunks - 1, by decide, by omega, by omega, rfl⟩)
  -- with two chunks the server has ended
  have hmissing : t.server.running = true → ∃ i < files.chunks, i ∉ t.server.completed := by
    intro hrun'
    have hrunning := (onPacket_chunk hinv.server.holds hknown.1
      (show (files.rup files.chunks).index < files.chunks by omega) (by rwa [hzero])).2
    rw [hzero, hcompleted, hfour, ← ht, hrun'] at hrunning
    have hmore : 4 ≠ files.chunks + 2 := fun heq => by simp [heq] at hrunning
    refine ⟨1, by omega, ?_⟩
    rw [hinsert]
    simp only [Finset.mem_insert, Finset.mem_singleton]
    omega
  have hknown' : t.server.Known := by simp [Server.Known, hinsert]
  obtain ⟨u, hleads, -, hknown'', hstop⟩ :=
    Sys.Ending.ends ⟨hpending, hmissing, fun _ => hknown'⟩ garbage ⟨true, hblank⟩
  have hinv' := blank_inv hleads.of_restrict hblank
  exact ⟨s₂, _, t, u, (h₁.leads.trans hleads₂).reachable (start_reachable files garbage), htake,
    fun e => Label.noConfusion, hlate, hleads, hstop,
    fun k hk => hinv'.ended hstop hknown'' hk⟩

/-- **A network that loses nothing may lose chunk 0**: of printable files all are saved, with blanks
    in place of the first 1785 characters. -/
theorem loses_chunk (files : Files) (garbage : Nat) (hprint : files.Printable) :
    ∃ s, (ordered files garbage).Reachable s ∧ s.server.running = false ∧
      ∀ k < 1000, s.server.saved k = some (blanked files k) := by
  obtain ⟨s, l, t, u, hs, hstep, hl, -, hleads, hstop, hsaved⟩ := blanks files garbage
  refine ⟨u, ((leads_step hstep hl).trans hleads).reachable hs, hstop, fun k hk => ?_⟩
  rw [hsaved k hk, savedFile_true hprint hk]

theorem loses_chunk_letters : ∃ s, (ordered letters 0).Reachable s ∧
    s.server.saved 0 = some (List.replicate 10 32) ∧
      s.server.saved 999 = some (List.replicate 10 65) := by
  obtain ⟨s, hs, -, hsaved⟩ := loses_chunk letters 0 letters_printable
  refine ⟨s, hs, (hsaved 0 (by decide)).trans (congrArg some ?_),
    (hsaved 999 (by decide)).trans (congrArg some ?_)⟩
  · rw [blanked, letters_file (by decide), letters_start (by decide)]
    decide
  · rw [blanked, letters_file (by decide), letters_start (by decide)]
    decide

/-- **What is saved is right exactly when chunk 0 is in time**, of printable files that are read to
    their ends. In every run in which no packet that the client has not filled comes before chunk 0,
    what is saved is what the client has read of the file, which is the file exactly when it is
    shorter than 65536 bytes. When the server has ended, all are saved, or none: none if it has
    ended before it knew the metadata, as what `new` finds in memory can make it. After a step that
    is not in time, whatever happens, a saved file is that of the client only if it is blank where
    it lies in chunk 0. -/
theorem saves_iff (files : Files) (garbage : Nat) (hprint : files.Printable) :
    (∀ s, ((transfer files garbage).restrict (InTime files)).Reachable s →
      (∀ k < 1000, ∀ bytes, s.server.saved k = some bytes →
        bytes = kept (files.file k) ∧
          (bytes = files.file k ↔ (files.file k).length < 65536)) ∧
      (s.server.running = false →
        (s.server.Known → ∀ k < 1000, s.server.saved k ≠ none) ∧
        (¬ s.server.Known → ∀ k, s.server.saved k = none))) ∧
    ∀ s l s', (transfer files garbage).Reachable s → Step files s l s' → ¬ InTime files s l →
      ∀ t, (transfer files garbage).Leads s' t →
        ∀ k < 1000, ∀ bytes, t.server.saved k = some bytes → (bytes = files.file k ↔
          (files.file k).length < 65536 ∧ ∀ i < (files.file k).length,
            start files.size k + i < chunkBuf → (files.file k)[i]? = some 32) := by
  constructor
  · intro s hs
    have hinv := inTime_inv hs
    refine ⟨fun k hk bytes hsaved => ?_, fun hstop => ⟨fun hknown k hk => ?_, fun hno k => ?_⟩⟩
    · rw [hinv.saved hk hsaved, savedFile_false hprint hk]
      exact ⟨rfl, kept_eq_iff _⟩
    · rw [hinv.ended hstop hknown hk]
      exact Option.some_ne_none _
    · rw [(hinv.server.unknown hno).2.2]
  · intro s l s' hs hstep hlate t ht k hk bytes hsaved
    obtain ⟨blank, hinv⟩ := reachable_inv hs
    have hblank := blank_inv ht ((hstep.inv hinv).2 hlate)
    rw [hblank.saved hk hsaved, savedFile_eq_iff hprint hk, forall_prop_of_true rfl]

theorem saves_iff_letters : ∃ s, (transfer letters 0).Reachable s ∧ s.server.running = false ∧
    (∀ bytes, s.server.saved 0 = some bytes → bytes ≠ letters.file 0) ∧
      ∀ bytes, s.server.saved 999 = some bytes → bytes = letters.file 999 := by
  obtain ⟨s, l, t, u, hs, hstep, hl, hlate, hleads, hstop, -⟩ := blanks letters 0
  have hs' := hs.of_restrict
  have hall := (saves_iff letters 0 letters_printable).2 s l t hs' hstep hlate u hleads.of_restrict
  refine ⟨u, (((leads_step hstep hl).trans hleads).reachable hs).of_restrict, hstop,
    fun bytes hb heq => ?_, fun bytes hb => ?_⟩
  · obtain ⟨-, hblank⟩ := (hall 0 (by decide) bytes hb).mp heq
    rw [letters_file (by decide), letters_start (by decide)] at hblank
    exact absurd (hblank 0 (by decide) (by decide)) (by decide)
  · refine (hall 999 (by decide) bytes hb).mpr ?_
    rw [letters_file (by decide), letters_start (by decide)]
    exact ⟨by decide, fun i _ hin => absurd hin (by unfold chunkBuf chunkPkt mtu; omega)⟩

end Loses

/-! ## 5. A transfer that is given up -/

section Strands

variable {files : Files} {garbage : Nat} {s s' t : Sys} {l : Label}

/-- The metadata and the first chunks arrive, up to the last seven. -/
theorem most_arrive (files : Files) (garbage : Nat) :
    ∀ k ≤ files.chunks - 7, ∃ s, Stage files garbage (Finset.range k ∪ {10001, 10002}) s := by
  have hsmall := files.chunks_bounds
  intro k hk
  induction k with
  | zero =>
    obtain ⟨s₀, h₀⟩ := stage_start files garbage
    obtain ⟨s₁, h₁⟩ := h₀.metadata (.inr rfl) (Finset.notMem_empty _)
    obtain ⟨s₂, h₂⟩ := h₁.metadata (.inl rfl) (by simp)
    exact ⟨s₂, h₂⟩
  | succ k ih =>
    obtain ⟨s, h⟩ := ih (Nat.le_of_succ_le hk)
    have hset : insert k (Finset.range k ∪ {10001, 10002}) =
        Finset.range (k + 1) ∪ {10001, 10002} := by
      rw [Finset.range_add_one, Finset.insert_union]
    have hcard := card_first (show k + 1 ≤ 9860 by omega)
    rw [← hset] at hcard ⊢
    exact h.chunk (by simp) (by omega) (by simp; omega) (by omega) (by omega)

/-- Without the client, nothing arrives any more. -/
theorem Step.stranded (h : s.client.pc = .ended) (h0 : s.toServer = 0) (hstep : Step files s l s') :
    s'.client.pc = .ended ∧ s'.toServer = 0 ∧ s'.server = s.server := by
  cases hstep with
  | announce hpc =>
    rw [h] at hpc
    cases hpc
  | first hpc =>
    rw [h] at hpc
    cases hpc
  | quiet hpc =>
    rw [h] at hpc
    cases hpc
  | heard hpc =>
    rw [h] at hpc
    cases hpc
  | status => exact ⟨h, h0, rfl⟩
  | packet _ hp =>
    rw [h0] at hp
    exact absurd hp (Multiset.notMem_zero _)
  | toServer hnet => exact absurd h0 hnet.ne_zero
  | toClient => exact ⟨h, h0, rfl⟩

theorem stranded (h : s.client.pc = .ended) (h0 : s.toServer = 0)
    (ht : (transfer files garbage).Leads s t) : t.server = s.server := by
  have hall : t.client.pc = .ended ∧ t.toServer = 0 ∧ t.server = s.server := by
    induction ht with
    | refl => exact ⟨h, h0, rfl⟩
    | tail _ hstep ih =>
      obtain ⟨l, hl⟩ := hstep
      obtain ⟨hpc, hnone, hsame⟩ := Step.stranded ih.1 ih.2.1 hl
      exact ⟨hpc, hnone, hsame.trans ih.2.2⟩
  exact hall.2.2

/-- **Every transfer of seven chunks or more may be given up**: the server tells the client to end
    when six packets are still missing, and the network loses them. -/
theorem closes (files : Files) (garbage : Nat) (hseven : 7 ≤ files.chunks) :
    ∃ s, (transfer files garbage).Reachable s ∧ s.client.pc = .ended ∧ s.toServer = 0 ∧
      s.server.running = true ∧ s.server.completed.card + 6 = files.chunks + 2 ∧
        lastChunk files.size 999 ∉ s.server.completed := by
  have hsmall := files.chunks_bounds
  obtain ⟨k, hk⟩ := Nat.exists_eq_add_of_le' hseven
  obtain ⟨s, h⟩ := most_arrive files garbage k (by omega)
  obtain ⟨blank, hinv⟩ := h.inv
  have hcard := card_first (show k + 1 ≤ 9860 by omega)
  rw [Finset.range_add_one, Finset.insert_union, ← h.completed] at hcard
  have hnew : k ∉ s.server.completed := by
    rw [h.completed]
    simp
    omega
  have h1 : 10001 ∈ s.server.completed := by simp [h.completed]
  -- the first chunk of the last seven: the server closes the client
  obtain ⟨p, hp, rfl⟩ := h.pending k (.inl (by omega)) hnew
  obtain ⟨hindex, hrunning⟩ := onPacket_chunk hinv.server.holds h1 (by omega) hnew
  rw [if_pos (by omega)] at hindex
  rw [if_neg (by omega), h.running] at hrunning
  obtain ⟨⟨client, server, c, d⟩, htake, -, hclient, hserver⟩ := h.pending.take h.running hp
  obtain ⟨blank', hinv'⟩ := htake.keeps h.inv
  have hinsert : server.completed = insert p.index s.server.completed := by
    rw [← onPacket_completed, ← hserver]
  rw [← hserver] at hindex hrunning
  obtain rfl : client = ⟨.round 0, ∅⟩ := hclient.trans h.client
  have hmem : p.index ∈ server.completed := hinsert ▸ Finset.mem_insert_self _ _
  have hhears := hears files garbage c d hrunning (Finset.ne_empty_of_mem hmem)
  have hpass : Client.pass ⟨.round 0, ∅⟩ files.chunks 0 false (some server.status) = ⟨.ended, ∅⟩ :=
    if_pos hindex
  rw [hpass] at hhears
  have hall := (h.leads.trans (leads_step htake fun e => Label.noConfusion)).trans hhears
  have hended := (hall.reachable (start_reachable files garbage)).of_restrict
  have hlost : (transfer files garbage).Reachable ⟨⟨.ended, ∅⟩, server, 0, d⟩ :=
    Channel.lose_all (P := fun c => (transfer files garbage).Reachable ⟨⟨.ended, ∅⟩, server, c, d⟩)
      (fun c c' hc hlose => hc.step (.toServer hlose)) hended
  have hplace := files.lastChunk_last
  refine ⟨_, hlost, rfl, rfl, hrunning, ?_, fun hlast => ?_⟩
  · show server.completed.card + 6 = files.chunks + 2
    rw [hinsert, hcard]
    omega
  · have hlast : lastChunk files.size 999 ∈ server.completed := hlast
    rw [hinsert, h.completed] at hlast
    simp only [Finset.mem_insert, Finset.mem_union, Finset.mem_range, Finset.mem_singleton] at hlast
    omega

/-- **The server waits for ever**, with six packets missing, and never saves the last file. -/
theorem strands (files : Files) (garbage : Nat) (hseven : 7 ≤ files.chunks) :
    ∃ s, (transfer files garbage).Reachable s ∧ s.client.pc = .ended ∧
      s.server.completed.card + 6 = files.chunks + 2 ∧
        ∀ t, (transfer files garbage).Leads s t →
          t.server.running = true ∧ t.server.saved 999 = none := by
  obtain ⟨s, hs, hpc, h0, hrun, hcard, hnew⟩ := closes files garbage hseven
  obtain ⟨blank, hinv⟩ := reachable_inv hs
  refine ⟨s, hs, hpc, hcard, fun t ht => ?_⟩
  rw [stranded hpc h0 ht]
  exact ⟨hrun, hinv.not_saved (firstChunk_le files.size 999) (Nat.le_refl _) hnew⟩

theorem strands_letters : ∃ s, (transfer letters 0).Reachable s ∧ s.client.pc = .ended ∧
    s.server.completed.card = 3 ∧ ∀ t, (transfer letters 0).Leads s t →
      t.server.running = true ∧ t.server.saved 999 = none := by
  obtain ⟨s, hs, hpc, hcard, hnever⟩ := strands letters 0 (Nat.le_of_eq letters_chunks.symm)
  rw [letters_chunks] at hcard
  exact ⟨s, hs, hpc, by omega, hnever⟩

end Strands

end InpLabs.Rup
