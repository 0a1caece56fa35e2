/-
  File:      InpLabs/Rup/Completion.lean
  Subject:   **When a transfer of packed chunks can still be completed** (lab6/others/Sean).

  * `ClientPc.May`: what the client can still send. The metadata is not sent again;
  * `Sys.Completable`: a chunk is missing, and all that is missing can still come;
  * `Step.back`: no step makes a transfer completable that was not;
  * `fetches`, `gathers`: what can still come is sent, and then on its way;
  * `completable_iff`: the server can still end with all files exactly as long as that holds.
-/
import InpLabs.Rup.Runs

namespace InpLabs.Rup

open InpLabs.Lib

/-! ## 1. What can still come -/

/-- What the client can still send: a chunk as long as it runs, the metadata only at the start. -/
def ClientPc.May (files : Files) : ClientPc → Nat → Prop
  | announce n, i => 10001 + n / 10 ≤ i ∨ i < files.chunks
  | first _, i => i < files.chunks
  | round _, i => i < files.chunks
  | ended, _ => False

/-- A packet with this number is on its way, or can still be. -/
def Sys.Obtainable (files : Files) (s : Sys) (i : Nat) : Prop :=
  (∃ p ∈ s.toServer, p.index = i) ∨ s.client.pc.May files i

/-- All that is missing can still come. -/
def Sys.Open (files : Files) (s : Sys) : Prop :=
  ∀ i, files.Number i → i ∉ s.server.completed → s.Obtainable files i

/-- The server has ended with all files. -/
def Server.Complete (s : Server) : Prop := s.running = false ∧ ∀ k < 1000, s.saved k ≠ none

/-- All that is missing can still come, and a chunk is missing: after a packet of the metadata the
    server does not look whether it was the last. -/
structure Sys.Completable (files : Files) (s : Sys) : Prop where
  running : s.server.running = true
  chunk : ∃ i < files.chunks, i ∉ s.server.completed
  missing : s.Open files

section Back

variable {files : Files} {blank : Bool} {s s' : Sys} {l : Label} {p : Packet} {i k : Nat}

theorem Sys.Inv.complete_iff (h : s.Inv files blank) :
    s.server.Complete ↔ s.server.running = false ∧ s.server.Known := by
  refine and_congr_right fun hstop => ⟨fun hsaved => ?_, fun hknown k hk => ?_⟩
  · by_contra hno
    refine hsaved 0 (by decide) ?_
    rw [(h.server.unknown hno).2.2]
  · rw [h.ended hstop hknown hk]
    exact Option.some_ne_none _

theorem rup_index_lt (hk : k ≤ files.chunks) : (files.rup k).index < files.chunks := by
  have hsmall := files.chunks_bounds
  rcases Nat.lt_or_eq_of_le hk with hlt | rfl
  · rwa [rup_index (.inl hlt)]
  · rw [rup_empty]
    exact Nat.zero_lt_of_lt hsmall.1

theorem pass_may {c : Client} {late : Bool} {status : Option Status}
    (h : (c.pass files.chunks k late status).pc.May files i) : i < files.chunks := by
  unfold Client.pass at h
  cases status with
  | none => exact h
  | some r =>
    dsimp only at h
    split at h
    · exact h.elim
    · exact h

/-- What a pass sends is a chunk, or taken for one. -/
theorem Sys.Inv.sends_may (h : s.Inv files blank) (hk : s.client.pc = .round k) (late : Bool) :
    ∀ p ∈ (if late then {files.rup (Rup.skip s.client.completed k)} else 0) + s.toServer,
      p ∈ s.toServer ∨ s.client.pc.May files p.index := by
  intro p hp
  rcases Multiset.mem_add.mp hp with hp | hp
  · split at hp
    · rw [Multiset.mem_singleton.mp hp, hk]
      exact .inr (rup_index_lt (h.skip hk))
    · exact absurd hp (Multiset.notMem_zero p)
  · exact .inl hp

/-- A step of the client, or of the network: what can come after it could come before. -/
theorem back_of_same (hnext : s'.server.Complete ∨ s'.Completable files)
    (hserver : s'.server = s.server)
    (hsent : ∀ p ∈ s'.toServer, p ∈ s.toServer ∨ s.client.pc.May files p.index)
    (hpc : ∀ i, s'.client.pc.May files i → s.client.pc.May files i) :
    s.server.Complete ∨ s.Completable files := by
  rw [hserver] at hnext
  refine hnext.imp_right fun h => ⟨hserver ▸ h.running, hserver ▸ h.chunk, fun i hi hnew => ?_⟩
  rcases h.missing i hi (by rwa [hserver]) with ⟨p, hp, rfl⟩ | hmay
  · exact (hsent p hp).imp_left fun hp => ⟨p, hp, rfl⟩
  · exact .inr (hpc i hmay)

/-- The datagram with which the server ends is the last chunk. -/
theorem last_arrives_of_complete {blank' : Bool} (h : s.Inv files blank) (h' : s'.Inv files blank')
    (hdone : s'.server.Complete) (hrun : s.server.running = true) (hp : p ∈ s.toServer)
    (hserver : s'.server = (s.server.onPacket p).1) : p.index < files.chunks ∧
      p.index ∉ s.server.completed ∧ ∀ i, files.Number i → i ∈ s'.server.completed := by
  have hsmall := files.chunks_bounds
  obtain ⟨hstop, hknown⟩ := h'.complete_iff.mp hdone
  have hnew : p.index ∉ s.server.completed := by
    intro hmem
    have hsame : s'.server = s.server := by
      rw [hserver, Server.onPacket, if_pos hmem]
    exact Bool.noConfusion (hstop.symm.trans (hsame ▸ hrun))
  have hchunk : p.index < files.chunks := by
    refine (h.number hp).resolve_right fun hmeta => ?_
    have hsame := (onPacket_metadata hmeta hnew).2
    rw [← hserver, hstop, hrun] at hsame
    exact Bool.noConfusion hsame
  have h1 : 10001 ∈ s.server.completed := by
    have hmem := hknown.1
    rw [hserver, onPacket_completed] at hmem
    exact (Finset.mem_insert.mp hmem).resolve_left (by omega)
  have hrunning := (onPacket_chunk h.server.holds h1 hchunk hnew).2
  rw [← onPacket_completed, ← hserver, hstop, hrun] at hrunning
  refine ⟨hchunk, hnew, h'.server.holds.all ?_⟩
  by_contra hmore
  rw [if_neg hmore] at hrunning
  exact Bool.noConfusion hrunning

/-- A datagram is read: it was on its way. -/
theorem back_of_packet (h : s.Inv files blank) (h' : ∃ blank, s'.Inv files blank)
    (hnext : s'.server.Complete ∨ s'.Completable files) (hrun : s.server.running = true)
    (hp : p ∈ s.toServer) (hserver : s'.server = (s.server.onPacket p).1)
    (hsent : s'.toServer = s.toServer.erase p) (hclient : s'.client = s.client) :
    s.Completable files := by
  have hinsert : s'.server.completed = insert p.index s.server.completed := by
    rw [hserver, onPacket_completed]
  rcases hnext with hdone | hnext
  · obtain ⟨blank', h'⟩ := h'
    obtain ⟨hchunk, hnew, hall⟩ := last_arrives_of_complete h h' hdone hrun hp hserver
    refine ⟨hrun, ⟨p.index, hchunk, hnew⟩, fun i hi hmissing => .inl ⟨p, hp, ?_⟩⟩
    have hmem := hall i hi
    rw [hinsert] at hmem
    exact ((Finset.mem_insert.mp hmem).resolve_right hmissing).symm
  · obtain ⟨k, hk, hknew⟩ := hnext.chunk
    rw [hinsert, Finset.mem_insert, not_or] at hknew
    refine ⟨hrun, ⟨k, hk, hknew.2⟩, fun i hi hmissing => ?_⟩
    by_cases hip : p.index = i
    · exact .inl ⟨p, hp, hip⟩
    · have hlater : i ∉ s'.server.completed := by
        rw [hinsert, Finset.mem_insert, not_or]
        exact ⟨Ne.symm hip, hmissing⟩
      rcases hnext.missing i hi hlater with ⟨q, hq, hqi⟩ | hmay
      · rw [hsent] at hq
        exact .inl ⟨q, Multiset.mem_of_mem_erase hq, hqi⟩
      · rw [hclient] at hmay
        exact .inr hmay

/-- **No step makes a transfer completable** that was not. -/
theorem Step.back (h : s.Inv files blank) (hstep : Step files s l s')
    (hnext : s'.server.Complete ∨ s'.Completable files) :
    s.server.Complete ∨ s.Completable files := by
  have hkeeps := hstep.keeps ⟨blank, h⟩
  have hready := h.ready
  cases hstep with
  | @announce n hpc =>
    rw [hpc] at hready
    have hn : n < 20 := hready
    refine back_of_same hnext rfl (fun p hp => ?_) (fun i hmay => ?_)
    · rcases Multiset.mem_cons.mp hp with rfl | hp
      · rw [rup_index (.inr (by omega)), hpc]
        exact .inr (.inl (Nat.le_refl _))
      · exact .inl hp
    · have hmay : (if n + 1 = 20 then ClientPc.first 0 else .announce (n + 1)).May files i := hmay
      rw [hpc]
      split at hmay
      · exact .inr hmay
      · exact hmay.imp_left fun hle => by omega
  | @first k hpc =>
    rw [hpc] at hready
    have hk : k < files.chunks := hready
    refine back_of_same hnext rfl (fun p hp => ?_) (fun i hmay => ?_)
    · rcases Multiset.mem_cons.mp hp with rfl | hp
      · rw [rup_index (.inl hk), hpc]
        exact .inr hk
      · exact .inl hp
    · have hmay : (if k + 1 < files.chunks then ClientPc.first (k + 1) else .round 0).May files i :=
        hmay
      rw [hpc]
      split at hmay
      · exact hmay
      · exact hmay
  | @quiet k late hpc =>
    refine back_of_same hnext rfl (h.sends_may hpc late) (fun i hmay => ?_)
    rw [hpc]
    exact pass_may hmay
  | @heard k late r hpc hr =>
    refine back_of_same hnext rfl (h.sends_may hpc late) (fun i hmay => ?_)
    rw [hpc]
    exact pass_may hmay
  | status => exact back_of_same hnext rfl (fun p hp => .inl hp) (fun i hmay => hmay)
  | packet hrun hp => exact .inr (back_of_packet h hkeeps hnext hrun hp rfl rfl rfl)
  | toServer hnet =>
    exact back_of_same hnext rfl (fun p hp => .inl (hnet.subset hp)) (fun i hmay => hmay)
  | toClient => exact back_of_same hnext rfl (fun p hp => .inl hp) (fun i hmay => hmay)

end Back

/-! ## 2. What can come is sent -/

/-- The number of the packet that the client sends next. -/
def Client.sends (c : Client) : Nat :=
  match c.pc with
  | .announce n => 10001 + n / 10
  | .first k => k
  | .round k => skip c.completed k
  | .ended => 0

/-- Where it is then. -/
def Client.next (chunks : Nat) (c : Client) : ClientPc :=
  match c.pc with
  | .announce n => if n + 1 = 20 then .first 0 else .announce (n + 1)
  | .first k => if k + 1 < chunks then .first (k + 1) else .round 0
  | .round k => roundAt chunks (skip c.completed k + 1)
  | .ended => .ended

/-- How far the client is from sending packet `i`. -/
def ClientPc.distance (chunks i : Nat) : ClientPc → Nat
  | announce n => 3 * chunks + 20 - n
  | first k => 3 * chunks - k
  | round k => if k ≤ i then i - k else chunks - k + i + 1
  | ended => 0

section Sending

variable {files : Files} {blank : Bool} {s : Sys} {c : Client} {i : Nat}

theorem sends_step (files : Files) (h : s.client.pc ≠ .ended) :
    ∃ l, (∀ e, l ≠ .network e) ∧ Step files s l { s with
      client := { s.client with pc := s.client.next files.chunks }
      toServer := files.rup s.client.sends ::ₘ s.toServer } := by
  obtain ⟨⟨pc, completed⟩, server, toServer, toClient⟩ := s
  cases pc with
  | announce n => exact ⟨.announce, fun e => Label.noConfusion, .announce rfl⟩
  | first k => exact ⟨.first, fun e => Label.noConfusion, .first rfl⟩
  | round k =>
    have hstep : Step files ⟨⟨.round k, completed⟩, server, toServer, toClient⟩
        (.round true none) _ := .quiet rfl
    rw [if_pos rfl, Multiset.singleton_add] at hstep
    exact ⟨.round true none, fun e => Label.noConfusion, hstep⟩
  | ended => exact absurd rfl h

/-- **The client sends what it can**, or comes closer to it. -/
theorem ClientPc.May.next (h : c.pc.May files i) (hready : c.pc.Ready files)
    (hi : files.Number i) (hnew : i ∉ c.completed) : c.sends = i ∨
      ((c.next files.chunks).May files i ∧
        (c.next files.chunks).distance files.chunks i < c.pc.distance files.chunks i) := by
  have hsmall := files.chunks_bounds
  obtain ⟨pc, completed⟩ := c
  refine or_iff_not_imp_left.mpr fun hne => ?_
  cases pc with
  | announce n =>
    have hn : n < 20 := hready
    have hne : ¬ 10001 + n / 10 = i := hne
    have hmay : 10001 + n / 10 ≤ i ∨ i < files.chunks := h
    show (if n + 1 = 20 then ClientPc.first 0 else .announce (n + 1)).May files i ∧
      (if n + 1 = 20 then ClientPc.first 0 else .announce (n + 1)).distance files.chunks i <
        3 * files.chunks + 20 - n
    split
    · refine ⟨hmay.resolve_left fun hle => ?_, ?_⟩
      · rcases hi with hi | hi | hi <;> omega
      · show 3 * files.chunks - 0 < 3 * files.chunks + 20 - n
        omega
    · refine ⟨hmay.imp_left fun hle => ?_, ?_⟩
      · rcases hi with hi | hi | hi <;> omega
      · show 3 * files.chunks + 20 - (n + 1) < 3 * files.chunks + 20 - n
        omega
  | first k =>
    have hk : k < files.chunks := hready
    have hmay : i < files.chunks := h
    show (if k + 1 < files.chunks then ClientPc.first (k + 1) else .round 0).May files i ∧
      (if k + 1 < files.chunks then ClientPc.first (k + 1) else .round 0).distance files.chunks i <
        3 * files.chunks - k
    split
    · refine ⟨hmay, ?_⟩
      show 3 * files.chunks - (k + 1) < 3 * files.chunks - k
      omega
    · refine ⟨hmay, ?_⟩
      show (if 0 ≤ i then i - 0 else files.chunks - 0 + i + 1) < 3 * files.chunks - k
      rw [if_pos (Nat.zero_le i)]
      omega
  | round k =>
    have hk : k < files.chunks := hready
    have hmay : i < files.chunks := h
    have hne : ¬ skip completed k = i := hne
    have hle := (skip_spec completed k).1
    have hbefore : k ≤ i → skip completed k ≤ i := fun hki => skip_le hki hnew
    refine ⟨hmay, ?_⟩
    unfold Client.next roundAt ClientPc.distance
    dsimp only
    generalize skip completed k = j at hne hle hbefore ⊢
    split <;> split <;> split <;> omega
  | ended => exact h.elim

/-- **What can still come can be brought on its way**, and nothing is lost by that. -/
theorem fetches (garbage : Nat) (h : ∃ blank, s.Inv files blank)
    (hopen : s.Open files) (hi : files.Number i) (hnew : i ∉ s.server.completed) :
    ∃ t, (ordered files garbage).Leads s t ∧ (∃ blank, t.Inv files blank) ∧ t.Open files ∧
      t.server = s.server ∧ (∀ p ∈ s.toServer, p ∈ t.toServer) ∧ ∃ p ∈ t.toServer, p.index = i := by
  induction hn : s.client.pc.distance files.chunks i using Nat.strongRecOn generalizing s with
  | _ n ih =>
    rcases hopen i hi hnew with hsent | hmay
    · exact ⟨s, .refl, h, hopen, rfl, fun p hp => hp, hsent⟩
    have hended : s.client.pc ≠ .ended := fun hpc => by
      rw [hpc] at hmay
      exact hmay
    obtain ⟨l, hl, hstep⟩ := sends_step files hended
    have hkeeps := hstep.keeps h
    obtain ⟨blank, hs⟩ := h
    have hnext : ∀ j, files.Number j → j ∉ s.server.completed → s.client.pc.May files j →
        s.client.sends = j ∨ ((s.client.next files.chunks).May files j ∧
          (s.client.next files.chunks).distance files.chunks j <
            s.client.pc.distance files.chunks j) :=
      fun j hj hjnew hjmay => hjmay.next hs.ready hj fun hmem => hjnew (hs.acked hmem)
    have hsends : ∀ j, files.Number j → s.client.sends = j →
        ∃ p ∈ files.rup s.client.sends ::ₘ s.toServer, p.index = j := by
      intro j hj heq
      exact ⟨_, Multiset.mem_cons_self _ _, heq ▸ rup_index (heq ▸ hj)⟩
    have hopen' : Sys.Open files { s with
        client := { s.client with pc := s.client.next files.chunks }
        toServer := files.rup s.client.sends ::ₘ s.toServer } := by
      intro j hj hjnew
      rcases hopen j hj hjnew with ⟨p, hp, hpj⟩ | hjmay
      · exact .inl ⟨p, Multiset.mem_cons_of_mem hp, hpj⟩
      · exact (hnext j hj hjnew hjmay).imp (hsends j hj) And.left
    rcases hnext i hi hnew hmay with heq | ⟨-, hcloser⟩
    · exact ⟨_, leads_step hstep hl, hkeeps, hopen', rfl,
        fun p hp => Multiset.mem_cons_of_mem hp, hsends i hi heq⟩
    · obtain ⟨t, hleads, hinv, hopen'', hserver, hsub, hsent⟩ :=
        ih _ (hn ▸ hcloser) hkeeps hopen' hnew rfl
      exact ⟨t, (leads_step hstep hl).trans hleads, hinv, hopen'', hserver,
        fun p hp => hsub p (Multiset.mem_cons_of_mem hp), hsent⟩

/-- **All that is missing can be brought on its way.** -/
theorem gathers (garbage : Nat) (h : ∃ blank, s.Inv files blank)
    (hopen : s.Open files) : ∃ t, (ordered files garbage).Leads s t ∧
      (∃ blank, t.Inv files blank) ∧ t.server = s.server ∧ t.Pending files := by
  have hstep : ∀ u : Sys,
      ((∃ blank, u.Inv files blank) ∧ u.Open files ∧ u.server = s.server) →
      ¬ u.Pending files → ∃ t, (ordered files garbage).Leads u t ∧
        ((∃ blank, t.Inv files blank) ∧ t.Open files ∧ t.server = s.server) ∧
        (files.numbers.filter fun i => ∀ p ∈ t.toServer, p.index ≠ i).card <
          (files.numbers.filter fun i => ∀ p ∈ u.toServer, p.index ≠ i).card := by
    intro u hu hpending
    obtain ⟨hinv, hopen, hserver⟩ := hu
    simp only [Sys.Pending, not_forall, not_exists, not_and, exists_prop] at hpending
    obtain ⟨i, hi, hnew, hnone⟩ := hpending
    obtain ⟨t, hleads, hinv', hopen', hserver', hsub, p, hp, hpi⟩ :=
      fetches garbage hinv hopen hi hnew
    refine ⟨t, hleads, ⟨hinv', hopen', hserver'.trans hserver⟩, Finset.card_lt_card ?_⟩
    refine (Finset.ssubset_iff_of_subset fun j hj => ?_).mpr ⟨i, ?_, fun hmem => ?_⟩
    · obtain ⟨hj, hout⟩ := Finset.mem_filter.mp hj
      exact Finset.mem_filter.mpr ⟨hj, fun q hq => hout q (hsub q hq)⟩
    · exact Finset.mem_filter.mpr ⟨mem_numbers.mpr hi, hnone⟩
    · exact (Finset.mem_filter.mp hmem).2 p hp hpi
  obtain ⟨t, hleads, ⟨hinv, -, hserver⟩, hpending⟩ :=
    Lts.leads_of_measure _ hstep ⟨h, hopen, rfl⟩
  exact ⟨t, hleads, hinv, hserver, hpending⟩

end Sending

/-! ## 3. The end -/

section Completes

variable {files : Files} {garbage : Nat} {s t : Sys}

/-- A run does not make a transfer completable that was not. -/
theorem leads_back (h : (transfer files garbage).Reachable s)
    (hleads : (transfer files garbage).Leads s t)
    (ht : t.server.Complete ∨ t.Completable files) : s.server.Complete ∨ s.Completable files := by
  induction hleads with
  | refl => exact ht
  | @tail u v hsu hstep ih =>
    obtain ⟨l, hl⟩ := hstep
    have hl : Step files u l v := hl
    have hsu : (transfer files garbage).Leads s u := hsu
    obtain ⟨blank, hu⟩ := reachable_inv (hsu.reachable h)
    exact ih (hl.back hu ht)

/-- **When the server can still end with all files**: it has, or it runs, a chunk is missing, and
    all that is missing can still come. So it cannot when the metadata that the client sends at the
    start is lost, when it comes behind all chunks, or when the client has ended and a chunk is
    neither there nor on its way. -/
theorem completable_iff (files : Files) (garbage : Nat) (s : Sys)
    (h : (transfer files garbage).Reachable s) :
    (∃ t, (transfer files garbage).Leads s t ∧ t.server.Complete) ↔
      s.server.Complete ∨ s.Completable files := by
  constructor
  · intro hcan
    obtain ⟨t, hleads, ht⟩ := hcan
    exact leads_back h hleads (.inl ht)
  · intro hcan
    rcases hcan with hdone | hcan
    · exact ⟨s, .refl, hdone⟩
    · obtain ⟨t, hleads, hinv, hserver, hpending⟩ :=
        gathers garbage (reachable_inv h) hcan.missing
      have hending : t.Ending files := ⟨hpending, fun _ => hserver ▸ hcan.chunk,
        fun hstop => Bool.noConfusion (hstop.symm.trans (hserver ▸ hcan.running))⟩
      obtain ⟨u, hleads', ⟨blank, hu⟩, hknown, hstop⟩ := hending.ends garbage hinv
      exact ⟨u, (hleads.trans hleads').of_restrict, hu.complete_iff.mpr ⟨hstop, hknown⟩⟩

theorem completable_iff_letters :
    (∃ t, (transfer letters 0).Leads ⟨.start, .new 0, 0, 0⟩ t ∧ t.server.Complete) ∧
      ∃ s, (transfer letters 0).Reachable s ∧ s.server.running = true ∧
        ¬ ∃ t, (transfer letters 0).Leads s t ∧ t.server.Complete := by
  refine ⟨(completable_iff letters 0 _ ⟨[], .start rfl⟩).mpr (.inr ⟨rfl, ?_, fun i hi _ => ?_⟩), ?_⟩
  · exact ⟨0, Nat.zero_lt_of_lt letters.chunks_bounds.1, Finset.notMem_empty _⟩
  · refine .inr ?_
    rcases hi with hlt | rfl | rfl
    · exact .inr hlt
    · exact .inl (by decide)
    · exact .inl (by decide)
  · -- six packets are lost, and the client has ended
    obtain ⟨s, hs, hpc, h0, hrun, -, hlast⟩ :=
      closes letters 0 (Nat.le_of_eq letters_chunks.symm)
    refine ⟨s, hs, hrun, fun hcan => ?_⟩
    rcases (completable_iff letters 0 s hs).mp hcan with hdone | hopen
    · exact Bool.noConfusion (hdone.1.symm.trans hrun)
    · rcases hopen.missing _ (.inl (letters.lastChunk_lt (by decide))) hlast with hway | hmay
      · obtain ⟨p, hp, -⟩ := hway
        rw [h0] at hp
        exact absurd hp (Multiset.notMem_zero p)
      · rw [hpc] at hmay
        exact hmay

end Completes

end InpLabs.Rup
