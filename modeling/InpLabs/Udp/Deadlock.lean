/-
  File:      InpLabs/Udp/Deadlock.lean
  Subject:   When client and server wait for each other for ever.

  The client sends only when an ack arrives, and the server, at its first `recvfrom`, only when a
  packet arrives: its time-out there starts the wait again, while the one at the second `recvfrom`
  sends the acks.

  * `NotStuck`, `Stuck`, `notStuck_iff`: the property, and the states without it;
  * `Careful`, `no_deadlock`: in a run of careful steps it holds of every state, and the first step
    that is not careful breaks it; `no_deadlock_inner` is a run in which a time-out helps;
  * `lost_start`: the run in which the network loses all the client sends at first;
    `deadlocked` is its last state.
-/
import InpLabs.Udp.System

namespace InpLabs.Udp

open InpLabs.Lib

/-! ## 1. The property -/

/-- No datagram is in flight. -/
def Sys.Quiet (s : Sys) : Prop := s.toServer = 0 ∧ s.toClient = 0

/-- The receive time-out of a party, if it comes now, makes it send something. -/
def TimeoutSends (files : Files) (s : Sys) : Prop :=
  (∃ a stack buffer s', Step files s (.clientTimeout a stack buffer) s' ∧
    s'.toServer ≠ s.toServer) ∨
  ∃ junk s', Step files s (.serverTimeout junk) s' ∧ s'.toClient ≠ s.toClient

/-- If files are missing, nothing is in flight and the client waits as well, a time-out helps. -/
def NotStuck (files : Files) (s : Sys) : Prop :=
  ¬ s.server.Done → s.Quiet → s.client = .waiting → TimeoutSends files s

/-- Both wait, the server at its first `recvfrom`. -/
structure Stuck (s : Sys) : Prop where
  quiet : s.Quiet
  client : s.client = .waiting
  server : s.server.pc = .outer

/-- The steps after which both may wait for ever are left out: the loss of the last datagram while
    the server waits at its first `recvfrom`, and there, with nothing else in flight, a last file of
    `init_send` or an answer to an ack for which every bit that is read happens to be set. -/
def Careful (files : Files) (s : Sys) : Label → Prop
  | .network .lose => s.client = .waiting → s.server.pc = .outer →
    s.toServer.card + s.toClient.card ≠ 1
  | .initSend stored _ => ∀ i : Fin numFiles, s.client = .initSend i → i.1 + 1 = numFiles →
    s.server.pc = .outer → s.Quiet → ∃ j < numPackets files i, stored j = false
  | .ack a stack _ => ∀ f : Fin numFiles, a.fileNumber.toNat = f → s.server.pc = .outer →
    s.toServer = 0 → s.toClient.card = 1 → ∃ j < numPackets files f, a.bit stack j = false
  | _ => True

/-! ## 2. Time-outs -/

section Timeout

variable {n : Fin numFiles → Nat} {srv : Server} {files : Files} {s s' : Sys} {l : Label}
  {junk : Fin numFiles → Nat → Bool}

/-- The server waits at its first `recvfrom` only as long as files are missing. -/
theorem unsaved_of_outer (hs : srv.Ok n) (hpc : srv.pc = .outer) :
    ∃ f : Fin numFiles, f.1 = srv.startFile ∧ srv.fileSaved f.castSucc = false := by
  have hle := hs.start_le
  have hne : srv.startFile ≠ numFiles := by
    intro heq
    have hfin := hs.window.finishing.mpr heq
    rw [hpc] at hfin
    cases hfin
  obtain ⟨hlt, hv⟩ := hs.window.least.1
  exact ⟨⟨srv.startFile, by omega⟩, rfl, hv⟩

/-- The acks sent on the way there are not none. -/
theorem requests_ne_nil (hs : srv.Ok n) (hpc : srv.pc = .outer) : srv.requests junk ≠ [] := by
  obtain ⟨f, -, hv⟩ := unsaved_of_outer hs hpc
  exact List.ne_nil_of_mem (ack_mem_requests hs hpc hv junk)

/-- Behind the inner loop the server sends acks, or it has finished. -/
theorem leave_requests (hs : srv.Ok n) (hmissing : ¬ srv.Done) :
    srv.leave.requests junk ≠ [] := by
  rcases leave_pc srv with hpc | hpc
  · exact requests_ne_nil hs.leave hpc
  · refine absurd (fun f => ?_) hmissing
    have hdone := done_of_finishing hs.leave hpc f
    rw [(leave_frame srv).2.2.2] at hdone
    exact hdone

theorem clientMoves_self (h : s.client = .waiting) : s.clientMoves .waiting [] = s := by
  unfold Sys.clientMoves
  rw [← h, Multiset.coe_nil, Multiset.zero_add]

theorem serverMoves_self (s : Sys) : s.serverMoves s.server [] [] = s := by
  unfold Sys.serverMoves
  rw [Multiset.coe_nil, Multiset.zero_add, List.nil_append, List.nil_append]

/-- Only the time-out at the second `recvfrom` sends. -/
theorem timeoutSends_iff (hs : s.Inv files) (hmissing : ¬ s.server.Done) :
    TimeoutSends files s ↔ s.server.pc = .inner := by
  constructor
  · intro h
    by_contra hpc
    rcases h with ⟨a, stack, buffer, s', hstep, hne⟩ | ⟨junk, s', hstep, hne⟩
    · cases hstep with
      | clientTimeout h ha =>
        rw [onAck_noAck ha, clientMoves_self h] at hne
        exact hne rfl
    · cases hstep with
      | serverTimeout _ =>
        rw [onTimeout_of_ne hpc, serverMoves_self] at hne
        exact hne rfl
  · intro hpc
    have hne : s.server.pc ≠ .finishing := by
      rw [hpc]
      exact ServerPc.noConfusion
    let junk : Fin numFiles → Nat → Bool := fun _ _ => false
    refine .inr ⟨junk, _, .serverTimeout hne, fun heq => ?_⟩
    have hsent : s.server.leave.requests junk ≠ [] := leave_requests hs.server hmissing
    have hpos := List.length_pos_iff.mpr hsent
    rw [onTimeout_inner hpc] at heq
    have hcard := congrArg Multiset.card heq
    simp only [Sys.serverMoves, Multiset.card_add, Multiset.coe_card] at hcard
    omega

theorem notStuck_iff (hs : s.Inv files) : NotStuck files s ↔ ¬ Stuck s := by
  unfold NotStuck
  constructor
  · intro h hstuck
    obtain ⟨f, -, hv⟩ := unsaved_of_outer hs.server hstuck.server
    have hmissing : ¬ s.server.Done := fun hdone => by
      rw [hdone f] at hv
      cases hv
    have hpc := (timeoutSends_iff hs hmissing).mp (h hmissing hstuck.quiet hstuck.client)
    rw [hstuck.server] at hpc
    cases hpc
  · intro h hmissing hquiet hclient
    rw [timeoutSends_iff hs hmissing]
    cases hpc : s.server.pc with
    | outer => exact absurd ⟨hquiet, hclient, hpc⟩ h
    | inner => rfl
    | finishing => exact absurd (done_of_finishing hs.server hpc) hmissing

/-- **Nothing helps any more**: a state like that is left by no step. -/
theorem Stuck.forever (h : Stuck s) (hstep : Step files s l s') : s' = s := by
  have hclient := h.client
  have hserver := h.server
  cases hstep with
  | initSend hc =>
    rw [hclient] at hc
    cases hc
  | ack hc ha =>
    rw [h.quiet.2] at ha
    exact absurd ha (Multiset.notMem_zero _)
  | clientTimeout hc ha => rw [onAck_noAck ha, clientMoves_self hc]
  | packet hpc hp =>
    rw [h.quiet.1] at hp
    exact absurd hp (Multiset.notMem_zero _)
  | serverTimeout hpc =>
    have hne : s.server.pc ≠ .inner := by
      rw [hserver]
      exact ServerPc.noConfusion
    rw [onTimeout_of_ne hne, serverMoves_self]
  | finish hpc =>
    rw [hserver] at hpc
    cases hpc
  | toServer hc => exact absurd h.quiet.1 hc.ne_zero
  | toClient hc => exact absurd h.quiet.2 hc.ne_zero

end Timeout

/-! ## 3. One step -/

section Steps

variable {files : Files} {s s' : Sys} {l : Label}

/-- Nothing is in flight once datagrams were sent, only if none were. -/
theorem coe_add_eq_zero {α : Type*} {sent : List α} {c : Multiset α} :
    (sent : Multiset α) + c = 0 ↔ sent = [] ∧ c = 0 := by
  rw [← Multiset.card_eq_zero, Multiset.card_add, Multiset.coe_card, Nat.add_eq_zero_iff,
    List.length_eq_zero_iff, Multiset.card_eq_zero]

/-- `send_file` sends nothing when all the bits it reads are set. -/
theorem sendFile_eq_nil {f : Fin numFiles} {fileNumber : Word} (hf : fileNumber.toNat = f)
    (stored : Nat → Bool) (buffer : Buffer) :
    sendFile fileNumber (files f) stored buffer = [] ↔
      ¬ ∃ j < numPackets files f, stored j = false := by
  constructor
  · intro hnil hex
    obtain ⟨j, hj, hbit⟩ := hex
    obtain ⟨p, hp, -⟩ := sendFile_complete fileNumber buffer hj hbit
    rw [hnil] at hp
    cases hp
  · intro hnone
    refine List.eq_nil_iff_forall_not_mem.mpr fun p hp => hnone ?_
    obtain ⟨hgen, hbit⟩ := mem_sendFile hf hp
    exact ⟨_, hgen.number, hbit⟩

theorem initNext_waiting {i : Fin numFiles} : initNext i = .waiting ↔ i.1 + 1 = numFiles := by
  unfold initNext
  split
  · rename_i hlt
    exact iff_of_false ClientPc.noConfusion (by omega)
  · exact iff_of_true rfl (by omega)

/-- Where the server comes to its first `recvfrom`, acks are in flight. -/
theorem not_stuck_of_requests {n : Fin numFiles → Nat} {t : Server} (ht : t.Ok n)
    (saved : List StoreFile) (junk : Fin numFiles → Nat → Bool) :
    ¬ Stuck (s.serverMoves t saved (t.requests junk)) := fun hstuck =>
  requests_ne_nil ht hstuck.server (coe_add_eq_zero.mp hstuck.quiet.2).1

/-- The loss of one of the datagrams in flight. -/
theorem lose_stuck_iff (hclient : s'.client = s.client) (hserver : s'.server = s.server)
    (hcard : s'.toServer.card + s'.toClient.card + 1 = s.toServer.card + s.toClient.card) :
    ¬ Stuck s' ↔ Careful files s (.network .lose) := by
  constructor
  · intro hns hc hpc hone
    have hto : s'.toServer.card = 0 := by omega
    have hfrom : s'.toClient.card = 0 := by omega
    exact hns ⟨⟨Multiset.card_eq_zero.mp hto, Multiset.card_eq_zero.mp hfrom⟩, hclient.trans hc,
      hserver ▸ hpc⟩
  · intro hcare hstuck
    rw [hstuck.quiet.1, hstuck.quiet.2] at hcard
    exact hcare (hclient ▸ hstuck.client) (hserver ▸ hstuck.server) hcard.symm

/-- **One step**: it leads to no such state exactly when it is careful. -/
theorem Step.stuck_iff (hs : s.Inv files) (hns : ¬ Stuck s) (h : Step files s l s') :
    ¬ Stuck s' ↔ Careful files s l := by
  cases h with
  | @initSend i stored buffer hc =>
    constructor
    · intro hns' g hg hlast hpc hquiet
      obtain rfl := ClientPc.initSend.inj (hc.symm.trans hg)
      by_contra hnone
      have hnil := (sendFile_eq_nil (toNat_ofFile i) stored buffer).mpr hnone
      exact hns' ⟨⟨coe_add_eq_zero.mpr ⟨hnil, hquiet.1⟩, hquiet.2⟩, initNext_waiting.mpr hlast, hpc⟩
    · intro hcare hstuck
      obtain ⟨hnil, hto⟩ := coe_add_eq_zero.mp hstuck.quiet.1
      exact (sendFile_eq_nil (toNat_ofFile i) stored buffer).mp hnil
        (hcare i hc (initNext_waiting.mp hstuck.client) hstuck.server ⟨hto, hstuck.quiet.2⟩)
  | @ack a stack buffer hc ha =>
    have hcard := Multiset.card_erase_add_one ha
    rcases hs.built a (hs.toClient a ha) with ⟨hfin, -⟩ | ⟨f, hf, -⟩
    · rw [onAck_finish hfin]
      exact iff_of_true (fun hstuck => ClientPc.noConfusion hstuck.client)
        fun g hg => absurd hfin (ne_of_file (by decide) hg)
    · rw [onAck_file hf]
      constructor
      · intro hns' g hg hpc hto hone
        obtain rfl : g = f := Fin.ext (hg.symm.trans hf)
        by_contra hnone
        have hnil := (sendFile_eq_nil hf (a.bit stack) buffer).mpr hnone
        have hempty : s.toClient.erase a = 0 := Multiset.card_eq_zero.mp (by omega)
        exact hns' ⟨⟨coe_add_eq_zero.mpr ⟨hnil, hto⟩, hempty⟩, rfl, hpc⟩
      · intro hcare hstuck
        obtain ⟨hnil, hto⟩ := coe_add_eq_zero.mp hstuck.quiet.1
        have hempty : s.toClient.erase a = 0 := hstuck.quiet.2
        rw [hempty, Multiset.card_zero] at hcard
        exact (sendFile_eq_nil hf (a.bit stack) buffer).mp hnil
          (hcare f hf hstuck.server hto hcard.symm)
  | clientTimeout hc ha =>
    rw [onAck_noAck ha, clientMoves_self hc]
    exact iff_of_true hns trivial
  | @packet p flip junk t saved hpc hp hflip hr =>
    obtain ⟨f, hgen⟩ := hs.toServer p hp
    have hok := (arrival_progress hs.server hgen hflip hr).ok
    exact iff_of_true (not_stuck_of_requests hok saved junk) trivial
  | @serverTimeout junk hpc =>
    by_cases hin : s.server.pc = .inner
    · rw [onTimeout_inner hin]
      dsimp only
      exact iff_of_true (not_stuck_of_requests hs.server.leave [] junk) trivial
    · rw [onTimeout_of_ne hin, serverMoves_self]
      exact iff_of_true hns trivial
  | finish hpc =>
    refine iff_of_true (fun hstuck => ?_) trivial
    have hout : s.server.pc = .outer := hstuck.server
    rw [hpc] at hout
    cases hout
  | @toServer e c hc =>
    cases e with
    | duplicate => exact iff_of_true (fun hstuck => hc.duplicate_ne_zero hstuck.quiet.1) trivial
    | lose =>
      have hcard := hc.card_lose
      exact lose_stuck_iff rfl rfl (by dsimp only; omega)
  | @toClient e c hc =>
    cases e with
    | duplicate => exact iff_of_true (fun hstuck => hc.duplicate_ne_zero hstuck.quiet.2) trivial
    | lose =>
      have hcard := hc.card_lose
      exact lose_stuck_iff rfl rfl (by dsimp only; omega)

end Steps

/-! ## 4. What is lost -/

section Lost

variable {files : Files} {R : Sys → Prop} {s : Sys}

/-- All that is on the way to the server is lost. -/
theorem lost_all (hR : ∀ t l t', t.server = s.server → R t → Step files t l t' → R t')
    (h : R s) : R { s with toServer := 0 } :=
  Channel.lose_all (P := fun c => R { s with toServer := c })
    (fun c _ hc hlose => hR { s with toServer := c } _ _ rfl hc (.toServer hlose)) h

/-- The rest of `init_send` is lost on the way. -/
theorem lost_init {i : Fin numFiles}
    (hR : ∀ t l t', t.server = s.server → R t → Step files t l t' → R t') (h : R s)
    (hc : s.client = .initSend i) : R { s with client := .waiting, toServer := 0 } := by
  obtain ⟨k, hk⟩ : ∃ k, i.1 + 1 + k = numFiles := ⟨numFiles - (i + 1), by omega⟩
  induction k generalizing s i with
  | zero =>
    have hstep : Step files s (.initSend (fun _ => false) .zeros) _ := .initSend hc
    have hsent := lost_all (s := s.clientMoves _ _) hR (hR _ _ _ rfl h hstep)
    rw [initNext_waiting.mpr hk] at hsent
    exact hsent
  | succ k ih =>
    have hstep : Step files s (.initSend (fun _ => false) .zeros) _ := .initSend hc
    have hlt : i.1 + 1 < numFiles := by omega
    have hnext : initNext i = .initSend ⟨i.1 + 1, hlt⟩ := dif_pos hlt
    have hk' : i.1 + 1 + 1 + k = numFiles := by omega
    have hrest := ih (s := s.clientMoves _ _) hR (hR _ _ _ rfl h hstep) hnext hk'
    exact hrest

/-- The start, with the client further on and nothing sent. -/
def Sys.lost (client : ClientPc) : Sys := { Sys.start with client := client }

theorem lost_start (files : Files) : (transfer files).Reachable (.lost .waiting) :=
  lost_init (s := .start) (fun _ _ _ _ h hstep => h.step hstep) ⟨[], .start rfl⟩ rfl

end Lost

/-! ## 5. Runs of careful steps, and a deadlock -/

/-- **No deadlock in a run of careful steps**, and the first step that is not careful leads to one;
    in any run it depends on where the server waits. -/
theorem no_deadlock (files : Files) :
    (∀ s, ((transfer files).restrict (Careful files)).Reachable s → NotStuck files s ∧
      ∀ l s', Step files s l s' → (NotStuck files s' ↔ Careful files s l)) ∧
    ∀ s, (transfer files).Reachable s → ¬ s.server.Done →
      (TimeoutSends files s ↔ s.server.pc = .inner) := by
  refine ⟨fun s h => ?_, fun s h => timeoutSends_iff (transfer_inv h)⟩
  have hs := transfer_inv h.of_restrict
  have hboth : s.Inv files ∧ ¬ Stuck s := by
    refine h.invariant (I := fun s => s.Inv files ∧ ¬ Stuck s) (fun s hs => ?_)
      fun s l s' hi (hstep : Careful files s l ∧ Step files s l s') =>
        ⟨hstep.2.inv hi.1, (hstep.2.stuck_iff hi.1 hi.2).mpr hstep.1⟩
    obtain rfl : s = .start := hs
    exact ⟨start_inv files, fun hstuck => ClientPc.noConfusion hstuck.client⟩
  refine ⟨(notStuck_iff hs).mpr hboth.2, fun l s' hstep => ?_⟩
  rw [notStuck_iff (hstep.inv hs)]
  exact hstep.stuck_iff hs hboth.2

/-- One packet of two arrives, and all else is lost: the time-out of the server helps. -/
theorem no_deadlock_inner : let files : Files := fun _ => List.replicate 1300 7
    ∃ s, ((transfer files).restrict (Careful files)).Reachable s ∧ ¬ s.server.Done ∧ s.Quiet ∧
      s.client = .waiting ∧ TimeoutSends files s := by
  intro files
  have htwo : numPackets files file0 = 2 := numPackets_replicate 1300 7 file0
  have hstart : ((transfer files).restrict (Careful files)).Reachable .start := ⟨[], .start rfl⟩
  have hcare : Careful files .start (.initSend (fun _ => false) .zeros) := fun i hi hlast => by
    obtain rfl := ClientPc.initSend.inj hi
    cases hlast
  have hsent := hstart.step ⟨hcare, sentFirst_step files⟩
  obtain ⟨p, hp, hgen, hnum⟩ := exists_sentFirst files (i := 0) (by omega)
  obtain ⟨t, saved, hout, harrive⟩ := (transfer_inv hsent.of_restrict).arrive (by decide) hp hgen
    fun _ _ => false
  have harrived : ((transfer files).restrict (Careful files)).step _ (.packet p none _) _ :=
    ⟨trivial, harrive⟩
  have hone := hsent.step harrived
  have hmiss : ¬ Server.new.Has file0 1 := fun hhas => by rcases hhas with h | h <;> cases h
  have hinner : t.pc = .inner := hout.inner (Server.new_ok _) hgen.toHeader (i := 1) (by omega)
    (by omega) hmiss
  -- at the second `recvfrom` every step is careful
  have hcareful : ∀ u l, u.server = t → Careful files u l := fun u l hu => by
    have hpc : u.server.pc ≠ .outer := by
      rw [hu, hinner]
      exact ServerPc.noConfusion
    cases l with
    | network e =>
      cases e with
      | lose => exact fun _ h => absurd h hpc
      | duplicate => trivial
    | initSend => exact fun _ _ _ h => absurd h hpc
    | ack => exact fun _ _ h => absurd h hpc
    | _ => trivial
  have hreach := lost_init (R := ((transfer files).restrict (Careful files)).Reachable)
    (fun u l _ hu h hstep => h.step ⟨hcareful u l hu, hstep⟩) hone (i := ⟨1, by decide⟩) rfl
  have hrequests : t.requests (fun _ _ => false) = [] := by
    unfold Server.requests
    rw [hinner]
  have hmissing : ¬ t.Done := fun hdone => by
    rcases (hout.has (Server.new_ok _) hgen.toHeader (i := 1) (by omega)).mp
      (.inl (hdone file0)) with h | h
    · exact hmiss h
    · omega
  have hquiet : ((t.requests fun _ _ => false : List Ack) : Multiset Ack) + 0 = 0 := by
    rw [hrequests]
    rfl
  exact ⟨_, hreach, hmissing, ⟨rfl, hquiet⟩, rfl,
    ((no_deadlock files).1 _ hreach).1 hmissing ⟨rfl, hquiet⟩ rfl⟩

/-- **All of `init_send` is lost**: nothing is in flight, no file is saved, no time-out sends
    anything, and no step leads anywhere else. -/
theorem deadlocked : ∃ s, (transfer fun _ => []).Reachable s ∧ ¬ s.server.Done ∧ s.Quiet ∧
    ¬ TimeoutSends (fun _ => []) s ∧ ∀ l s', Step (fun _ => []) s l s' → s' = s := by
  have hstuck : Stuck (.lost .waiting) := ⟨⟨rfl, rfl⟩, rfl, rfl⟩
  have hmissing : ¬ (Sys.lost .waiting).server.Done := fun h => by cases h ⟨0, Nat.succ_pos _⟩
  refine ⟨_, lost_start _, hmissing, hstuck.quiet, fun h => ?_, fun l s' => hstuck.forever⟩
  have hpc := (timeoutSends_iff (transfer_inv (lost_start _)) hmissing).mp h
  cases hpc

end InpLabs.Udp
