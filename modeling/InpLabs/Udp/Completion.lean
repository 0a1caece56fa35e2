/-
  File:      InpLabs/Udp/Completion.lean
  Subject:   The file transfer can be completed from every state but those in which both parties
             wait for ever.

  * `Asks`, `transfer_asks`: an ack that is in flight asks for a packet;
  * `Memory`: what is read without having been set; it is given, and no step can choose it;
  * `missing`: the packets the server has not got; no step adds to them;
  * `leads_waiting`, `leads_fresh`, `leads_closer`: `init_send` can be finished, then the server
    can be made to send its acks, and one of these brings a packet that is missing;
  * `completes_iff`: so the files can be saved, and the client can end, unless nothing is sent any
    more.
-/
import InpLabs.Udp.Deadlock
import InpLabs.Udp.Safety
import Mathlib.Data.Fintype.Card
import Mathlib.Data.Fintype.Sigma

namespace InpLabs.Udp

open InpLabs.Lib

/-- The transfer over a network that flips no bits. -/
abbrev intact (files : Files) : Lts Sys Label := (transfer files).restrict Intact

/-- What the programs read without having set it: the bits of `init_send`'s bitmap, which is one
variable, and all the rest, wherever the transfer stands. -/
structure Memory where
  stored : Nat → Bool
  stack : Sys → Nat → Bool
  buffer : Sys → Buffer
  junk : Sys → Fin numFiles → Nat → Bool

/-- The step finds this in the memory. -/
def Memory.Holds (m : Memory) (s : Sys) : Label → Prop
  | .initSend stored buffer => stored = m.stored ∧ buffer = m.buffer s
  | .ack _ stack buffer => stack = m.stack s ∧ buffer = m.buffer s
  | .clientTimeout _ stack buffer => stack = m.stack s ∧ buffer = m.buffer s
  | .packet _ _ junk => junk = m.junk s
  | .serverTimeout junk => junk = m.junk s
  | .finish => True
  | .network _ => True

/-- The transfer by programs that have this memory. -/
abbrev Memory.transfer (m : Memory) (files : Files) : Lts Sys Label :=
  (Udp.transfer files).restrict fun s l => Intact s l ∧ m.Holds s l

/-- Nothing is in flight, the server is at its first `recvfrom`, and the client waits, or is in
`init_send` with nothing to send: its bitmap has the bits of all packets that are left. -/
structure Memory.Silent (m : Memory) (files : Files) (s : Sys) : Prop where
  quiet : s.Quiet
  server : s.server.pc = .outer
  client : s.client = .waiting ∨ ∃ i, s.client = .initSend i ∧
    ∀ f, i ≤ f → ∀ p < numPackets files f, m.stored p = true

/-! ## 1. What acks ask for -/

/-- The end of the transfer, or a packet of a file. -/
def Asks (n : Fin numFiles → Nat) (a : Ack) : Prop :=
  a.fileNumber = finish ∨ ∃ f : Fin numFiles, a.fileNumber.toNat = f ∧
    ∃ i < n f, a.storedPacket[i]? ≠ some true

section Asks

variable {n : Fin numFiles → Nat} {srv : Server} {f : Fin numFiles} {a : Ack}
  {junk : Fin numFiles → Nat → Bool} {files : Files} {s s' : Sys} {l : Label} {i : Nat}

/-- A file that is not saved has a packet that is missing. -/
theorem exists_missing (hs : srv.Ok n) (hpos : 0 < n f)
    (hv : srv.fileSaved f.castSucc = false) : ∃ i < n f, ¬ srv.Has f i := by
  by_contra hall
  simp only [not_exists, not_and, not_not] at hall
  have hsaved := hs.saved_of_has hpos hall
  rw [hv] at hsaved
  cases hsaved

/-- The bit of a packet that is missing is not set. -/
theorem ack_bit_of_missing (hs : srv.Ok n) (hv : srv.fileSaved f.castSucc = false)
    (hi : i < n f) (hmiss : ¬ srv.Has f i) :
    (srv.ack junk f).storedPacket[i]? ≠ some true := by
  intro hbit
  rcases @ack_ok _ _ _ junk hs hv with ⟨hfin, -⟩ | ⟨g, hg, hbits⟩
  · have hmark : numFiles ≤ finish.toNat := by decide
    exact ne_of_file hmark (toNat_ofFile f) hfin
  · obtain rfl : f = g := Fin.ext ((toNat_ofFile f).symm.trans hg)
    exact hmiss (hbits i hi hbit)

theorem mem_requests (ha : a ∈ srv.requests junk) :
    ∃ f : Fin numFiles, srv.fileSaved f.castSucc = false ∧ a = srv.ack junk f := by
  unfold Server.requests at ha
  split at ha
  · obtain ⟨f, hf, rfl⟩ := List.mem_map.mp ha
    have hcond := (List.mem_filter.mp hf).2
    rw [Bool.and_eq_true, Bool.not_eq_true'] at hcond
    exact ⟨f, hcond.2, rfl⟩
  · cases ha

theorem requests_asks (hpos : ∀ f, 0 < n f) (hs : srv.Ok n) (ha : a ∈ srv.requests junk) :
    Asks n a := by
  obtain ⟨f, hv, rfl⟩ := mem_requests ha
  obtain ⟨i, hi, hmiss⟩ := exists_missing hs (hpos f) hv
  have hbit : (srv.ack junk f).storedPacket[i]? ≠ some true :=
      ack_bit_of_missing hs hv hi hmiss
  exact .inr ⟨f, toNat_ofFile f, i, hi, hbit⟩

theorem onTimeout_asks (hpos : ∀ f, 0 < n f) (hs : srv.Ok n) (ha : a ∈ (srv.onTimeout junk).2) :
    Asks n a := by
  by_cases h : srv.pc = .inner
  · rw [onTimeout_inner h] at ha
    dsimp only at ha
    exact requests_asks hpos hs.leave ha
  · rw [onTimeout_of_ne h] at ha
    cases ha

theorem Step.asks (hpos : ∀ f, 0 < numPackets files f) (hs : s.Inv files)
    (hasks : ∀ a ∈ s.built, Asks (numPackets files) a) (h : Step files s l s') :
    ∀ a ∈ s'.built, Asks (numPackets files) a := by
  have hnew : ∀ {sent : List Ack}, (∀ a ∈ sent, Asks (numPackets files) a) →
      ∀ a ∈ sent ++ s.built, Asks (numPackets files) a := fun hsent a ha =>
    (List.mem_append.mp ha).elim (hsent a) (hasks a)
  cases h with
  | @packet p flip junk t saved hpc hp hflip hr =>
    obtain ⟨f, hgen⟩ := hs.toServer p hp
    have hok := (arrival_progress hs.server hgen hflip hr).ok
    exact hnew fun a ha => requests_asks hpos hok ha
  | serverTimeout hpc => exact hnew fun a ha => onTimeout_asks hpos hs.server ha
  | finish hpc =>
    refine hnew fun a ha => .inl ?_
    rw [List.mem_singleton.mp ha]
    rfl
  | _ => exact hasks

/-- **Every ack in flight asks for something.** -/
theorem transfer_asks (hpos : ∀ f, 0 < numPackets files f) (h : (transfer files).Reachable s) :
    ∀ a ∈ s.toClient, Asks (numPackets files) a := by
  have hboth : s.Inv files ∧ ∀ a ∈ s.built, Asks (numPackets files) a := by
    refine h.invariant (I := fun s => s.Inv files ∧ ∀ a ∈ s.built, Asks (numPackets files) a)
      (fun s hs => ?_) fun s l s' hi (hstep : Step files s l s') =>
        ⟨hstep.inv hi.1, hstep.asks hpos hi.1 hi.2⟩
    obtain rfl : s = .start := hs
    exact ⟨start_inv files, fun a ha => absurd ha List.not_mem_nil⟩
  exact fun a ha => hboth.2 a (hboth.1.toClient a ha)

end Asks

/-! ## 2. What is missing -/

/-- The packets that the server has not got. -/
@[irreducible] noncomputable def missing (files : Files) (srv : Server) :
    Finset ((f : Fin numFiles) × Fin (numPackets files f)) :=
  open Classical in Finset.univ.filter fun k => ¬ srv.Has k.1 k.2

section Missing

variable {m : Memory} {files : Files} {srv : Server} {s s' t : Sys} {l : Label}

open Classical in
theorem mem_missing {k : (f : Fin numFiles) × Fin (numPackets files f)} :
    k ∈ missing files srv ↔ ¬ srv.Has k.1 k.2 := by
  unfold missing
  exact Finset.mem_filter_univ k

/-- No step loses what the server has got. -/
theorem Step.has (hs : s.Inv files) (h : Step files s l s') {f : Fin numFiles} {i : Nat}
    (hi : i < numPackets files f) (hhas : s.server.Has f i) : s'.server.Has f i := by
  cases h with
  | @packet p flip junk t saved hpc hp hflip hr =>
    obtain ⟨g, hgen⟩ := hs.toServer p hp
    exact (arrival_progress hs.server hgen hflip hr).has f i hi hhas
  | serverTimeout hpc => exact (onTimeout_progress hs.server).has f i hi hhas
  | _ => exact hhas

theorem reachable_leads (h : (intact files).Reachable s) (hst : (m.transfer files).Leads s t) :
    (intact files).Reachable t :=
  (hst.restrict_mono fun _ _ h => h.1).reachable h

theorem leads_missing (h : (intact files).Reachable s) (hst : (m.transfer files).Leads s t) :
    missing files t.server ⊆ missing files s.server := by
  induction hst with
  | refl => exact Finset.Subset.refl _
  | @tail u v hsu hstep ih =>
    obtain ⟨l, -, hl⟩ := hstep
    have hu := transfer_inv (reachable_leads h hsu).of_restrict
    refine fun k hk => ih (mem_missing.mpr fun hhas => ?_)
    exact mem_missing.mp hk (hl.has hu k.2.isLt hhas)

/-- With nothing missing, all files are saved. -/
theorem done_iff_missing (hpos : ∀ f, 0 < numPackets files f)
    (hs : srv.Ok (numPackets files)) : srv.Done ↔ missing files srv = ∅ := by
  constructor
  · intro hdone
    refine Finset.eq_empty_of_forall_notMem fun k hk => mem_missing.mp hk (.inl (hdone k.1))
  · intro hempty f
    refine hs.saved_of_has (hpos f) fun i hi => ?_
    by_contra hmiss
    have hmem : (⟨f, ⟨i, hi⟩⟩ : (f : Fin numFiles) × Fin (numPackets files f)) ∈
        missing files srv := mem_missing.mpr hmiss
    rw [hempty] at hmem
    exact Finset.notMem_empty _ hmem

end Missing

/-! ## 3. Steps that lead on -/

/-- The server is about to end, or an ack in flight says what it has got of a file. -/
def Fresh (s : Sys) : Prop :=
  s.server.pc = .finishing ∨ s.server.pc ≠ .finishing ∧
    ∃ f junk, s.server.fileSaved (Fin.castSucc f) = false ∧ s.server.ack junk f ∈ s.toClient

section Leads

variable {m : Memory} {files : Files} {n : Fin numFiles → Nat} {srv : Server} {s t : Sys}
  {l : Label} {i f : Fin numFiles} {p : Packet} {a : Ack} {junk : Fin numFiles → Nat → Bool}

theorem leads_of_step (h : Step files s l t) (hl : Intact s l) (hm : m.Holds s l) :
    (m.transfer files).Leads s t :=
  Lts.Leads.of_step (M := m.transfer files) ⟨⟨hl, hm⟩, h⟩

theorem silent_iff_stuck (h : s.client = .waiting) : m.Silent files s ↔ Stuck s :=
  ⟨fun hs => ⟨hs.quiet, h, hs.server⟩, fun hs => ⟨hs.quiet, hs.server, .inl h⟩⟩

/-- The state after a file of `init_send`. -/
def Memory.init (m : Memory) (files : Files) (s : Sys) (i : Fin numFiles) : Sys :=
  s.clientMoves (initNext i) (sendFile (BitVec.ofNat 16 i) (files i) m.stored (m.buffer s))

theorem leads_init (h : s.client = .initSend i) : (m.transfer files).Leads s (m.init files s i) :=
  leads_of_step (.initSend h) (fun _ _ _ h => by cases h) ⟨rfl, rfl⟩

/-- Nothing is sent from here on just if nothing is sent from the next file on, and none of this
one. -/
theorem silent_init_iff (h : s.client = .initSend i) :
    m.Silent files (m.init files s i) ↔ m.Silent files s := by
  have hnil : sendFile (BitVec.ofNat 16 i) (files i) m.stored (m.buffer s) = [] ↔
      ∀ p < numPackets files i, m.stored p = true := by
    rw [sendFile_eq_nil (toNat_ofFile i)]
    simp
  constructor
  · intro hs
    obtain ⟨hsent, hto⟩ := coe_add_eq_zero.mp hs.quiet.1
    have hthis := hnil.mp hsent
    refine ⟨⟨hto, hs.quiet.2⟩, hs.server, .inr ⟨i, h, fun f hle p hp => ?_⟩⟩
    rcases eq_or_lt_of_le hle with rfl | hlt
    · exact hthis p hp
    · rcases hs.client with hwaiting | ⟨j, hj, hlater⟩
      · have hlast : i.1 + 1 = numFiles := initNext_waiting.mp hwaiting
        omega
      · have hnext : initNext i = .initSend j := hj
        unfold initNext at hnext
        split at hnext
        · cases hnext
          exact hlater f hlt p hp
        · cases hnext
  · intro hs
    have hleft : ∀ f, i ≤ f → ∀ p < numPackets files f, m.stored p = true := by
      rcases hs.client with hwaiting | ⟨j, hj, hleft⟩
      · rw [h] at hwaiting
        cases hwaiting
      · rw [h] at hj
        cases hj
        exact hleft
    refine ⟨⟨coe_add_eq_zero.mpr ⟨hnil.mpr (hleft i (le_refl i)), hs.quiet.1⟩, hs.quiet.2⟩,
      hs.server, ?_⟩
    by_cases hlt : i.1 + 1 < numFiles
    · exact .inr ⟨⟨i.1 + 1, hlt⟩, dif_pos hlt, fun f hle => hleft f (Nat.le_of_succ_le hle)⟩
    · exact .inl (dif_neg hlt)

/-- `init_send` can be finished. -/
theorem leads_waiting (h : s.client = .initSend i) :
    ∃ t, (m.transfer files).Leads s t ∧ t.client = .waiting ∧ t.server = s.server ∧
      (m.Silent files t ↔ m.Silent files s) := by
  obtain ⟨k, hk⟩ : ∃ k, i.1 + 1 + k = numFiles := ⟨numFiles - (i + 1), by omega⟩
  induction k generalizing s i with
  | zero => exact ⟨_, leads_init h, initNext_waiting.mpr hk, rfl, silent_init_iff h⟩
  | succ k ih =>
    have hlt : i.1 + 1 < numFiles := by omega
    have hnext : (m.init files s i).client = .initSend ⟨i.1 + 1, hlt⟩ := dif_pos hlt
    obtain ⟨t, hst, hwaiting, hserver, hsilent⟩ := ih hnext
      (by show i.1 + 1 + 1 + k = numFiles; omega)
    exact ⟨t, (leads_init h).trans hst, hwaiting, hserver, hsilent.trans (silent_init_iff h)⟩

@[simp] theorem serverMoves_client (s : Sys) (srv : Server) (saved : List StoreFile)
    (sent : List Ack) : (s.serverMoves srv saved sent).client = s.client := by
  unfold Sys.serverMoves
  rfl

/-- Behind the inner loop. -/
theorem fresh_of_leave (hs : srv.leave.Ok n) (s : Sys) (saved : List StoreFile)
    (junk : Fin numFiles → Nat → Bool) :
    Fresh (s.serverMoves srv.leave saved (srv.leave.requests junk)) := by
  rcases leave_pc srv with hpc | hpc
  · have hne : srv.leave.pc ≠ .finishing := by
      rw [hpc]
      exact ServerPc.noConfusion
    have hnonempty : srv.leave.requests junk ≠ [] := requests_ne_nil hs hpc
    obtain ⟨a, ha⟩ := List.exists_mem_of_ne_nil _ hnonempty
    obtain ⟨f, hv, rfl⟩ := mem_requests ha
    have hmem : srv.leave.ack junk f ∈ (srv.leave.requests junk : Multiset Ack) + s.toClient :=
      Multiset.mem_add.mpr (.inl (Multiset.mem_coe.mpr ha))
    exact .inr ⟨hne, f, junk, hv, hmem⟩
  · exact .inl hpc

/-- The time-out at the second `recvfrom`. -/
theorem leads_timeout (hs : s.Inv files) (hpc : s.server.pc = .inner) :
    ∃ t, (m.transfer files).Leads s t ∧ t.client = s.client ∧ Fresh t := by
  have hlead := leads_of_step (m := m) (Step.leave files hpc (m.junk s)) (fun _ _ _ h => by cases h)
    rfl
  exact ⟨_, hlead, serverMoves_client _ _ _ _, fresh_of_leave hs.server.leave s [] _⟩

/-- A packet in flight makes the server send its acks. -/
theorem leads_packet (h : (intact files).Reachable s) (hpc : s.server.pc ≠ .finishing)
    (hp : p ∈ s.toServer) : ∃ t, (m.transfer files).Leads s t ∧ t.client = s.client ∧ Fresh t := by
  have hs := transfer_inv h.of_restrict
  obtain ⟨f, hgen⟩ := hs.toServer p hp
  obtain ⟨t, saved, hout, harrive⟩ := hs.arrive hpc hp hgen (m.junk s)
  have hstep := leads_of_step (m := m) harrive (fun _ _ _ h => by cases h) rfl
  have hok := hout.ok hs.server hgen.toHeader
  have hinner : t.pc = .inner →
      ∃ u, (m.transfer files).Leads s u ∧ u.client = s.client ∧ Fresh u := by
    intro ht
    obtain ⟨u, htu, hu⟩ := leads_timeout (transfer_inv (reachable_leads h hstep).of_restrict) ht
    exact ⟨u, hstep.trans htu, hu⟩
  cases hout with
  | known hv => exact ⟨_, hstep, serverMoves_client _ _ _ _, fresh_of_leave hok _ _ _⟩
  | again hv hslot => exact hinner rfl
  | kept hmiss hl hm => exact hinner rfl
  | complete hmiss hl hall => exact ⟨_, hstep, serverMoves_client _ _ _ _, fresh_of_leave hok _ _ _⟩

/-- An ack makes the client send the packets it asks for. -/
theorem leads_ack (hc : s.client = .waiting) (ha : a ∈ s.toClient) (hf : a.fileNumber.toNat = f)
    {j : Nat} (hj : j < numPackets files f) (hfit : j < maxPackets)
    (hbit : a.storedPacket[j]? ≠ some true) :
    ∃ t p, (m.transfer files).Leads s t ∧ t.client = .waiting ∧ t.server = s.server ∧
      p ∈ t.toServer ∧ Genuine files f p ∧ p.packetNumber.toNat = j := by
  -- the bit is one of the ack, and not of the stack behind it
  have hclear : a.bit (m.stack s) j = false := by
    have hlt : j < a.storedPacket.length := a.size ▸ hfit
    rw [List.getElem?_eq_getElem hlt] at hbit
    unfold Ack.bit
    rw [List.getD_eq_getElem?_getD, List.getElem?_eq_getElem hlt, Option.getD_some]
    exact Bool.eq_false_of_not_eq_true (mt (congrArg some) hbit)
  obtain ⟨p, hp, hnum⟩ := sendFile_complete a.fileNumber (m.buffer s) hj hclear
  have hstep : Step files s (.ack a (m.stack s) (m.buffer s)) _ := .ack hc ha
  rw [onAck_file hf] at hstep
  dsimp only at hstep
  have hlead := leads_of_step (m := m) hstep (fun _ _ _ h => by cases h) ⟨rfl, rfl⟩
  exact ⟨_, p, hlead, rfl, rfl, Multiset.mem_add.mpr (.inl (Multiset.mem_coe.mpr hp)),
    (mem_sendFile hf hp).1, hnum⟩

/-- Every file has packets, and no more than an ack has bits. -/
theorem Fits.numPackets (hfit : Fits files) (f : Fin numFiles) :
    0 < numPackets files f ∧ numPackets files f ≤ maxPackets := by
  have hle := hfit f
  rw [numPackets_eq (Nat.lt_of_le_of_lt hle (by decide))]
  exact ⟨Nat.succ_pos _, hle⟩

/-- Unless nothing is sent any more, the server can be made to say what it has got. -/
theorem leads_fresh (hfit : Fits files) (h : (intact files).Reachable s)
    (hns : ¬ m.Silent files s) (hmissing : ¬ s.server.Done) :
    ∃ t, (m.transfer files).Leads s t ∧ t.client = .waiting ∧ Fresh t := by
  have hs := transfer_inv h.of_restrict
  have hpos : ∀ f, 0 < numPackets files f := fun f => (hfit.numPackets f).1
  -- the client waits, and something is in flight, or the server is at its second `recvfrom`
  obtain ⟨u, hsu, hclient, hserver, hns⟩ : ∃ u, (m.transfer files).Leads s u ∧
      u.client = .waiting ∧ u.server = s.server ∧ ¬ Stuck u := by
    cases hc : s.client with
    | waiting => exact ⟨s, .refl, hc, rfl, mt (silent_iff_stuck hc).mpr hns⟩
    | finished => exact absurd (hs.finished hc) hmissing
    | failed => exact absurd hc hs.not_failed
    | initSend i =>
      obtain ⟨u, hsu, hclient, hserver, hsilent⟩ := leads_waiting (m := m) hc
      exact ⟨u, hsu, hclient, hserver, fun hstuck =>
        hns (hsilent.mp ((silent_iff_stuck hclient).mpr hstuck))⟩
  have hu := reachable_leads h hsu
  have huinv := transfer_inv hu.of_restrict
  have hfresh : ∀ {v}, (m.transfer files).Leads u v → v.client = .waiting →
      v.server = s.server → (∃ p, p ∈ v.toServer) →
        ∃ t, (m.transfer files).Leads s t ∧ t.client = .waiting ∧ Fresh t := by
    intro v huv hv hsame hp
    obtain ⟨p, hp⟩ := hp
    have hne : v.server.pc ≠ .finishing := by
      rw [hsame]
      exact fun hfin => hmissing (done_of_finishing hs.server hfin)
    obtain ⟨t, hvt, ht, hfresh⟩ := leads_packet (m := m) (reachable_leads hu huv) hne hp
    exact ⟨t, hsu.trans (huv.trans hvt), ht.trans hv, hfresh⟩
  cases hpc : u.server.pc with
  | finishing => exact absurd (done_of_finishing huinv.server hpc) (hserver ▸ hmissing)
  | inner =>
    obtain ⟨t, hut, ht, hfresh⟩ := leads_timeout (m := m) huinv hpc
    exact ⟨t, hsu.trans hut, ht.trans hclient, hfresh⟩
  | outer =>
    by_cases hto : u.toServer = 0
    · by_cases hfrom : u.toClient = 0
      · exact absurd ⟨⟨hto, hfrom⟩, hclient, hpc⟩ hns
      · obtain ⟨a, ha⟩ := Multiset.exists_mem_of_ne_zero hfrom
        rcases transfer_asks hpos hu.of_restrict a ha with hfin | ⟨f, hf, j, hj, hbit⟩
        · rcases huinv.built a (huinv.toClient a ha) with ⟨-, hdone⟩ | ⟨g, hg, -⟩
          · exact absurd hdone (hserver ▸ hmissing)
          · exact absurd hfin (ne_of_file (by decide) hg)
        · obtain ⟨v, p, huv, hv, hsame, hp, -⟩ := leads_ack (m := m) hclient ha hf hj
            (Nat.lt_of_lt_of_le hj (hfit.numPackets f).2) hbit
          exact hfresh huv hv (hsame.trans hserver) ⟨p, hp⟩
    · exact hfresh .refl hclient hserver (Multiset.exists_mem_of_ne_zero hto)

/-- **An ack that is up to date brings a packet that is missing.** -/
theorem leads_closer (hfit : Fits files) (h : (intact files).Reachable s)
    (hc : s.client = .waiting) (hpc : s.server.pc ≠ .finishing)
    (hv : s.server.fileSaved f.castSucc = false) (ha : s.server.ack junk f ∈ s.toClient) :
    ∃ t, (m.transfer files).Leads s t ∧ ¬ m.Silent files t ∧
      (missing files t.server).card < (missing files s.server).card := by
  have hs := transfer_inv h.of_restrict
  obtain ⟨hpos, hle⟩ := hfit.numPackets f
  obtain ⟨j, hj, hmiss⟩ := exists_missing hs.server hpos hv
  obtain ⟨u, p, hsu, hclient, hserver, hp, hgen, hnum⟩ := leads_ack (m := m) hc ha (toNat_ofFile f)
    hj (Nat.lt_of_lt_of_le hj hle) (ack_bit_of_missing hs.server hv hj hmiss)
  have huinv := transfer_inv (reachable_leads h hsu).of_restrict
  obtain ⟨t, saved, hout, harrive⟩ := huinv.arrive (hserver ▸ hpc) hp hgen (m.junk u)
  have hlead := hsu.trans (leads_of_step (m := m) harrive (fun _ _ _ h => by cases h) rfl)
  have hok := hout.ok huinv.server hgen.toHeader
  have hstuck := not_stuck_of_requests (s := { u with toServer := u.toServer.erase p }) hok saved
    (m.junk u)
  refine ⟨_, hlead, fun hsilent => hstuck ((silent_iff_stuck ?_).mp hsilent), ?_⟩
  · rw [serverMoves_client]
    exact hclient
  refine Finset.card_lt_card ((Finset.ssubset_iff_of_subset (leads_missing h hlead)).mpr
    ⟨⟨f, ⟨j, hj⟩⟩, mem_missing.mpr hmiss, fun hmem => mem_missing.mp hmem ?_⟩)
  exact (hout.has huinv.server hgen.toHeader hj).mpr (.inr ⟨rfl, hnum.symm⟩)

/-- All files can be saved. -/
theorem leads_done (hfit : Fits files) (h : (intact files).Reachable s)
    (hns : ¬ m.Silent files s) : ∃ t, (m.transfer files).Leads s t ∧ t.server.Done := by
  have hpos : ∀ f, 0 < numPackets files f := fun f => (hfit.numPackets f).1
  have hcloser : ∀ u, (intact files).Reachable u ∧ ¬ m.Silent files u → ¬ u.server.Done →
      ∃ t, (m.transfer files).Leads u t ∧ ((intact files).Reachable t ∧ ¬ m.Silent files t) ∧
        (missing files t.server).card < (missing files u.server).card := by
    intro u ⟨hu, hns⟩ hmissing
    obtain ⟨v, huv, hclient, hfresh⟩ := leads_fresh hfit hu hns hmissing
    have hv := reachable_leads hu huv
    have hle := Finset.card_le_card (leads_missing hu huv)
    rcases hfresh with hfin | ⟨hpc, f, junk, hunsaved, ha⟩
    · -- everything is saved already
      have hvinv := (transfer_inv hv.of_restrict).server
      have hempty := (done_iff_missing hpos hvinv).mp (done_of_finishing hvinv hfin)
      have hne := mt (done_iff_missing hpos (transfer_inv hu.of_restrict).server).mpr hmissing
      refine ⟨v, huv, ⟨hv, fun hsilent => ?_⟩, ?_⟩
      · rw [hsilent.server] at hfin
        cases hfin
      · rw [hempty, Finset.card_empty]
        exact Finset.card_pos.mpr (Finset.nonempty_iff_ne_empty.mpr hne)
    · obtain ⟨t, hvt, hns', hlt⟩ := leads_closer (m := m) hfit hv hclient hpc hunsaved ha
      exact ⟨t, huv.trans hvt, ⟨reachable_leads hv hvt, hns'⟩, by omega⟩
  obtain ⟨t, hst, -, hdone⟩ := Lts.leads_of_measure (G := fun t : Sys => t.server.Done)
    (fun t => (missing files t.server).card) hcloser ⟨h, hns⟩
  exact ⟨t, hst, hdone⟩

/-- Then the client can end. -/
theorem leads_finished (hfit : Fits files) (h : (intact files).Reachable s)
    (hdone : s.server.Done) :
    ∃ t, (m.transfer files).Leads s t ∧ t.client = .finished := by
  have hpos : ∀ f, 0 < numPackets files f := fun f => (hfit.numPackets f).1
  have hs := transfer_inv h.of_restrict
  by_cases hfinished : s.client = .finished
  · exact ⟨s, .refl, hfinished⟩
  obtain ⟨u, hsu, hclient, hserver⟩ : ∃ u, (m.transfer files).Leads s u ∧ u.client = .waiting ∧
      u.server = s.server := by
    cases hc : s.client with
    | waiting => exact ⟨s, .refl, hc, rfl⟩
    | finished => exact absurd hc hfinished
    | failed => exact absurd hc hs.not_failed
    | initSend i =>
      obtain ⟨u, hsu, hclient, hserver, -⟩ := leads_waiting (m := m) hc
      exact ⟨u, hsu, hclient, hserver⟩
  have houter : ∀ {srv : Server}, srv.Ok (numPackets files) → srv.Done → srv.pc ≠ .outer := by
    intro srv hok hdone hpc
    obtain ⟨f, -, hv⟩ := unsaved_of_outer hok hpc
    rw [hdone f] at hv
    cases hv
  -- the server sends `FINISH`
  obtain ⟨v, huv, hclient, hpc⟩ : ∃ v, (m.transfer files).Leads u v ∧ v.client = .waiting ∧
      v.server.pc = .finishing := by
    have hu := transfer_inv (reachable_leads h hsu).of_restrict
    cases hpc : u.server.pc with
    | finishing => exact ⟨u, .refl, hclient, hpc⟩
    | outer => exact absurd hpc (houter hu.server (hserver ▸ hdone))
    | inner =>
      obtain ⟨v, huv, hv, hfin | ⟨-, f, junk, hunsaved, -⟩⟩ := leads_timeout (m := m) hu hpc
      · exact ⟨v, huv, hv.trans hclient, hfin⟩
      · have hsub := leads_missing (reachable_leads h hsu) huv
        have hvinv := transfer_inv (reachable_leads (reachable_leads h hsu) huv).of_restrict
        have hempty := (done_iff_missing hpos hu.server).mp (hserver ▸ hdone)
        rw [hempty, Finset.subset_empty, ← done_iff_missing hpos hvinv.server] at hsub
        rw [hsub f] at hunsaved
        cases hunsaved
  have hfinish : Step files v .finish _ := .finish hpc
  let w := v.serverMoves v.server [] [finishAck]
  have hack : Step files w (.ack finishAck (m.stack w) (m.buffer w)) _ :=
    .ack ((serverMoves_client _ _ _ _).trans hclient)
      (Multiset.mem_add.mpr (.inl (Multiset.mem_coe.mpr List.mem_cons_self)))
  rw [onAck_finish rfl] at hack
  have hvw := leads_of_step (m := m) hfinish (fun _ _ _ h => by cases h) trivial
  have hend := leads_of_step (m := m) hack (fun _ _ _ h => by cases h) ⟨rfl, rfl⟩
  exact ⟨_, hsu.trans (huv.trans (hvw.trans hend)), rfl⟩

end Leads

/-! ## 4. Completion -/

section Completion

variable {m : Memory} {files : Files} {s s' t : Sys} {l : Label}

/-- Once nothing is sent any more, nothing is sent ever after. -/
theorem Memory.Silent.step (h : m.Silent files s) (hs : (m.transfer files).step s l s') :
    m.Silent files s' := by
  obtain ⟨⟨-, hm⟩, hstep⟩ := hs
  rcases h.client with hclient | ⟨i, hclient, hleft⟩
  · have hstuck := (silent_iff_stuck hclient).mp h
    rw [hstuck.forever hstep]
    exact h
  · cases hstep with
    | initSend hc =>
      obtain ⟨rfl, rfl⟩ := hm
      exact (silent_init_iff hc).mpr h
    | ack hc =>
      rw [hclient] at hc
      cases hc
    | clientTimeout hc =>
      rw [hclient] at hc
      cases hc
    | packet hpc hp =>
      rw [h.quiet.1] at hp
      exact absurd hp (Multiset.notMem_zero _)
    | serverTimeout hpc =>
      have hne : s.server.pc ≠ .inner := by
        rw [h.server]
        exact ServerPc.noConfusion
      rw [onTimeout_of_ne hne, serverMoves_self]
      exact h
    | finish hpc =>
      rw [h.server] at hpc
      cases hpc
    | toServer hc => exact absurd h.quiet.1 hc.ne_zero
    | toClient hc => exact absurd h.quiet.2 hc.ne_zero

theorem Memory.Silent.leads (h : m.Silent files s) (hst : (m.transfer files).Leads s t) :
    m.Silent files t := by
  induction hst with
  | refl => exact h
  | tail _ hstep ih =>
    obtain ⟨l, hl⟩ := hstep
    exact ih.step hl

/-- **The transfer can be completed**, with every file saved as it is and the client ended, from
    exactly those states in which something is still sent, whatever the memory holds that was never
    set. -/
theorem completes_iff (hfit : Fits files) (h : (intact files).Reachable s) (m : Memory) :
    (∃ t, (m.transfer files).Leads s t ∧ t.client = .finished ∧ ∀ f, (f, files f) ∈ t.saved) ↔
      ¬ m.Silent files s := by
  constructor
  · intro hcompletes hsilent
    obtain ⟨t, hst, hfinished, -⟩ := hcompletes
    rcases (hsilent.leads hst).client with hclient | ⟨i, hclient, -⟩
    · rw [hfinished] at hclient
      cases hclient
    · rw [hfinished] at hclient
      cases hclient
  · intro hns
    obtain ⟨u, hsu, hdone⟩ := leads_done hfit h hns
    obtain ⟨t, hut, hfinished⟩ := leads_finished (m := m) hfit (reachable_leads h hsu) hdone
    have ht := reachable_leads (reachable_leads h hsu) hut
    have htinv := transfer_inv ht.of_restrict
    refine ⟨t, hsu.trans hut, hfinished, fun f => ?_⟩
    have hmem := (htinv.saved_iff f).mpr (htinv.finished hfinished f)
    obtain ⟨⟨g, content⟩, hcall, rfl⟩ := List.mem_map.mp hmem
    exact saved_content hfit ht _ hcall ▸ hcall

/-- A memory in which all bits are alike, and all bytes zero. -/
def Memory.uniform (b : Bool) : Memory where
  stored _ := b
  stack _ _ := b
  buffer _ := .zeros
  junk _ _ _ := b

/-- One file has two bytes, and the others have none. Before the first one is sent: with bits that
are set nothing is ever saved, with others everything can be. -/
theorem completes_iff_start : let files : Files := fun f => if f.1 = 0 then [104, 105] else []
    (¬ ∃ t, ((Memory.uniform true).transfer files).Leads .start t ∧ t.client = .finished ∧
      ∀ f, (f, files f) ∈ t.saved) ∧
    ∃ t, ((Memory.uniform false).transfer files).Leads .start t ∧ t.client = .finished ∧
      ∀ f, (f, files f) ∈ t.saved := by
  intro files
  have hfit : Fits files := fun f => by
    by_cases h : f.1 = 0 <;> simp [files, h, packetSize, maxPackets]
  have hstart : (intact files).Reachable .start := ⟨[], .start rfl⟩
  constructor
  · rw [completes_iff hfit hstart, not_not]
    exact ⟨⟨rfl, rfl⟩, rfl, .inr ⟨_, rfl, fun _ _ _ _ => rfl⟩⟩
  · rw [completes_iff hfit hstart]
    intro hsilent
    rcases hsilent.client with hclient | ⟨i, -, hleft⟩
    · cases hclient
    · exact Bool.noConfusion (hleft i (le_refl i) 0 (hfit.numPackets i).1)

end Completion

end InpLabs.Udp
