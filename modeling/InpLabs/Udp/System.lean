/-
  File:      InpLabs/Udp/System.lean
  Subject:   Client, server and the network between them.

  * `Sys`, `Step`, `transfer`: the two processes and the datagrams in flight. The network loses and
    duplicates them, delivers them in any order, and may flip a bit of a packet on the way. What the
    programs read without having set it is chosen by the step;
  * `Sys.Inv`, `transfer_inv`: the invariant. It holds whatever is corrupted, for the checksum
    leaves the headers right;
  * `Sys.Exact`, `transfer_exact`: the data is right as long as no packet with a wrong `length`
    fills a slot.
-/
import InpLabs.Lib.Channel
import InpLabs.Lib.Lts
import InpLabs.Udp.Assembly

namespace InpLabs.Udp

open InpLabs.Lib

/-! ## 1. The system -/

/-- The processes, the datagrams in flight, and what has happened: the calls of `store_file` and
    the acks that were built, each with the last one first. -/
structure Sys where
  client : ClientPc
  server : Server
  toServer : Multiset Packet
  toClient : Multiset Ack
  saved : List StoreFile
  built : List Ack

def Sys.start : Sys where
  client := .initSend ⟨0, Nat.succ_pos _⟩
  server := .new
  toServer := 0
  toClient := 0
  saved := []
  built := []

/-- What a step does, with the bits and bytes that were never set: those of the bitmap, of the
    stack behind it, of the array of the packet, and of the vectors behind their end. -/
inductive Label where
  | initSend (stored : Nat → Bool) (buffer : Buffer)
  | ack (a : Ack) (stack : Nat → Bool) (buffer : Buffer)
  | clientTimeout (a : Ack) (stack : Nat → Bool) (buffer : Buffer)
  | packet (p : Packet) (flip : Option Nat) (junk : Fin numFiles → Nat → Bool)
  | serverTimeout (junk : Fin numFiles → Nat → Bool)
  | finish
  | network (e : Channel.Event)

/-- The client goes on to `pc` and sends. -/
def Sys.clientMoves (s : Sys) (pc : ClientPc) (sent : List Packet) : Sys :=
  { s with client := pc, toServer := sent + s.toServer }

/-- The server goes on to `t`, writes files and sends. -/
def Sys.serverMoves (s : Sys) (t : Server) (saved : List StoreFile) (sent : List Ack) : Sys :=
  { s with
    server := t
    toClient := sent + s.toClient
    saved := saved ++ s.saved
    built := sent ++ s.built }

/-- A packet as it arrives. -/
def Packet.corrupt (p : Packet) : Option Nat → Packet
  | none => p
  | some k => p.flip k

/-- One step. A fault of the server has no step: nothing is said about what happens then. -/
inductive Step (files : Files) : Sys → Label → Sys → Prop where
  | initSend {s : Sys} {i : Fin numFiles} {stored : Nat → Bool} {buffer : Buffer}
      (h : s.client = .initSend i) :
      Step files s (.initSend stored buffer)
        (s.clientMoves (initNext i) (sendFile (BitVec.ofNat 16 i) (files i) stored buffer))
  | ack {s : Sys} {a : Ack} {stack : Nat → Bool} {buffer : Buffer} (h : s.client = .waiting)
      (ha : a ∈ s.toClient) :
      Step files s (.ack a stack buffer)
        ({ s with toClient := s.toClient.erase a }.clientMoves (onAck files a stack buffer).1
          (onAck files a stack buffer).2)
  | clientTimeout {s : Sys} {a : Ack} {stack : Nat → Bool} {buffer : Buffer}
      (h : s.client = .waiting) (ha : a.fileNumber = noAck) :
      Step files s (.clientTimeout a stack buffer)
        (s.clientMoves (onAck files a stack buffer).1 (onAck files a stack buffer).2)
  | packet {s : Sys} {p : Packet} {flip : Option Nat} {junk : Fin numFiles → Nat → Bool}
      {t : Server} {saved : List StoreFile} (hpc : s.server.pc ≠ .finishing) (hp : p ∈ s.toServer)
      (hflip : ∀ k ∈ flip, k < datagramBits)
      (hr : s.server.onPacket (p.corrupt flip) = .ok (t, saved)) :
      Step files s (.packet p flip junk)
        ({ s with toServer := s.toServer.erase p }.serverMoves t saved (t.requests junk))
  | serverTimeout {s : Sys} {junk : Fin numFiles → Nat → Bool} (hpc : s.server.pc ≠ .finishing) :
      Step files s (.serverTimeout junk)
        (s.serverMoves (s.server.onTimeout junk).1 [] (s.server.onTimeout junk).2)
  | finish {s : Sys} (hpc : s.server.pc = .finishing) :
      Step files s .finish (s.serverMoves s.server [] [finishAck])
  | toServer {s : Sys} {e : Channel.Event} {c : Multiset Packet}
      (h : Channel.Step s.toServer e c) : Step files s (.network e) { s with toServer := c }
  | toClient {s : Sys} {e : Channel.Event} {c : Multiset Ack}
      (h : Channel.Step s.toClient e c) : Step files s (.network e) { s with toClient := c }

/-- The transfer of the files. -/
def transfer (files : Files) : Lts Sys Label where
  init s := s = .start
  step := Step files

/-! ## 2. The invariant -/

/-- All files are saved. -/
def Server.Done (s : Server) : Prop := ∀ f : Fin numFiles, s.fileSaved f.castSucc = true

/-- What an ack says: that all files are saved, or the number of a file, with bits that are true of
    the packets the file has. -/
def AckOk (n : Fin numFiles → Nat) (s : Server) (a : Ack) : Prop :=
  (a.fileNumber = finish ∧ s.Done) ∨ ∃ f : Fin numFiles, a.fileNumber.toNat = f ∧
    ∀ i < n f, a.storedPacket[i]? = some true → s.Has f i

structure Sys.Inv (files : Files) (s : Sys) : Prop where
  server : s.server.Ok (numPackets files)
  toServer : ∀ p ∈ s.toServer, ∃ f, Genuine files f p
  toClient : ∀ a ∈ s.toClient, a ∈ s.built
  built : ∀ a ∈ s.built, AckOk (numPackets files) s.server a
  not_failed : s.client ≠ .failed
  finished : s.client = .finished → s.server.Done
  saved_nodup : (s.saved.map Prod.fst).Nodup
  saved_iff : ∀ f, f ∈ s.saved.map Prod.fst ↔ s.server.fileSaved f.castSucc = true

/-- The server's progress in one step. -/
structure Progress (n : Fin numFiles → Nat) (s t : Server) (saved : List StoreFile) : Prop where
  ok : t.Ok n
  has : ∀ g, ∀ i < n g, s.Has g i → t.Has g i
  storeFile : (saved = [] ∧ t.fileSaved = s.fileSaved) ∨
    ∃ f c, saved = [(f, c)] ∧ s.fileSaved f.castSucc = false ∧
      t.fileSaved = Function.update s.fileSaved f.castSucc true

section Server

variable {n : Fin numFiles → Nat} {s t : Server} {f : Fin numFiles} {p : Packet}
  {saved : List StoreFile} {junk : Fin numFiles → Nat → Bool} {a : Ack}

theorem Progress.fileSaved (h : Progress n s t saved) (hf : s.fileSaved f.castSucc = true) :
    t.fileSaved f.castSucc = true := by
  rcases h.storeFile with ⟨-, heq⟩ | ⟨g, c, -, -, heq⟩
  · rw [heq]
    exact hf
  · rw [heq, Function.update_apply]
    split
    · rfl
    · exact hf

theorem Progress.done (h : Progress n s t saved) (hs : s.Done) : t.Done :=
  fun f => h.fileSaved (hs f)

theorem Progress.refl (hs : s.Ok n) : Progress n s s [] :=
  ⟨hs, fun _ _ _ h => h, .inl ⟨rfl, rfl⟩⟩

theorem Progress.leave (hs : s.Ok n) : Progress n s s.leave [] :=
  ⟨hs.leave, fun _ _ _ h => (leave_has s).mpr h, .inl ⟨rfl, (leave_frame s).2.2.2⟩⟩

theorem Outcome.progress (hs : s.Ok n) (hp : Header n f p) (h : Outcome s f p t saved) :
    Progress n s t saved := by
  refine ⟨h.ok hs hp, fun g i hi hhas => (h.has hs hp hi).mpr (.inl hhas), ?_⟩
  rcases h.storeFile with hnone | ⟨c, hsome⟩
  · exact .inl hnone
  · exact .inr ⟨f, c, hsome⟩

theorem onTimeout_inner (h : s.pc = .inner) (junk : Fin numFiles → Nat → Bool) :
    s.onTimeout junk = (s.leave, s.leave.requests junk) := by
  unfold Server.onTimeout
  rw [h]

theorem onTimeout_of_ne (h : s.pc ≠ .inner) (junk : Fin numFiles → Nat → Bool) :
    s.onTimeout junk = (s, []) := by
  unfold Server.onTimeout
  split
  · rename_i heq
    exact absurd heq h
  · rfl

theorem onTimeout_progress (hs : s.Ok n) :
    Progress n s (s.onTimeout junk).1 [] := by
  by_cases h : s.pc = .inner
  · rw [onTimeout_inner h]
    exact .leave hs
  · rw [onTimeout_of_ne h]
    exact .refl hs

theorem AckOk.mono (h : Progress n s t saved) (ha : AckOk n s a) : AckOk n t a := by
  rcases ha with ⟨hfin, hdone⟩ | ⟨f, hf, hbits⟩
  · exact .inl ⟨hfin, h.done hdone⟩
  · exact .inr ⟨f, hf, fun i hi hbit => h.has f i hi (hbits i hi hbit)⟩

/-- The window is over when the server sends `FINISH`. -/
theorem done_of_finishing (hs : s.Ok n) (h : s.pc = .finishing) : s.Done := by
  intro f
  have hstart := hs.window.finishing.mp h
  exact hs.saved_of_lt (by omega)

theorem toNat_ofFile (f : Fin numFiles) : (BitVec.ofNat 16 f.1).toNat = f.1 := by
  have hlt : f.1 < 1000 := f.isLt
  exact word_toNat (by omega)

/-- The bits of an ack that stand for packets of the file are right. -/
theorem ack_ok (hs : s.Ok n) (hv : s.fileSaved f.castSucc = false) : AckOk n s (s.ack junk f) := by
  refine .inr ⟨f, toNat_ofFile f, fun i hi hbit => .inr ?_⟩
  unfold Server.ack at hbit
  simp only [List.getElem?_map] at hbit
  obtain ⟨j, hj, hbit⟩ := Option.map_eq_some_iff.mp hbit
  obtain ⟨hlt, hj⟩ := List.getElem?_eq_some_iff.mp hj
  rw [List.getElem_range] at hj
  subst hj
  cases hs.file f with
  | untouched he hv' hslots hd => simp [hslots] at hbit
  | receiving he hv' hslots hd hm =>
    have hlt : i < (s.storedPacket f).length := hslots ▸ hi
    split at hbit
    · cases hbit
    · rw [List.getD_eq_getElem?_getD, List.getElem?_eq_getElem hlt, Option.getD_some] at hbit
      rw [List.getElem?_eq_getElem hlt, hbit]
  | written he hv' hslots hd =>
    rw [hv] at hv'
    cases hv'

/-- On the way to the first `recvfrom` every file that is not saved is asked for. -/
theorem ack_mem_requests (hs : s.Ok n) (hpc : s.pc = .outer)
    (hv : s.fileSaved f.castSucc = false) (junk : Fin numFiles → Nat → Bool) :
    s.ack junk f ∈ s.requests junk := by
  have hmem : f ∈ s.unsaved := by
    refine List.mem_filter.mpr ⟨List.mem_finRange f, ?_⟩
    simp [hs.start_le_unsaved hv, hs.window.endFile_eq, hv]
  unfold Server.requests
  rw [hpc]
  exact List.mem_map_of_mem hmem

theorem requests_ok (hs : s.Ok n) (ha : a ∈ s.requests junk) : AckOk n s a := by
  unfold Server.requests at ha
  split at ha
  · obtain ⟨f, hf, rfl⟩ := List.mem_map.mp ha
    refine ack_ok hs ?_
    have hcond := (List.mem_filter.mp hf).2
    rw [Bool.and_eq_true, Bool.not_eq_true'] at hcond
    exact hcond.2
  · cases ha

theorem onTimeout_requests_ok (hs : s.Ok n) (ha : a ∈ (s.onTimeout junk).2) :
    AckOk n (s.onTimeout junk).1 a := by
  by_cases h : s.pc = .inner
  · rw [onTimeout_inner h] at ha ⊢
    dsimp only at ha ⊢
    exact requests_ok hs.leave ha
  · rw [onTimeout_of_ne h] at ha
    cases ha

end Server

section Client

variable {files : Files} {a : Ack} {stack : Nat → Bool} {buffer : Buffer} {f : Fin numFiles}

theorem onAck_noAck (h : a.fileNumber = noAck) : onAck files a stack buffer = (.waiting, []) :=
  if_pos h

theorem onAck_finish (h : a.fileNumber = finish) :
    onAck files a stack buffer = (.finished, []) := by
  have hne : a.fileNumber ≠ noAck := by
    rw [h]
    decide
  unfold onAck
  rw [if_neg hne, if_pos h]

/-- The number of a file is none of the marks. -/
theorem ne_of_file {mark : Word} (hmark : numFiles ≤ mark.toNat) (h : a.fileNumber.toNat = f) :
    a.fileNumber ≠ mark := by
  intro he
  rw [he] at h
  omega

theorem onAck_file (h : a.fileNumber.toNat = f) : onAck files a stack buffer =
    (.waiting, sendFile a.fileNumber (files f) (a.bit stack) buffer) := by
  have hne : a.fileNumber ≠ noAck := ne_of_file (by decide) h
  have hne' : a.fileNumber ≠ finish := ne_of_file (by decide) h
  have hopen : openFile files a.fileNumber = some (files f) := by
    unfold openFile
    rw [dif_pos (h ▸ f.isLt)]
    exact congrArg (fun g => some (files g)) (Fin.ext h)
  unfold onAck
  rw [if_neg hne, if_neg hne', hopen]

theorem initNext_ne (i : Fin numFiles) : initNext i ≠ .failed ∧ initNext i ≠ .finished := by
  unfold initNext
  split <;> exact ⟨ClientPc.noConfusion, ClientPc.noConfusion⟩

end Client

section Inv

variable {files : Files} {s s' : Sys} {l : Label}

theorem start_inv (files : Files) : Sys.start.Inv files where
  server := Server.new_ok _
  toServer := by simp [Sys.start]
  toClient := by simp [Sys.start]
  built := by simp [Sys.start]
  not_failed := ClientPc.noConfusion
  finished h := ClientPc.noConfusion h
  saved_nodup := List.nodup_nil
  saved_iff f := by simp [Sys.start, Server.new]

/-- The client goes on and sends genuine packets. -/
theorem Sys.Inv.clientMoves (hs : s.Inv files) {pc : ClientPc} {sent : List Packet}
    (hpc : pc ≠ .failed) (hfin : pc = .finished → s.server.Done)
    (hsent : ∀ p ∈ sent, ∃ f, Genuine files f p) : (s.clientMoves pc sent).Inv files where
  server := hs.server
  toServer p hp := by
    rcases Multiset.mem_add.mp hp with hp | hp
    · exact hsent p hp
    · exact hs.toServer p hp
  toClient := hs.toClient
  built := hs.built
  not_failed := hpc
  finished := hfin
  saved_nodup := hs.saved_nodup
  saved_iff := hs.saved_iff

/-- The server goes on, and builds acks that are right. -/
theorem Sys.Inv.serverMoves (hs : s.Inv files) {t : Server} {saved : List StoreFile}
    {sent : List Ack} (h : Progress (numPackets files) s.server t saved)
    (hsent : ∀ a ∈ sent, AckOk (numPackets files) t a) :
    (s.serverMoves t saved sent).Inv files where
  server := h.ok
  toServer := hs.toServer
  toClient a ha := by
    rcases Multiset.mem_add.mp ha with ha | ha
    · exact List.mem_append_left _ ha
    · exact List.mem_append_right _ (hs.toClient a ha)
  built a ha := by
    rcases List.mem_append.mp ha with ha | ha
    · exact hsent a ha
    · exact (hs.built a ha).mono h
  not_failed := hs.not_failed
  finished hpc := h.done (hs.finished hpc)
  saved_nodup := by
    show ((saved ++ s.saved).map Prod.fst).Nodup
    rcases h.storeFile with ⟨rfl, -⟩ | ⟨f, c, rfl, hv, -⟩
    · exact hs.saved_nodup
    · refine List.nodup_cons.mpr ⟨fun hmem => ?_, hs.saved_nodup⟩
      have hv' := (hs.saved_iff f).mp hmem
      rw [hv] at hv'
      cases hv'
  saved_iff g := by
    show g ∈ (saved ++ s.saved).map Prod.fst ↔ t.fileSaved g.castSucc = true
    rcases h.storeFile with ⟨rfl, heq⟩ | ⟨f, c, rfl, -, heq⟩
    · rw [heq]
      exact hs.saved_iff g
    · have hcons : g ∈ ([(f, c)] ++ s.saved).map Prod.fst ↔ g = f ∨ g ∈ s.saved.map Prod.fst :=
        List.mem_cons
      rw [hcons, hs.saved_iff, heq, Function.update_apply]
      by_cases hg : g = f
      · simp [hg]
      · have hne : g.castSucc ≠ f.castSucc := (Fin.castSucc_injective _).ne hg
        rw [if_neg hne, or_iff_right hg]

/-- A genuine packet that arrives is rejected, or it is known for what it is. -/
theorem corrupt_cases {f : Fin numFiles} {p : Packet} (hp : Genuine files f p) {flip : Option Nat}
    (hflip : ∀ k ∈ flip, k < datagramBits) :
    (p.corrupt flip).checksum ≠ (p.corrupt flip).calculatedChecksum ∨
      (Header (numPackets files) f (p.corrupt flip) ∧
        (p.corrupt flip).checksum = (p.corrupt flip).calculatedChecksum) := by
  cases flip with
  | none => exact .inr ⟨hp.toHeader, hp.checksum⟩
  | some k =>
    have hiff := flip_checksum_iff hp.checksum (hflip k rfl)
    by_cases hk : LengthBit k
    · refine .inr ⟨?_, hiff.mpr hk⟩
      show Header (numPackets files) f (p.flip k)
      rw [flip_of_lengthBit p hk]
      exact ⟨hp.file, hp.total, hp.number⟩
    · exact .inl (mt hiff.mp hk)

/-- What a packet that arrives can do. -/
theorem arrival_cases {n : Fin numFiles → Nat} {srv t : Server} {f : Fin numFiles} {p : Packet}
    {saved : List StoreFile} (hs : srv.Ok n)
    (hp : p.checksum ≠ p.calculatedChecksum ∨
      (Header n f p ∧ p.checksum = p.calculatedChecksum))
    (hr : srv.onPacket p = .ok (t, saved)) :
    (t = srv.leave ∧ saved = []) ∨
      (Header n f p ∧ p.checksum = p.calculatedChecksum ∧ Outcome srv f p t saved) := by
  rcases hp with hrej | ⟨hhead, hcheck⟩
  · rw [onPacket_rejected srv hrej] at hr
    obtain ⟨rfl, rfl⟩ := Prod.mk.inj (Except.ok.inj hr)
    exact .inl ⟨rfl, rfl⟩
  · rcases onPacket_outcome (hs.file f) hhead hcheck with ⟨t', saved', hr', hout⟩ | ⟨hr', -⟩
    · rw [hr'] at hr
      obtain ⟨rfl, rfl⟩ := Prod.mk.inj (Except.ok.inj hr)
      exact .inr ⟨hhead, hcheck, hout⟩
    · rw [hr'] at hr
      cases hr

theorem arrival_progress {srv t : Server} {f : Fin numFiles} {p : Packet}
    {saved : List StoreFile} (hs : srv.Ok (numPackets files)) (hp : Genuine files f p)
    {flip : Option Nat} (hflip : ∀ k ∈ flip, k < datagramBits)
    (hr : srv.onPacket (p.corrupt flip) = .ok (t, saved)) :
    Progress (numPackets files) srv t saved := by
  rcases arrival_cases hs (corrupt_cases hp hflip) hr with ⟨rfl, rfl⟩ | ⟨hhead, -, hout⟩
  · exact .leave hs
  · exact hout.progress hs hhead

/-- An intact packet never is a fault. -/
theorem onPacket_genuine {srv : Server} {f : Fin numFiles} {p : Packet}
    (hs : srv.Ok (numPackets files)) (hp : Genuine files f p) :
    ∃ t saved, srv.onPacket p = .ok (t, saved) ∧ Outcome srv f p t saved := by
  have hle := hp.length_le
  rcases onPacket_outcome (hs.file f) hp.toHeader hp.checksum with h | ⟨-, -, hl⟩
  · exact h
  · omega

/-- A packet in flight can arrive intact. -/
theorem Sys.Inv.arrive (hs : s.Inv files) (hpc : s.server.pc ≠ .finishing) {f : Fin numFiles}
    {p : Packet} (hp : p ∈ s.toServer) (hgen : Genuine files f p)
    (junk : Fin numFiles → Nat → Bool) :
    ∃ t saved, Outcome s.server f p t saved ∧ Step files s (.packet p none junk)
      ({ s with toServer := s.toServer.erase p }.serverMoves t saved (t.requests junk)) := by
  obtain ⟨t, saved, hr, hout⟩ := onPacket_genuine hs.server hgen
  exact ⟨t, saved, hout, .packet hpc hp (by simp) hr⟩

/-- **One step keeps the invariant.** -/
theorem Step.inv (hs : s.Inv files) (h : Step files s l s') : s'.Inv files := by
  cases h with
  | @initSend i stored buffer h =>
    exact hs.clientMoves (initNext_ne i).1 (fun he => absurd he (initNext_ne i).2)
      fun p hp => ⟨i, (mem_sendFile (toNat_ofFile i) hp).1⟩
  | @ack a stack buffer h ha =>
    have hs' : Sys.Inv files { s with toClient := s.toClient.erase a } :=
      { hs with toClient := fun b hb => hs.toClient b (Multiset.mem_of_mem_erase hb) }
    rcases hs.built a (hs.toClient a ha) with ⟨hfin, hdone⟩ | ⟨f, hf, -⟩
    · rw [onAck_finish hfin]
      exact hs'.clientMoves ClientPc.noConfusion (fun _ => hdone) (by simp)
    · rw [onAck_file hf]
      exact hs'.clientMoves ClientPc.noConfusion ClientPc.noConfusion
        fun p hp => ⟨f, (mem_sendFile hf hp).1⟩
  | clientTimeout h ha =>
    rw [onAck_noAck ha]
    exact hs.clientMoves ClientPc.noConfusion ClientPc.noConfusion (by simp)
  | @packet p flip junk t saved hpc hp hflip hr =>
    have hs' : Sys.Inv files { s with toServer := s.toServer.erase p } :=
      { hs with toServer := fun q hq => hs.toServer q (Multiset.mem_of_mem_erase hq) }
    obtain ⟨f, hgen⟩ := hs.toServer p hp
    have hprog := arrival_progress hs.server hgen hflip hr
    exact hs'.serverMoves hprog fun a ha => requests_ok hprog.ok ha
  | serverTimeout hpc =>
    exact hs.serverMoves (onTimeout_progress hs.server) fun a ha =>
      onTimeout_requests_ok hs.server ha
  | finish hpc =>
    refine hs.serverMoves (.refl hs.server) fun a ha => .inl ⟨?_, done_of_finishing hs.server hpc⟩
    rw [List.mem_singleton.mp ha]
    rfl
  | toServer h => exact { hs with toServer := fun p hp => hs.toServer p (h.subset hp) }
  | toClient h => exact { hs with toClient := fun a ha => hs.toClient a (h.subset ha) }

/-- The time-out at the second `recvfrom`. -/
theorem Step.leave (files : Files) (hpc : s.server.pc = .inner)
    (junk : Fin numFiles → Nat → Bool) : Step files s (.serverTimeout junk)
      (s.serverMoves s.server.leave [] (s.server.leave.requests junk)) := by
  have hne : s.server.pc ≠ .finishing := by
    rw [hpc]
    exact ServerPc.noConfusion
  have hstep : Step files s (.serverTimeout junk) _ := .serverTimeout hne
  rw [onTimeout_inner hpc] at hstep
  dsimp only at hstep
  exact hstep

theorem transfer_inv (h : (transfer files).Reachable s) : s.Inv files := by
  refine h.invariant (fun s hs => ?_) fun s l s' hs (hstep : Step files s l s') => hstep.inv hs
  obtain rfl : s = .start := hs
  exact start_inv files

end Inv

/-- The first file has been sent. -/
def Sys.sentFirst (files : Files) : Sys :=
  Sys.start.clientMoves (initNext file0)
    (sendFile (BitVec.ofNat 16 file0) (files file0) (fun _ => false) .zeros)

theorem sentFirst_step (files : Files) :
    Step files .start (.initSend (fun _ => false) .zeros) (.sentFirst files) :=
  .initSend rfl

/-- Every packet of it is in flight. -/
theorem exists_sentFirst (files : Files) {i : Nat} (hi : i < numPackets files file0) :
    ∃ p ∈ (Sys.sentFirst files).toServer,
      Genuine files file0 p ∧ p.packetNumber.toNat = i := by
  obtain ⟨p, hp, hnum⟩ : ∃ p ∈ sendFile (BitVec.ofNat 16 file0) (files file0) (fun _ => false)
      .zeros, p.packetNumber.toNat = i := sendFile_complete _ .zeros hi rfl
  exact ⟨p, Multiset.mem_add.mpr (.inl hp), (mem_sendFile (toNat_ofFile _) hp).1, hnum⟩

/-! ## 3. The data -/

/-- The server has got packet `p`, or the file it belongs to. -/
def Server.Got (s : Server) (p : Packet) : Prop :=
  ∃ f : Fin numFiles, p.fileNumber.toNat = f ∧ s.Has f p.packetNumber.toNat

/-- A step that flips no bit of the `length` of a packet that is new. -/
def Harmless (s : Sys) (l : Label) : Prop :=
  ∀ p k junk, l = .packet p (some k) junk → ¬ LengthBit k ∨ s.server.Got p

/-- A step that flips nothing. -/
def Intact (_ : Sys) (l : Label) : Prop := ∀ p k junk, l ≠ .packet p (some k) junk

theorem Intact.harmless {s : Sys} {l : Label} (h : Intact s l) : Harmless s l :=
  fun p k junk hl => absurd hl (h p k junk)

/-- The packets of a file, put together. -/
def sentContent (files : Files) (f : Fin numFiles) : List Byte :=
  ((List.range (numPackets files f)).map (chunk (files f))).flatten

structure Sys.Exact (files : Files) (s : Sys) : Prop where
  slots : s.server.Exact fun f i => chunk (files f) i
  saved : ∀ c ∈ s.saved, c.2 = sentContent files c.1

section Exact

variable {files : Files} {s s' : Sys} {l : Label}

theorem chunks_flatten (content : List Byte) (n : Nat) :
    ((List.range n).map (chunk content)).flatten = content.take (n * packetSize) := by
  induction n with
  | zero => simp
  | succ n ih =>
    rw [List.range_succ, List.map_append, List.flatten_append, ih, Nat.succ_mul, List.take_add]
    simp [chunk]

/-- A file that is not too large for the 16 bits is its packets put together. -/
theorem sentContent_eq {f : Fin numFiles} (h : (files f).length / packetSize + 1 < 65536) :
    sentContent files f = files f := by
  have hlt := Nat.lt_div_mul_add (a := (files f).length) (show 0 < packetSize by decide)
  have hle : (files f).length ≤ ((files f).length / packetSize + 1) * packetSize := by
    rw [Nat.succ_mul]
    exact hlt.le
  unfold sentContent
  rw [chunks_flatten, numPackets_eq h, List.take_of_length_le hle]

theorem Sys.Exact.serverMoves (hex : s.Exact files) {t : Server} {saved : List StoreFile}
    (sent : List Ack) (hslots : t.Exact fun f i => chunk (files f) i)
    (hsaved : ∀ c ∈ saved, c.2 = sentContent files c.1) :
    (s.serverMoves t saved sent).Exact files := by
  refine ⟨hslots, fun c hc => ?_⟩
  rcases List.mem_append.mp hc with hc | hc
  · exact hsaved c hc
  · exact hex.saved c hc

/-- A packet that the server has got changes no data. -/
theorem Outcome.exact_of_has {data : Fin numFiles → Nat → List Byte} {srv t : Server}
    {f : Fin numFiles} {p : Packet} {saved : List StoreFile}
    (hhas : srv.Has f p.packetNumber.toNat) (hex : srv.Exact data) (h : Outcome srv f p t saved) :
    t.Exact data ∧ saved = [] := by
  cases h with
  | known h => exact ⟨leave_exact hex, rfl⟩
  | again hv hslot => exact ⟨hex, rfl⟩
  | kept hmiss hl hm => exact absurd hhas hmiss
  | complete hmiss hl hall => exact absurd hhas hmiss

theorem arrival_exact {srv t : Server} {f : Fin numFiles} {p : Packet} {saved : List StoreFile}
    (hs : srv.Ok (numPackets files)) (hex : srv.Exact fun f i => chunk (files f) i)
    (hp : Genuine files f p) {flip : Option Nat} (hflip : ∀ k ∈ flip, k < datagramBits)
    (hharm : ∀ k ∈ flip, ¬ LengthBit k ∨ srv.Got p)
    (hr : srv.onPacket (p.corrupt flip) = .ok (t, saved)) :
    (t.Exact fun f i => chunk (files f) i) ∧ ∀ c ∈ saved, c.2 = sentContent files c.1 := by
  rcases arrival_cases hs (corrupt_cases hp hflip) hr with ⟨rfl, rfl⟩ | ⟨hhead, hcheck, hout⟩
  · exact ⟨leave_exact hex, by simp⟩
  cases flip with
  | none => exact hout.exact hs hex hhead hp.payload
  | some k =>
    -- the packet passed, so the bit is one of `length`, and the packet is not new
    have hk := (flip_checksum_iff hp.checksum (hflip k rfl)).mp hcheck
    obtain ⟨g, hg, hhas⟩ := (hharm k rfl).resolve_left (not_not.mpr hk)
    obtain rfl : g = f := Fin.ext (hg.symm.trans hp.file)
    have hnum : (p.corrupt (some k)).packetNumber = p.packetNumber := by
      show (p.flip k).packetNumber = _
      rw [flip_of_lengthBit p hk]
    obtain ⟨hex', rfl⟩ := hout.exact_of_has (hnum ▸ hhas) hex
    exact ⟨hex', by simp⟩

/-- **One harmless step keeps the data right.** -/
theorem Step.exact (hs : s.Inv files) (hex : s.Exact files) (hh : Harmless s l)
    (h : Step files s l s') : s'.Exact files := by
  cases h with
  | @packet p flip junk t saved hpc hp hflip hr =>
    obtain ⟨f, hgen⟩ := hs.toServer p hp
    have hharm : ∀ k ∈ flip, ¬ LengthBit k ∨ s.server.Got p := by
      intro k hk
      obtain rfl := hk
      exact hh p k junk rfl
    have hex' : Sys.Exact files { s with toServer := s.toServer.erase p } := ⟨hex.slots, hex.saved⟩
    obtain ⟨hslots, hsaved⟩ := arrival_exact hs.server hex.slots hgen hflip hharm hr
    exact hex'.serverMoves _ hslots hsaved
  | @serverTimeout junk hpc =>
    refine hex.serverMoves _ ?_ (by simp)
    by_cases h : s.server.pc = .inner
    · rw [onTimeout_inner h]
      exact leave_exact hex.slots
    · rw [onTimeout_of_ne h]
      exact hex.slots
  | finish hpc => exact hex.serverMoves _ hex.slots (by simp)
  | _ => exact ⟨hex.slots, hex.saved⟩

theorem transfer_exact (h : ((transfer files).restrict Harmless).Reachable s) : s.Exact files := by
  have hboth : s.Inv files ∧ s.Exact files := by
    refine h.invariant (I := fun s => s.Inv files ∧ s.Exact files) (fun s hs => ?_)
      fun s l s' ⟨hi, he⟩ ⟨hh, (hstep : Step files s l s')⟩ => ⟨hstep.inv hi, hstep.exact hi he hh⟩
    obtain rfl : s = .start := hs
    exact ⟨start_inv files, Server.new_exact _, by simp [Sys.start]⟩
  exact hboth.2

end Exact

end InpLabs.Udp
