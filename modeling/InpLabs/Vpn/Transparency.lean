/-
  File:      InpLabs/Vpn/Transparency.lean
  Subject:   The tunnel as its users see it: **a packet that comes out is one that went in**, as it
             was, not more often than it went in or the network doubled it, and at no client but the
             one it is for; and every packet for a client can come out.

  * `submissions`, `World.copies`: what went in; how often a packet is on its way or has come out;
  * `sent_long`: what the server passes on is what arrived, to whom the table says;
  * `Step.copies`, `transparent`: no step adds a copy but a submission and a duplication;
  * `delivery`: once the handshakes are right, packets go where they are for, and get there.

  Datagrams of less than twenty bytes have no destination of their own; they are left out.
-/
import InpLabs.Vpn.Handshake

namespace InpLabs.Vpn

open InpLabs.Lib

/-! ## 1. What goes in and what comes out -/

section Copies

variable {ι E : Type*}

/-- The packet that a step puts into the tunnel, as much of it as fits into a buffer. -/
def Label.submits : Label ι E → Option Bytes
  | .clientPacket _ data => some (data.take bufSize)
  | .serve (.packet data) => some (data.take bufSize)
  | .other _ data => some (data.take bufSize)
  | _ => none

def submissions (ls : List (Label ι E)) : List Bytes := ls.filterMap Label.submits

def Label.duplicates : Label ι E → Bool
  | .network .duplicate => true
  | _ => false

/-- What a client has written to its device. -/
def ClientPc.written : ClientPc → List Bytes
  | .up t => t.written
  | _ => []

/-- How often `d` is in flight. -/
def inFlight (d : Bytes) (m : Multiset (E × Bytes)) : Nat :=
  m.countP fun p => p.2.take bufSize = d

/-- How often `d` is on its way, or has come out at client `c`. -/
def World.copies (w : World ι E) (c : ι) (d : Bytes) : Nat :=
  inFlight d w.toServer + inFlight d w.toClient + (w.client c).written.count d

variable {d : Bytes} {m : Multiset (E × Bytes)} {p : E × Bytes}

theorem inFlight_cons (p : E × Bytes) (m : Multiset (E × Bytes)) :
    inFlight d (p ::ₘ m) = inFlight d m + if p.2.take bufSize = d then 1 else 0 :=
  Multiset.countP_cons _ _ _

theorem inFlight_add (l m : Multiset (E × Bytes)) :
    inFlight d (l + m) = inFlight d l + inFlight d m := Multiset.countP_add _ _ _

theorem inFlight_erase [DecidableEq E] (h : p ∈ m) :
    inFlight d (m.erase p) + (if p.2.take bufSize = d then 1 else 0) = inFlight d m := by
  rw [← inFlight_cons, Multiset.cons_erase h]

/-- The network adds a copy only of what is in flight. -/
theorem inFlight_network [DecidableEq E] {e : Channel.Event} {m' : Multiset (E × Bytes)}
    (h : Channel.Step m e m') : inFlight d m' ≤ inFlight d m +
      if e = .duplicate ∧ 0 < inFlight d m then 1 else 0 := by
  cases h with
  | lose h =>
    have hle := inFlight_erase (d := d) h
    omega
  | @duplicate p h =>
    rw [inFlight_cons]
    split
    · rename_i hp
      have hpos : 0 < inFlight d m := Multiset.countP_pos.mpr ⟨p, h, hp⟩
      rw [if_pos ⟨rfl, hpos⟩]
    · omega

end Copies

/-! ## 2. The server and the device -/

section Processes

variable {ι E : Type*} {s : Server E} {ev : Event E} {e : E} {data d : Bytes}

/-- What is behind the end of the buffer is not received. -/
theorem fill_clip (buffer : Buffer) (data : Bytes) :
    buffer.fill data = buffer.fill (data.take bufSize) := by
  unfold Buffer.fill
  simp only [List.take_take, Nat.min_self]

theorem ipPacket_clip (h : 20 ≤ data.length) : IpPacket (data.take bufSize) := by
  have hlen := List.length_take (i := bufSize) (l := data)
  unfold IpPacket
  unfold bufSize at *
  omega

theorem onDatagram_clip (s : Server E) (u : E) (data : Bytes) :
    s.onDatagram u data = s.onDatagram u (data.take bufSize) := by
  unfold Server.onDatagram Server.recv
  rw [← fill_clip, List.take_take, Nat.min_self]

theorem onTun_clip (s : Server E) (data : Bytes) : s.onTun data = s.onTun (data.take bufSize) := by
  unfold Server.onTun Server.recv
  rw [← fill_clip, List.take_take, Nat.min_self]

theorem mem_sent_table {x : Ip} (h : (e, d) ∈ sent (match s.clientAddr x with
    | some client => [Output.sendto client data]
    | none => [])) : s.clientAddr x = some e ∧ d = data := by
  cases hx : s.clientAddr x with
  | none =>
    rw [hx] at h
    cases h
  | some client =>
    rw [hx] at h
    obtain ⟨rfl, rfl⟩ := Prod.mk.inj (List.mem_singleton.mp h)
    exact ⟨rfl, rfl⟩

/-- A short packet makes no long one. -/
theorem sent_short (hlen : ev.data.length < 20) (h : (e, d) ∈ sent (s.serve ev).2) :
    d.length < 20 := by
  have hn : (ev.data.take bufSize).length < 20 :=
    Nat.lt_of_le_of_lt (List.length_take_le' _ _) hlen
  cases ev with
  | packet data => exact length_of_sent_forward (List.length_take_le _ _) h ▸ hn
  | datagram udpAddr data =>
    change (e, d) ∈ sent (s.onDatagram udpAddr data).2 at h
    unfold Server.onDatagram at h
    dsimp only at h
    split_ifs at h with hsize hzero hmy
    · obtain ⟨-, rfl⟩ := Prod.mk.inj (List.mem_singleton.mp h)
      exact Nat.lt_of_lt_of_le (by decide : 4 < 20) (Nat.le_refl _)
    · cases h
    · cases h
    · exact length_of_sent_forward (List.length_take_le _ _) h ▸ hn

/-- **What the server passes on is what has arrived**, and it goes to whom the table says. -/
theorem sent_long (h : (e, d) ∈ sent (s.serve ev).2) (h20 : 20 ≤ d.length) :
    d = ev.data.take bufSize ∧ s.clientAddr (destination d) = some e := by
  have hlen : 20 ≤ ev.data.length := by
    by_contra hlt
    have hshort := sent_short (Nat.lt_of_not_le hlt) h
    omega
  cases ev with
  | packet data =>
    have hip : IpPacket (data.take bufSize) := ipPacket_clip hlen
    change (e, d) ∈ sent (s.onTun data).2 at h
    rw [onTun_clip, onTun_ipPacket s hip] at h
    obtain ⟨haddr, rfl⟩ := mem_sent_table h
    exact ⟨rfl, haddr⟩
  | datagram udpAddr data =>
    have hip : IpPacket (data.take bufSize) := ipPacket_clip hlen
    change (e, d) ∈ sent (s.onDatagram udpAddr data).2 at h
    rw [onDatagram_clip, onDatagram_ipPacket s udpAddr hip] at h
    split at h
    · cases h
    · obtain ⟨haddr, rfl⟩ := mem_sent_table h
      exact ⟨rfl, haddr⟩

theorem forward_length_le (s : Server E) (n : Nat) : (s.forward n).2.length ≤ 1 := by
  unfold Server.forward
  split
  · exact Nat.le_refl 1
  · exact Nat.zero_le 1

/-- At most one thing is written in a round. -/
theorem serve_length_le (s : Server E) (ev : Event E) : (s.serve ev).2.length ≤ 1 := by
  cases ev with
  | packet data => exact forward_length_le _ _
  | datagram udpAddr data =>
    change (s.onDatagram udpAddr data).2.length ≤ 1
    unfold Server.onDatagram
    dsimp only
    split_ifs
    · exact Nat.le_refl 1
    · exact Nat.zero_le 1
    · exact Nat.le_refl 1
    · exact forward_length_le _ _

theorem inFlight_sent (s : Server E) (ev : Event E) (h20 : 20 ≤ d.length) :
    inFlight d (sent (s.serve ev).2 : Multiset (E × Bytes)) ≤
      if ev.data.take bufSize = d then 1 else 0 := by
  have hlen : (sent (s.serve ev).2).length ≤ 1 :=
    (List.length_filterMap_le _ _).trans (serve_length_le s ev)
  split
  · exact (Multiset.countP_le_card _ _).trans hlen
  · rename_i hne
    refine (Multiset.countP_eq_zero.mpr fun p hp heq => hne ?_).le
    have hlong : 20 ≤ p.2.length := by
      have hle := List.length_take_le' bufSize p.2
      rw [heq] at hle
      omega
    have hp : (p.1, p.2) ∈ sent (s.serve ev).2 := Multiset.mem_coe.mp hp
    rw [(sent_long hp hlong).1, List.take_take, Nat.min_self] at heq
    exact heq

/-- What is written out of the buffer is what was received. -/
theorem fill_clip_take (buffer : Buffer) (data : Bytes) :
    (buffer.fill data).1.take (data.take bufSize).length = data.take bufSize := by
  have htake := fill_take buffer (List.length_take_le bufSize data)
  rwa [List.take_take, Nat.min_self, ← fill_clip] at htake

/-- What a datagram adds to what was written. -/
theorem tunnel_written (t : Tunnel) (data : Bytes) :
    (t.onDatagram data).written = t.written ∨
      (t.onDatagram data).written = data.take bufSize :: t.written ∧
        (t.buffer.fill data).daddr = t.virtualIp := by
  unfold Tunnel.onDatagram
  dsimp only
  split
  · exact .inl rfl
  · rename_i haddr
    refine .inr ⟨?_, not_not.mp haddr⟩
    show (t.buffer.fill data).1.take _ :: _ = _
    rw [fill_clip_take]

theorem destination_clip (buffer : Buffer) (h : 20 ≤ (data.take bufSize).length) :
    (buffer.fill data).daddr = destination (data.take bufSize) := by
  have hlen := List.length_take_le' bufSize data
  rw [fill_clip, daddr_fill buffer (ipPacket_clip (h.trans hlen))]

end Processes

/-! ## 3. Steps -/

section Steps

variable {ι E : Type*} [DecidableEq ι] {ep : ι ↪ E} {w w' : World ι E} {b c : ι} {t : Tunnel}
  {pc : ClientPc} {d data : Bytes} {l : Label ι E} {ls : List (Label ι E)}

/-- A client that goes on, with all it has written. -/
theorem written_clientMoves (c : ι) (h : pc.written = (w.client b).written) :
    ((w.clientMoves b pc).client c).written = (w.client c).written := by
  show (Function.update w.client b pc c).written = _
  rw [Function.update_apply]
  split
  · rename_i hcb
    rw [h, hcb]
  · rfl

/-- A client that writes one packet more. -/
theorem count_clientMoves (c : ι)
    (h : pc.written = (w.client b).written ∨ pc.written = data :: (w.client b).written) :
    ((w.clientMoves b pc).client c).written.count d ≤
      (w.client c).written.count d + if data = d then 1 else 0 := by
  rcases h with h | h
  · rw [written_clientMoves c h]
    exact Nat.le_add_right _ _
  · show (Function.update w.client b pc c).written.count d ≤ _
    rw [Function.update_apply]
    split
    · rename_i hcb
      rw [h, hcb, List.count_cons]
      simp only [beq_iff_eq]
      exact Nat.le_refl _
    · exact Nat.le_add_right _ _

theorem request_clip_ne (h20 : 20 ≤ d.length) : request.take bufSize ≠ d := by
  rintro rfl
  exact absurd h20 (by decide)

theorem clip_clip (data : Bytes) : (data.take bufSize).take bufSize = data.take bufSize := by
  rw [List.take_take, Nat.min_self]

variable [DecidableEq E]

/-- **No step adds a copy** but one that puts the packet in, or doubles one that is there. -/
theorem Step.copies (h20 : 20 ≤ d.length) (h : Step ep w l w') :
    w'.copies c d ≤ w.copies c d + (if l.submits = some d then 1 else 0) +
      if l.duplicates ∧ 0 < w.copies c d then 1 else 0 := by
  unfold World.copies
  cases h with
  | @request b h =>
    have hsame : ((w.clientMoves b .waiting).client c).written = (w.client c).written :=
      written_clientMoves c (by rw [h]; rfl)
    rw [inFlight_cons, if_neg (request_clip_ne h20), hsame]
    exact (Nat.le_add_right _ _).trans (Nat.le_add_right _ _)
  | @configure b data h hd =>
    have hsame : ((w.clientMoves b (.up (.setUp data))).client c).written =
        (w.client c).written := written_clientMoves c (by rw [h]; rfl)
    have hle := inFlight_erase (d := d) hd
    rw [hsame]
    show inFlight d w.toServer + inFlight d (w.toClient.erase (ep b, data)) + _ ≤ _
    omega
  | @clientDatagram b t data h hd =>
    have hcount : ((w.clientMoves b (.up (t.onDatagram data))).client c).written.count d ≤
        (w.client c).written.count d + if data.take bufSize = d then 1 else 0 := by
      refine count_clientMoves c ?_
      rw [h]
      exact (tunnel_written t data).imp id And.left
    have hle := inFlight_erase (d := d) hd
    show inFlight d w.toServer + inFlight d (w.toClient.erase (ep b, data)) +
      ((w.clientMoves b (.up (t.onDatagram data))).client c).written.count d ≤ _
    dsimp only at hle
    omega
  | @clientPacket b t data h hd =>
    have hsame : ((w.clientMoves b (.up (t.onTun data).1)).client c).written =
        (w.client c).written := written_clientMoves c (by rw [h]; rfl)
    have hout : (t.onTun data).2 = data.take bufSize := fill_clip_take t.buffer data
    have hsubmits : (Label.clientPacket b data : Label ι E).submits =
      some (data.take bufSize) := rfl
    rw [inFlight_cons, hsame, hout, clip_clip, hsubmits]
    simp only [Option.some.injEq]
    show _ + inFlight d w.toClient + _ ≤ _
    omega
  | @other u data =>
    have hsubmits : (Label.other u data : Label ι E).submits = some (data.take bufSize) := rfl
    rw [inFlight_cons, hsubmits]
    simp only [Option.some.injEq]
    omega
  | @datagram u data hd =>
    have hle := inFlight_erase (d := d) hd
    have hsent := inFlight_sent w.server (.datagram u data) h20
    have hdata : (Event.datagram u data).data = data := rfl
    rw [hdata] at hsent
    show inFlight d (w.toServer.erase (u, data)) +
      inFlight d ((sent (w.server.serve (.datagram u data)).2 : Multiset (E × Bytes)) +
        w.toClient) + (w.client c).written.count d ≤ _
    rw [inFlight_add]
    dsimp only at hle
    omega
  | @packet data hd =>
    have hsent := inFlight_sent w.server (.packet data) h20
    have hdata : (Event.packet data : Event E).data = data := rfl
    have hsubmits : (Label.serve (.packet data) : Label ι E).submits =
      some (data.take bufSize) := rfl
    rw [hdata] at hsent
    rw [hsubmits]
    simp only [Option.some.injEq]
    show inFlight d w.toServer +
      inFlight d ((sent (w.server.serve (.packet data)).2 : Multiset (E × Bytes)) +
        w.toClient) + (w.client c).written.count d ≤ _
    rw [inFlight_add]
    omega
  | @toServer e m h =>
    have hnet := inFlight_network (d := d) h
    have hone : (if e = .duplicate ∧ 0 < inFlight d w.toServer then 1 else 0) ≤
        if (Label.network e : Label ι E).duplicates ∧ 0 < inFlight d w.toServer +
          inFlight d w.toClient + (w.client c).written.count d then 1 else 0 := by
      split
      · rename_i hdup
        obtain ⟨rfl, hpos⟩ := hdup
        rw [if_pos ⟨rfl, by omega⟩]
      · exact Nat.zero_le _
    show inFlight d m + inFlight d w.toClient + (w.client c).written.count d ≤ _
    omega
  | @toClient e m h =>
    have hnet := inFlight_network (d := d) h
    have hone : (if e = .duplicate ∧ 0 < inFlight d w.toClient then 1 else 0) ≤
        if (Label.network e : Label ι E).duplicates ∧ 0 < inFlight d w.toServer +
          inFlight d w.toClient + (w.client c).written.count d then 1 else 0 := by
      split
      · rename_i hdup
        obtain ⟨rfl, hpos⟩ := hdup
        rw [if_pos ⟨rfl, by omega⟩]
      · exact Nat.zero_le _
    show inFlight d w.toServer + inFlight d m + (w.client c).written.count d ≤ _
    omega

/-- A client that is set up has written what is for it. -/
theorem Step.destined (h : Step ep w l w') (hw : ∀ c t, w.client c = .up t →
      ∀ d ∈ t.written, 20 ≤ d.length → destination d = t.virtualIp) :
    ∀ c t, w'.client c = .up t → ∀ d ∈ t.written, 20 ≤ d.length → destination d = t.virtualIp := by
  have hmoves : ∀ {w : World ι E} {b : ι} {pc : ClientPc}, (∀ c t, w.client c = .up t →
      ∀ d ∈ t.written, 20 ≤ d.length → destination d = t.virtualIp) →
      (∀ t, pc = .up t → ∀ d ∈ t.written, 20 ≤ d.length → destination d = t.virtualIp) →
      ∀ c t, (w.clientMoves b pc).client c = .up t →
        ∀ d ∈ t.written, 20 ≤ d.length → destination d = t.virtualIp := by
    intro w b pc hw hpc c t ht
    change Function.update w.client b pc c = .up t at ht
    rw [Function.update_apply] at ht
    split at ht
    · exact hpc t ht
    · exact hw c t ht
  cases h with
  | request h => exact hmoves hw fun t ht => by cases ht
  | configure h hd =>
    refine hmoves hw fun t ht => ?_
    cases ht
    exact fun d hd => absurd hd List.not_mem_nil
  | @clientDatagram b t data h hd =>
    refine hmoves hw fun u hu d hmem hlong => ?_
    cases hu
    rw [tunnel_onDatagram_virtualIp]
    rcases tunnel_written t data with hsame | ⟨hnew, haddr⟩
    · exact hw b t h d (hsame ▸ hmem) hlong
    · rw [hnew] at hmem
      rcases List.mem_cons.mp hmem with rfl | hmem
      · exact (destination_clip t.buffer hlong).symm.trans haddr
      · exact hw b t h d hmem hlong
  | @clientPacket b t data h hd =>
    refine hmoves hw fun u hu => ?_
    cases hu
    exact hw b t h
  | other => exact hw
  | datagram hd => exact hw
  | packet hd => exact hw
  | toServer h => exact hw
  | toClient h => exact hw

/-! ## 4. Runs -/

/-- How often a packet is there: as often as it was put in, and once more for a duplication. -/
theorem run_copies (h20 : 20 ≤ d.length) (h : (vpn ep).Run ls w) :
    (0 < w.copies c d → d ∈ submissions ls) ∧
      w.copies c d ≤ (submissions ls).count d + ls.countP Label.duplicates := by
  induction h with
  | start h =>
    obtain rfl := h
    exact ⟨fun hpos => absurd hpos (Nat.lt_irrefl 0), Nat.zero_le _⟩
  | @step ls l w w' h hstep ih =>
    obtain ⟨hmem, hle⟩ := ih
    have hcopies := Step.copies (c := c) h20 hstep
    have hsubmissions : submissions (l :: ls) = l.submits.toList ++ submissions ls := by
      unfold submissions
      rw [List.filterMap_cons]
      cases l.submits <;> rfl
    have hcount : (submissions (l :: ls)).count d =
        (submissions ls).count d + if l.submits = some d then 1 else 0 := by
      rw [hsubmissions, List.count_append, Nat.add_comm]
      cases hl : l.submits with
      | none => rfl
      | some x => simp [List.count_singleton]
    constructor
    · intro hpos
      rw [hsubmissions]
      by_cases hl : l.submits = some d
      · rw [hl]
        exact List.mem_append_left _ (List.mem_singleton_self d)
      · rw [if_neg hl] at hcopies
        refine List.mem_append_right _ (hmem ?_)
        by_contra hzero
        rw [if_neg fun h => hzero h.2] at hcopies
        omega
    · rw [hcount, List.countP_cons]
      have hone : (if l.duplicates ∧ 0 < w.copies c d then 1 else 0) ≤
          if l.duplicates = true then 1 else 0 := by
        split
        · rename_i hdup
          rw [if_pos hdup.1]
        · exact Nat.zero_le _
      omega

/-- **What comes out of the tunnel went in**, for the client it comes out at, and not more often
than it went in or was doubled on the way. -/
theorem transparent (h : (vpn ep).Run ls w) (hc : w.client c = .up t) (hd : d ∈ t.written)
    (h20 : 20 ≤ d.length) :
    destination d = t.virtualIp ∧ d ∈ submissions ls ∧
      t.written.count d ≤ (submissions ls).count d + ls.countP Label.duplicates := by
  have hwritten : (w.client c).written = t.written := by
    rw [hc]
    rfl
  have hpos := List.count_pos_iff.mpr hd
  obtain ⟨hmem, hle⟩ := run_copies (c := c) h20 h
  have hcopies : t.written.count d ≤ w.copies c d := by
    unfold World.copies
    rw [hwritten]
    exact Nat.le_add_left _ _
  refine ⟨?_, hmem (Nat.lt_of_lt_of_le hpos hcopies), hcopies.trans hle⟩
  refine h.invariant (I := fun w => ∀ c t, w.client c = .up t →
    ∀ d ∈ t.written, 20 ≤ d.length → destination d = t.virtualIp) (fun w h0 c t hc => ?_)
    (fun _ _ _ hw hstep => Step.destined hstep hw) c t hc d hd h20
  obtain rfl : w = .start := h0
  cases hc

end Steps

/-! ## 5. Between clients -/

section Clients

variable {ι E : Type*} [DecidableEq ι] [DecidableEq E] {ep : ι ↪ E} {w w' : World ι E} {b c : ι}
  {t u : Tunnel} {d data : Bytes} {e : E} {l : Label ι E} {ls : List (Label ι E)}

/-- What is in flight to an endpoint is for an address that it was given. -/
def Addressed (w : World ι E) : Prop :=
  ∀ e d, (e, d) ∈ w.toClient → 20 ≤ d.length → w.server.clientAddr (destination d) = some e

omit [DecidableEq ι] [DecidableEq E] in
theorem Addressed.serverMoves {ev : Event E} (hw : Addressed w)
    (hfree : ev.requester ≠ none → w.server.clientAddr w.server.virtualIp = none) :
    Addressed (w.serverMoves ev) := by
  intro e d hm hlong
  rcases Multiset.mem_add.mp hm with hm | hm
  · exact serve_keeps hfree (sent_long (Multiset.mem_coe.mp hm) hlong).2
  · exact serve_keeps hfree (hw e d hm hlong)

theorem Addressed.step (hw : Addressed w) (hl : Careful w l) (h : Step ep w l w') :
    Addressed w' := by
  cases h with
  | request h => exact hw
  | configure h hd => exact fun e d hm => hw e d (Multiset.mem_of_mem_erase hm)
  | clientDatagram h hd => exact fun e d hm => hw e d (Multiset.mem_of_mem_erase hm)
  | clientPacket h hd => exact hw
  | other => exact hw
  | @datagram a data hd =>
    have hw' : Addressed { w with toServer := w.toServer.erase (a, data) } := hw
    exact hw'.serverMoves hl
  | packet hd => exact hw.serverMoves hl
  | toServer h => exact hw
  | toClient h => exact fun e d hm => hw e d (Multiset.mem_of_subset h.subset hm)

/-- The handshakes of a run of careful steps. -/
theorem careful_inv (h : ((vpn ep).restrict Careful).Run ls w) : w.Inv ep :=
  h.invariant (fun w (h0 : w = .start) => h0 ▸ World.Inv.start)
    fun _ _ _ hw hs => hw.step hs.1 hs.2

/-- A packet for the client is written. -/
theorem tunnel_takes (h : IpPacket data) (hdest : destination data = u.virtualIp) :
    (u.onDatagram data).written = data :: u.written := by
  have haddr : ¬ (u.buffer.fill data).daddr ≠ u.virtualIp :=
    not_not.mpr ((daddr_fill u.buffer h).trans hdest)
  unfold Tunnel.onDatagram
  dsimp only
  rw [if_neg haddr, fill_take u.buffer h.2]

/-- The packet that one client puts in comes out at the other, three steps on. -/
theorem leads_delivery {accepts : Bytes → Prop} (hok : accepts data) (hb : w.client b = .up t)
    (hc : w.client c = .up u) (hip : IpPacket data)
    (hdest : destination data = u.virtualIp) (hmy : u.virtualIp ≠ htonl myAddr)
    (haddr : w.server.clientAddr u.virtualIp = some (ep c)) :
    ∃ w' u', ((vpn ep).restrict (Orderly accepts)).Leads w w' ∧ w'.client c = .up u' ∧
      u'.virtualIp = u.virtualIp ∧ u'.written = data :: u.written := by
  -- the first client sends the packet to the server
  obtain ⟨w₁, h₁, hserver₁, hin, u₁, hc₁, hip₁, hwritten₁⟩ : ∃ w₁,
      Step ep w (.clientPacket b data) w₁ ∧ w₁.server = w.server ∧ (ep b, data) ∈ w₁.toServer ∧
        ∃ u₁, w₁.client c = .up u₁ ∧ u₁.virtualIp = u.virtualIp ∧ u₁.written = u.written := by
    have hout : (t.onTun data).2 = data :=
      (fill_clip_take t.buffer data).trans (List.take_of_length_le hip.2)
    refine ⟨_, .clientPacket hb hip, rfl, ?_, ?_⟩
    · rw [hout]
      exact Multiset.mem_cons_self _ _
    · show ∃ u₁, Function.update w.client b _ c = .up u₁ ∧ _
      rw [Function.update_apply]
      split
      · rename_i hcb
        subst hcb
        obtain rfl : t = u := ClientPc.up.inj (hb.symm.trans hc)
        exact ⟨_, rfl, rfl, rfl⟩
      · exact ⟨u, hc, rfl, rfl⟩
  -- the server passes it on to the endpoint of the other
  have houtputs : (w₁.server.serve (.datagram (ep b) data)).2 = [.sendto (ep c) data] := by
    have hroute := onDatagram_ipPacket w₁.server (ep b) hip
    rw [hdest, if_neg hmy, hserver₁, haddr] at hroute
    rw [hserver₁]
    exact hroute
  obtain ⟨w₂, h₂, hto, hclient₂⟩ : ∃ w₂, Step ep w₁ (.serve (.datagram (ep b) data)) w₂ ∧
      (ep c, data) ∈ w₂.toClient ∧ w₂.client = w₁.client := by
    refine ⟨_, .datagram hin, Multiset.mem_add.mpr (.inl (Multiset.mem_coe.mpr ?_)), rfl⟩
    rw [houtputs]
    exact List.mem_singleton_self _
  -- and there it is written
  obtain ⟨w₃, h₃, hclient₃⟩ : ∃ w₃, Step ep w₂ (.clientDatagram c data) w₃ ∧
      w₃.client c = .up (u₁.onDatagram data) :=
    ⟨_, .clientDatagram ((congrFun hclient₂ c).trans hc₁) hto, Function.update_self _ _ _⟩
  have hnone : (Event.datagram (ep b) data).requester = none := requester_ipPacket hip
  have hwritten : (u₁.onDatagram data).written = data :: u.written := by
    rw [tunnel_takes hip (hdest.trans hip₁.symm), hwritten₁]
  have horder₁ : Orderly accepts w (.clientPacket b data) := ⟨trivial, trivial⟩
  have horder₂ : Orderly accepts w₁ (.serve (.datagram (ep b) data)) := by
    refine ⟨fun h => absurd hnone h, fun d hd => ?_⟩
    rw [houtputs] at hd
    cases List.mem_singleton.mp hd
  have horder₃ : Orderly accepts w₂ (.clientDatagram c data) := by
    refine ⟨trivial, fun t d ht hd => ?_⟩
    obtain rfl : u₁ = t := ClientPc.up.inj (hc₁.symm.trans ((congrFun hclient₂ c).symm.trans ht))
    rw [hwritten, ← hwritten₁] at hd
    exact (List.cons.inj hd).1 ▸ hok
  refine ⟨w₃, u₁.onDatagram data, ?_, hclient₃, ?_, hwritten⟩
  · exact (Lts.Leads.of_step (M := (vpn ep).restrict (Orderly accepts)) ⟨horder₁, h₁⟩).trans
      ((Lts.Leads.of_step (M := (vpn ep).restrict (Orderly accepts)) ⟨horder₂, h₂⟩).trans
        (Lts.Leads.of_step (M := (vpn ep).restrict (Orderly accepts)) ⟨horder₃, h₃⟩))
  · exact (tunnel_onDatagram_virtualIp u₁ data).trans hip₁

end Clients

/-! ## 6. A client calls another -/

theorem pingTo_ipPacket (k : UInt8) : IpPacket (pingTo k) := by
  have hlen : (pingTo k).length = 20 := rfl
  exact ⟨hlen.ge, hlen.le.trans (by decide)⟩

/-- A device that accepts what has the version number of IPv4 or IPv6. -/
def acceptsVersion (d : Bytes) : Prop := d.headD 0 >>> 4 = 4 ∨ d.headD 0 >>> 4 = 6

theorem transparent_ping : ∃ (ls : List (Label ℕ ℕ)) (w : World ℕ ℕ) (u : Tunnel),
    (vpn (.refl ℕ)).Run ls w ∧ w.client 1 = .up u ∧ u.written = [pingTo 11] ∧
      pingTo 11 ∈ submissions ls := by
  obtain ⟨w, hrun, h0, h1⟩ := two_answered acceptsVersion
  have hok : acceptsVersion (pingTo 11) := .inl rfl
  have haddr := (careful_inv (hrun.restrict_mono fun _ _ h => h.1)).agreement 1 _ h1
  obtain ⟨w', u, hlead, hup, -, hwritten⟩ :=
    leads_delivery hok h0 h1 (pingTo_ipPacket 11) rfl (by decide) haddr
  obtain ⟨ls', hrun'⟩ := (hlead.reachable ⟨_, hrun⟩).of_restrict
  have hmem : pingTo 11 ∈ u.written := hwritten ▸ List.mem_cons_self
  exact ⟨ls', w', u, hrun', hup, hwritten,
    (transparent hrun' hup hmem (pingTo_ipPacket 11).1).2.1⟩

end InpLabs.Vpn
