/-
  File:      InpLabs/Vpn/Routing.lean
  Subject:   Where the VPN server sends an IP packet: to its own device, to the client whose request
             was answered with the destination, or nowhere.

  * `table_iff`: until the counter comes round, the table holds just the answers of the run;
  * `routing`: so the two branches of the loop route by the ledger, and no later request changes
    where an address leads.
-/
import InpLabs.Vpn.Ledger

namespace InpLabs.Vpn

open InpLabs.Lib

/-- An IP packet that fits into the buffer. -/
def IpPacket (data : Bytes) : Prop := 20 ≤ data.length ∧ data.length ≤ bufSize

/-- The destination in the header of an IP packet. -/
def destination (data : Bytes) : Ip := Ip.ofBytes (data.drop 16)

section Routing

variable {E : Type*} {s t : Server E} {ls ms : List (Round E)} {data : Bytes} {x : Ip} {e : E}

theorem lookup_iff {l : List (Ip × E)} (hnd : (l.map Prod.fst).Nodup) :
    l.lookup x = some e ↔ (x, e) ∈ l := by
  induction l with
  | nil => simp
  | cons p l ih =>
    obtain ⟨y, f⟩ := p
    obtain ⟨hnot, hnd⟩ := List.nodup_cons.mp hnd
    rw [List.lookup_cons, List.mem_cons, Prod.mk.injEq]
    by_cases hx : x = y
    · subst hx
      have hmem : (x, e) ∉ l := fun h => hnot (List.mem_map.mpr ⟨(x, e), h, rfl⟩)
      simp [hmem, eq_comm]
    · have hbeq : (x == y) = false := by simpa using hx
      rw [hbeq]
      simp [hx, ih hnd]

theorem requests_length_le (ls : List (Round E)) : (requests ls).length ≤ ls.length :=
  List.length_filterMap_le _ _

/-- The table holds the answers of the run. -/
theorem table_iff (h : (serverRuns E).Run ls s) (hlt : ls.length < 2 ^ 32) :
    s.clientAddr x = some e ↔ (x, e) ∈ ledger ls := by
  have hs := run_ledger h
  have hle := requests_length_le ls
  rw [hs.clientAddr, lookup_iff (hs.nodup ?_)]
  rw [ledger_length h]
  omega

/-- What has arrived can be read back. -/
theorem fill_take (buffer : Buffer) (h : data.length ≤ bufSize) :
    (buffer.fill data).1.take (data.take bufSize).length = data := by
  rw [fill_front buffer h, List.take_of_length_le h, List.take_left']
  rfl

/-- One byte of the buffer. -/
theorem getD_fill (buffer : Buffer) (h : data.length ≤ bufSize) (i : Nat) :
    (buffer.fill data).1.getD i 0 =
      if i < data.length then data.getD i 0 else buffer.1.getD i 0 := by
  rw [fill_front buffer h]
  simp only [List.getD_eq_getElem?_getD]
  split
  · rename_i hi
    rw [List.getElem?_append_left hi]
  · rename_i hi
    rw [List.getElem?_append_right (by omega), List.getElem?_drop]
    congr 2
    omega

/-- An IP packet is in the buffer with its destination. -/
theorem daddr_fill (buffer : Buffer) (h : IpPacket data) :
    (buffer.fill data).daddr = destination data := by
  have hget : ∀ i, i < 4 → ((buffer.fill data).1.drop 16).getD i 0 = (data.drop 16).getD i 0 := by
    intro i hi
    have hlt : 16 + i < data.length := Nat.lt_of_lt_of_le (by omega) h.1
    have hbyte := getD_fill buffer h.2 (16 + i)
    rw [if_pos hlt] at hbyte
    simpa only [List.getD_eq_getElem?_getD, List.getElem?_drop] using hbyte
  unfold Buffer.daddr destination Ip.ofBytes
  rw [hget 0 (by decide), hget 1 (by decide), hget 2 (by decide), hget 3 (by decide)]

theorem forward_recv (s : Server E) (h : data.length ≤ bufSize) :
    ((s.recv data).forward (data.take bufSize).length).2 =
      match s.clientAddr (s.buffer.fill data).daddr with
      | some client => [.sendto client data]
      | none => [] := by
  have htake : (s.recv data).buffer.1.take (data.take bufSize).length = data :=
    fill_take s.buffer h
  have haddr : (s.recv data).clientAddr (s.recv data).buffer.daddr =
    s.clientAddr (s.buffer.fill data).daddr := rfl
  unfold Server.forward
  rw [haddr, htake]
  cases s.clientAddr (s.buffer.fill data).daddr with
  | none => rfl
  | some client => rfl

/-- What is not of the size of a request goes where the address in the buffer leads. -/
theorem onDatagram_recv (s : Server E) (udpAddr : E) (h : data.length ≤ bufSize)
    (hne : data.length ≠ packetSize) :
    (s.onDatagram udpAddr data).2 =
      if (s.buffer.fill data).daddr = htonl myAddr then [.tunWrite data]
      else match s.clientAddr (s.buffer.fill data).daddr with
        | some client => [.sendto client data]
        | none => [] := by
  have hsize : ¬ (data.take bufSize).length = packetSize := by
    rw [List.take_of_length_le h]
    exact hne
  have htake : (s.recv data).buffer.1.take (data.take bufSize).length = data :=
    fill_take s.buffer h
  have hdaddr : (s.recv data).buffer.daddr = (s.buffer.fill data).daddr := rfl
  unfold Server.onDatagram
  dsimp only
  rw [if_neg hsize, hdaddr, htake, ← forward_recv s h]
  by_cases hmy : (s.buffer.fill data).daddr = htonl myAddr
  · rw [if_pos hmy, if_pos hmy]
  · rw [if_neg hmy, if_neg hmy]

theorem onDatagram_ipPacket (s : Server E) (udpAddr : E) (h : IpPacket data) :
    (s.onDatagram udpAddr data).2 =
      if destination data = htonl myAddr then [.tunWrite data]
      else match s.clientAddr (destination data) with
        | some client => [.sendto client data]
        | none => [] := by
  have hne : data.length ≠ packetSize := by
    have h20 := h.1
    unfold packetSize
    omega
  rw [onDatagram_recv s udpAddr h.2 hne, daddr_fill s.buffer h]

theorem onTun_ipPacket (s : Server E) (h : IpPacket data) :
    (s.onTun data).2 =
      match s.clientAddr (destination data) with
      | some client => [.sendto client data]
      | none => [] := by
  rw [← daddr_fill s.buffer h]
  exact forward_recv s h.2

/-- The event is a datagram for the server itself. -/
def Event.ForServer : Event E → Prop
  | .datagram _ data => destination data = ⟨10, 0, 0, 254⟩
  | .packet _ => False

theorem serve_forServer (s : Server E) {ev : Event E} (h : IpPacket ev.data) (hev : ev.ForServer) :
    (s.serve ev).2 = [.tunWrite ev.data] := by
  cases ev with
  | packet data => exact hev.elim
  | datagram udpAddr data =>
    have hmy : destination data = htonl myAddr := hev
    exact (onDatagram_ipPacket s udpAddr h).trans (if_pos hmy)

theorem serve_forwards (s : Server E) {ev : Event E} (h : IpPacket ev.data) (hev : ¬ ev.ForServer) :
    (s.serve ev).2 =
      match s.clientAddr (destination ev.data) with
      | some client => [.sendto client ev.data]
      | none => [] := by
  cases ev with
  | packet data => exact onTun_ipPacket s h
  | datagram udpAddr data =>
    have hmy : ¬ destination data = htonl myAddr := hev
    exact (onDatagram_ipPacket s udpAddr h).trans (if_neg hmy)

/-- An IP packet is too long for a request. -/
theorem requester_ipPacket {ev : Event E} (h : IpPacket ev.data) : ev.requester = none := by
  cases ev with
  | packet data => rfl
  | datagram udpAddr data =>
    refine if_neg fun heq => ?_
    have h20 : 20 ≤ data.length := h.1
    rw [heq] at h20
    exact absurd h20 (by decide)

theorem ledger_append (ms ls : List (Round E)) : ledger (ms ++ ls) = ledger ms ++ ledger ls :=
  List.filterMap_append

/-- **Routing**: a datagram for the server goes to its device; every other packet goes to the one
client whose request was answered with its destination, or nowhere; and no address is redirected,
neither by a packet nor by whatever comes later in the run. -/
theorem routing (h : (serverRuns E).Run ls s) (hlt : ls.length < 2 ^ 32) :
    (∀ ev : Event E, IpPacket ev.data → ev.ForServer → (s.serve ev).2 = [.tunWrite ev.data]) ∧
    (∀ ev : Event E, IpPacket ev.data → ¬ ev.ForServer →
      (∀ e, (destination ev.data, e) ∈ ledger ls → (s.serve ev).2 = [.sendto e ev.data]) ∧
      ((∀ e, (destination ev.data, e) ∉ ledger ls) → (s.serve ev).2 = [])) ∧
    (∀ ev : Event E, IpPacket ev.data → (s.serve ev).1.clientAddr = s.clientAddr) ∧
    (∀ ms t, (serverRuns E).Run (ms ++ ls) t → (ms ++ ls).length < 2 ^ 32 →
      ∀ x e, s.clientAddr x = some e → t.clientAddr x = some e) := by
  refine ⟨fun ev hip hev => serve_forServer s hip hev, fun ev hip hev => ⟨?_, ?_⟩,
    fun ev hip => ?_, ?_⟩
  · intro e he
    rw [serve_forwards s hip hev, (table_iff h hlt).mpr he]
  · intro hnone
    have hx : s.clientAddr (destination ev.data) = none := by
      rw [Option.eq_none_iff_forall_ne_some]
      exact fun e he => hnone e ((table_iff h hlt).mp he)
    rw [serve_forwards s hip hev, hx]
  · rw [serve_frame (requester_ipPacket hip)]
    rfl
  · intro ms t ht htlt x e hx
    refine (table_iff ht htlt).mpr ?_
    rw [ledger_append]
    exact List.mem_append_right _ ((table_iff h hlt).mp hx)

end Routing

/-- A packet to the address of the first client. -/
def toFirst : Bytes := List.replicate 16 0 ++ [10, 0, 0, 10]

/-- It is sent to the endpoint that asked first. -/
theorem routing_first : ∃ ls s, (serverRuns Nat).Run ls s ∧
    (s.serve (.packet toFirst)).2 = [.sendto 7 toFirst] := by
  let event : Event Nat := .datagram 7 request
  let s : Server Nat := ((Server.new.recv request).configure 7).1
  have hstep : Server.new.serve event = (s, [.sendto 7 [10, 0, 0, 10]]) := by
    have hreq : event.requester = some 7 := rfl
    have hip : htonl (addrBase + 0) = ⟨10, 0, 0, 10⟩ := by decide
    rw [serve_request hreq]
    show (s, [Output.sendto 7 (htonl (addrBase + 0)).bytes]) = _
    rw [hip]
    rfl
  have hrun : (serverRuns Nat).Run [⟨event, [.sendto 7 [10, 0, 0, 10]]⟩] s :=
    .step (.start rfl) hstep
  have hip : IpPacket toFirst := ⟨by decide, by decide⟩
  exact ⟨_, s, hrun, ((routing hrun (by decide)).2.1 (.packet toFirst) hip id).1 7
    (List.mem_singleton.mpr rfl)⟩

end InpLabs.Vpn
