/-
  File:      InpLabs/Vpn/Isolation.lean
  Subject:   What a received datagram has to do with the packets before it: the buffer is not
             cleared, and the header is read where one would be (lab8: tunvpn.pub.cpp).

  * `ServerIsolated`, `ClientIsolated`: the same datagram is treated alike in two runs to the same
    addresses;
  * `daddr_stale`: behind a short datagram the destination of an earlier packet is read;
    `table_reaches`: every address is handed out in some run, so this can be told;
  * `stale_iff`: both sides, by the length of the datagram; `empty_datagram`: an empty one.
-/
import InpLabs.Vpn.Allocation
import InpLabs.Vpn.System

namespace InpLabs.Vpn

open InpLabs.Lib

/-! ## 1. Two runs -/

/-- What arrives at a client in its loop. -/
inductive Arrival where
  | datagram (data : Bytes)
  | packet (data : Bytes)

def Tunnel.serve (t : Tunnel) : Arrival → Tunnel
  | .datagram data => t.onDatagram data
  | .packet data => (t.onTun data).1

/-- The runs of a client's loop, whatever its configuration was. -/
def clientRuns : Lts Tunnel Arrival where
  init t := ∃ config, t = .setUp config
  step t arrival t' := t.serve arrival = t'

section Isolated

variable {E : Type*}

/-- The table and the counter of addresses are the same. -/
def Server.SameAddresses (s t : Server E) : Prop :=
  s.clientAddr = t.clientAddr ∧ s.clientNum = t.clientNum

/-- After any two runs of the server to the same addresses, the datagram leads to the same outputs
and again to the same addresses. -/
def ServerIsolated (E : Type*) (data : Bytes) : Prop :=
  ∀ (ls ms : List (Round E)) (s t : Server E) (udpAddr : E), (serverRuns E).Run ls s →
    (serverRuns E).Run ms t → s.SameAddresses t →
    (s.onDatagram udpAddr data).2 = (t.onDatagram udpAddr data).2 ∧
      (s.onDatagram udpAddr data).1.SameAddresses (t.onDatagram udpAddr data).1

/-- After any two runs of clients with the same address, the same is written to the device, if
anything is. -/
def ClientIsolated (data : Bytes) : Prop :=
  ∀ (as bs : List Arrival) (t u : Tunnel), clientRuns.Run as t → clientRuns.Run bs u →
    t.virtualIp = u.virtualIp →
    ∃ packets, (t.onDatagram data).written = packets ++ t.written ∧
      (u.onDatagram data).written = packets ++ u.written

variable {s t : Server E} {data : Bytes} {d : UInt8} {e : E}

theorem tunnel_onDatagram (t : Tunnel) (h : data.length ≤ bufSize) :
    (t.onDatagram data).written =
      (if (t.buffer.fill data).daddr ≠ t.virtualIp then [] else [data]) ++ t.written := by
  unfold Tunnel.onDatagram
  dsimp only
  split
  · rfl
  · rw [fill_take t.buffer h]
    rfl

/-- The addresses after a datagram depend on it and the addresses before. -/
theorem onDatagram_addresses (udpAddr : E) (h : s.SameAddresses t) :
    (s.onDatagram udpAddr data).1.SameAddresses (t.onDatagram udpAddr data).1 := by
  by_cases hreq : data = request
  · have hask : (Event.datagram udpAddr data).requester = some udpAddr := if_pos hreq
    have hs : s.onDatagram udpAddr data = _ := serve_request hask
    have ht : t.onDatagram udpAddr data = _ := serve_request hask
    rw [hs, ht]
    refine ⟨?_, congrArg (· + 1) h.2⟩
    show Function.update s.clientAddr (htonl (addrBase + s.clientNum)) _ =
      Function.update t.clientAddr (htonl (addrBase + t.clientNum)) _
    rw [h.1, h.2]
  · have hask : (Event.datagram udpAddr data).requester = none := if_neg hreq
    have hs : (s.onDatagram udpAddr data).1 = _ := serve_frame hask
    have ht : (t.onDatagram udpAddr data).1 = _ := serve_frame hask
    rw [hs, ht]
    exact h

/-- A datagram of the size of a request is looked at as one. -/
theorem onDatagram_config (udpAddr : E) (h : s.SameAddresses t) (hlen : data.length = packetSize) :
    (s.onDatagram udpAddr data).2 = (t.onDatagram udpAddr data).2 := by
  by_cases hreq : data = request
  · have hask : (Event.datagram udpAddr data).requester = some udpAddr := if_pos hreq
    have hs : s.onDatagram udpAddr data = _ := serve_request hask
    have ht : t.onDatagram udpAddr data = _ := serve_request hask
    rw [hs, ht]
    show [Output.sendto udpAddr (htonl (addrBase + s.clientNum)).bytes] = _
    rw [h.2]
    rfl
  · have hnothing : ∀ s : Server E, (s.onDatagram udpAddr data).2 = [] := by
      intro s
      have htake : (data.take bufSize).length = packetSize := by
        rw [List.length_take, hlen]
        rfl
      unfold Server.onDatagram
      dsimp only
      rw [if_pos htake, if_neg (mt (request_iff s hlen).mp hreq)]
    rw [hnothing, hnothing]

/-! ## 2. What is left of a packet -/

/-- Twenty bytes with a destination. -/
def packetTo (x : Ip) : Bytes := List.replicate 16 0 ++ x.bytes

theorem packetTo_ipPacket (x : Ip) : IpPacket (packetTo x) := by
  have hlen : (packetTo x).length = 20 := rfl
  exact ⟨hlen.ge, hlen.le.trans (by decide)⟩

/-- The last byte of a destination is not among the first 19. -/
theorem destination_short (h : data.length < 20) : (destination data).d = 0 := by
  have hdrop : (data.drop 16).length ≤ 3 := by
    rw [List.length_drop]
    omega
  show (data.drop 16).getD 3 0 = 0
  rw [List.getD_eq_getElem?_getD, List.getElem?_eq_none hdrop]
  rfl

/-- **The destination behind a short datagram**: where it ends, that of the packet before goes
on. -/
theorem daddr_stale (buffer : Buffer) (h : data.length < 20) (d : UInt8) :
    ((buffer.fill (packetTo { destination data with d := d })).fill data).daddr =
      { destination data with d := d } := by
  have hle : data.length ≤ bufSize := h.le.trans (by decide)
  have hpacket := packetTo_ipPacket { destination data with d := d }
  have hbyte : ∀ (buffer : Buffer) i, (buffer.1.drop 16).getD i 0 = buffer.1.getD (16 + i) 0 := by
    intro buffer i
    simp only [List.getD_eq_getElem?_getD, List.getElem?_drop]
  have hdest : ∀ i, (data.drop 16).getD i 0 = data.getD (16 + i) 0 := by
    intro i
    simp only [List.getD_eq_getElem?_getD, List.getElem?_drop]
  -- the byte is one of the datagram or of the packet
  have hfill : ∀ i, i < 4 →
      (((buffer.fill (packetTo { destination data with d := d })).fill data).1.drop 16).getD i 0 =
        if 16 + i < data.length then (data.drop 16).getD i 0
        else (packetTo { destination data with d := d }).getD (16 + i) 0 := by
    intro i hi
    rw [hbyte, getD_fill _ hle, getD_fill _ hpacket.2, hdest]
    have hlt : 16 + i < (packetTo { destination data with d := d }).length :=
      Nat.lt_of_lt_of_le (by omega) hpacket.1
    rw [if_pos hlt]
  unfold Buffer.daddr
  unfold Ip.ofBytes
  rw [hfill 0 (by decide), hfill 1 (by decide), hfill 2 (by decide), hfill 3 (by decide),
    if_neg (show ¬ 16 + 3 < data.length by omega)]
  rw [Ip.mk.injEq]
  exact ⟨ite_self _, ite_self _, ite_self _, rfl⟩

/-! ## 3. Every address -/

/-- The number that an address stands for. -/
def ntohl (x : Ip) : UInt32 :=
  UInt32.ofNat (((x.a.toNat * 256 + x.b.toNat) * 256 + x.c.toNat) * 256 + x.d.toNat)

theorem htonl_ntohl (x : Ip) : htonl (ntohl x) = x := by
  have ha := x.a.toNat_lt
  have hb := x.b.toNat_lt
  have hc := x.c.toNat_lt
  have hd := x.d.toNat_lt
  have hv : (ntohl x).toNat =
      ((x.a.toNat * 256 + x.b.toNat) * 256 + x.c.toNat) * 256 + x.d.toNat :=
    UInt32.toNat_ofNat_of_lt' (show _ < 2 ^ 32 by omega)
  unfold htonl
  cases x
  simp only [Ip.mk.injEq, ← UInt8.toNat_inj, UInt32.toNat_toUInt8, UInt32.toNat_shiftRight, hv,
    UInt32.reduceToNat, Nat.reduceMod, Nat.shiftRight_eq_div_pow, Nat.reducePow] at *
  refine ⟨?_, ?_, ?_, ?_⟩ <;> omega

/-- No address but the ones handed out is in the table. -/
theorem table_none_iff {ls : List (Round E)} (h : (serverRuns E).Run ls s) (x : Ip) :
    s.clientAddr x = none ↔ ∀ j < (requests ls).length, address j ≠ x := by
  rw [(run_ledger h).clientAddr, List.lookup_eq_none_iff]
  have hmem := mem_addresses h (x := x)
  constructor
  · intro hnone j hj hx
    obtain ⟨p, hp, hpx⟩ := List.mem_map.mp (hmem.mpr ⟨j, hj, hx⟩)
    have hne := hnone p hp
    rw [hpx, bne_self_eq_false] at hne
    cases hne
  · intro hnone p hp
    rw [bne_iff_ne]
    rintro rfl
    obtain ⟨j, hj, hx⟩ := hmem.mp (List.mem_map_of_mem hp)
    exact hnone j hj hx

/-- The number of the client that an address is for. -/
theorem address_ntohl (x : Ip) : address (ntohl x - addrBase).toNat = x := by
  unfold address
  rw [UInt32.ofNat_toNat, UInt32.add_comm, UInt32.sub_add_cancel, htonl_ntohl]

/-- **Every address is handed out** in some run, in which the next one is not. -/
theorem table_reaches (e : E) {x : Ip} (hx : x.d = 0) : ∃ ls s, (serverRuns E).Run ls s ∧
    s.clientAddr x ≠ none ∧ s.clientAddr { x with d := 1 } = none := by
  have hk := address_ntohl x
  generalize hkdef : (ntohl x - addrBase).toNat = k at hk
  have hlt : k < 2 ^ 32 := hkdef ▸ UInt32.toNat_lt _
  have hnext : address (k + 1) = { x with d := 1 } := by
    have hnum : ntohl { x with d := 1 } = ntohl x + 1 := by
      have hone : ∀ n, UInt32.ofNat (n + (1 : UInt8).toNat) =
          UInt32.ofNat (n + (0 : UInt8).toNat) + 1 := fun n => UInt32.ofNat_add n 1
      unfold ntohl
      dsimp only
      rw [hx, hone]
    have hsum : addrBase + UInt32.ofNat (k + 1) = ntohl { x with d := 1 } := by
      rw [hnum, ← hkdef, UInt32.ofNat_add, UInt32.ofNat_toNat, ← UInt32.add_assoc,
        UInt32.add_comm addrBase, UInt32.sub_add_cancel]
      rfl
    unfold address
    rw [hsum, htonl_ntohl]
  obtain ⟨ls, s, hrun, hreq⟩ := requests_run e (k + 1)
  have hlen : (requests ls).length = k + 1 := by rw [hreq, List.length_replicate]
  refine ⟨ls, s, hrun, ?_, ?_⟩
  · rw [Ne, table_none_iff hrun, hlen]
    exact fun hnone => hnone k (Nat.lt_succ_self k) hk
  · rw [table_none_iff hrun, hlen, ← hnext]
    intro j hj heq
    by_cases hwrap : k + 1 < 2 ^ 32
    · have hjk := address_inj (Nat.lt_trans hj hwrap) hwrap heq
      omega
    · -- the last address before the counter comes round does not end in 0
      obtain rfl : k = 2 ^ 32 - 1 := by omega
      have hlast : (address (2 ^ 32 - 1)).d = 9 := by decide
      rw [hk, hx] at hlast
      cases hlast

/-! ## 4. Isolation -/

/-- A datagram that is too short for a header, and no request, is not treated alike. -/
theorem server_short (e : E) (h : data.length < 20) (hne : data.length ≠ packetSize) :
    ¬ ServerIsolated E data := by
  intro hiso
  have hle : data.length ≤ bufSize := h.le.trans (by decide)
  have hd := destination_short h
  obtain ⟨ls, s, hrun, hsome, hnone⟩ := table_reaches e hd
  obtain ⟨client, hclient⟩ := Option.ne_none_iff_exists'.mp hsome
  have hpacket : ∀ x, (serverRuns E).Run
      (⟨.packet (packetTo x), (s.serve (.packet (packetTo x))).2⟩ :: ls)
      (s.recv (packetTo x)) := by
    intro x
    refine hrun.step (Prod.ext ?_ rfl)
    exact serve_frame rfl
  have hsame := (hiso _ _ _ _ e (hpacket { destination data with d := 0 })
    (hpacket { destination data with d := 1 }) ⟨rfl, rfl⟩).1
  have hdaddr : ∀ d, ((s.recv (packetTo { destination data with d := d })).buffer.fill data).daddr =
      { destination data with d := d } := fun d => daddr_stale s.buffer h d
  have hmy : ∀ d ∈ [(0 : UInt8), 1], ({ destination data with d := d } : Ip) ≠ htonl myAddr := by
    intro d hmem heq
    have hlast : d = 254 := congrArg Ip.d heq
    rw [hlast] at hmem
    exact absurd hmem (by decide)
  have hx : ({ destination data with d := 0 } : Ip) = destination data := by rw [← hd]
  have htable : ∀ y, (s.recv (packetTo y)).clientAddr = s.clientAddr := fun y => rfl
  rw [onDatagram_recv _ _ hle hne, onDatagram_recv _ _ hle hne, hdaddr, hdaddr,
    if_neg (hmy 0 (by decide)), if_neg (hmy 1 (by decide)), htable, htable, hx, hclient,
    hnone] at hsame
  cases hsame

/-- A client does not treat any short datagram alike. -/
theorem client_short (h : data.length < 20) : ¬ ClientIsolated data := by
  intro hiso
  have hle : data.length ≤ bufSize := h.le.trans (by decide)
  let t : Tunnel := .setUp (destination data).bytes
  have ht : t.virtualIp = destination data := rfl
  have hrun : ∀ x, clientRuns.Run [.packet (packetTo x)] (t.onTun (packetTo x)).1 :=
    fun x => .step (.start ⟨_, rfl⟩) rfl
  obtain ⟨packets, hwritten, hdropped⟩ := hiso _ _ _ _
    (hrun { destination data with d := 0 }) (hrun { destination data with d := 1 }) rfl
  have hdaddr : ∀ d, ((t.onTun (packetTo { destination data with d := d })).1.buffer.fill
      data).daddr = { destination data with d := d } := fun d => daddr_stale t.buffer h d
  have hip : ∀ x, (t.onTun x).1.virtualIp = destination data := fun x => rfl
  have hx : ({ destination data with d := 0 } : Ip) = destination data := by
    rw [← destination_short h]
  have hy : ({ destination data with d := 1 } : Ip) ≠ destination data := by
    intro heq
    have hone : (1 : UInt8) = 0 := (congrArg Ip.d heq).trans (destination_short h)
    cases hone
  rw [tunnel_onDatagram _ hle, hdaddr, hip] at hwritten hdropped
  rw [if_neg (not_not.mpr hx)] at hwritten
  rw [if_pos hy] at hdropped
  have hnil := List.append_cancel_right hdropped
  have hone := List.append_cancel_right hwritten
  rw [← hnil] at hone
  cases hone

/-- **Isolation**: the server treats the same datagram alike exactly when it has the size of a
request or a whole header, a client exactly when it has a whole header. -/
theorem stale_iff [Nonempty E] (h : data.length ≤ bufSize) :
    (ServerIsolated E data ↔ data.length = packetSize ∨ 20 ≤ data.length) ∧
      (ClientIsolated data ↔ 20 ≤ data.length) := by
  refine ⟨⟨fun hiso => ?_, fun hlen ls ms s t udpAddr _ _ hst => ?_⟩, fun hiso => ?_,
    fun hlen as bs t u _ _ hip => ?_⟩
  · by_contra hlen
    rw [not_or, Nat.not_le] at hlen
    obtain ⟨e⟩ := ‹Nonempty E›
    exact server_short e hlen.2 hlen.1 hiso
  · refine ⟨?_, onDatagram_addresses udpAddr hst⟩
    rcases hlen with hlen | hlen
    · exact onDatagram_config udpAddr hst hlen
    · rw [onDatagram_ipPacket s udpAddr ⟨hlen, h⟩, onDatagram_ipPacket t udpAddr ⟨hlen, h⟩, hst.1]
  · exact Nat.le_of_not_lt fun hlt => client_short hlt hiso
  · refine ⟨if destination data ≠ t.virtualIp then [] else [data], ?_, ?_⟩
    · rw [tunnel_onDatagram t h, daddr_fill t.buffer ⟨hlen, h⟩]
    · rw [tunnel_onDatagram u h, daddr_fill u.buffer ⟨hlen, h⟩, hip]

end Isolated

/-- A header, and a request. -/
theorem stale_header : ServerIsolated Nat toFirst ∧ ClientIsolated toFirst ∧
    ServerIsolated Nat request := by
  have hfirst : (ServerIsolated Nat toFirst ↔ _) ∧ (ClientIsolated toFirst ↔ _) :=
    stale_iff (by decide)
  have hrequest : (ServerIsolated Nat request ↔ _) ∧ _ := stale_iff (by decide)
  exact ⟨hfirst.1.mpr (.inr (by decide)), hfirst.2.mpr (by decide), hrequest.1.mpr (.inl rfl)⟩

/-- **An empty datagram** is what the packet before it was. -/
theorem empty_datagram : ¬ ServerIsolated Nat [] ∧ ¬ ClientIsolated [] :=
  ⟨server_short 0 (by decide) (by decide), client_short (by decide)⟩

end InpLabs.Vpn
