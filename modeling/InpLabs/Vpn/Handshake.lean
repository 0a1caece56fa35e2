/-
  File:      InpLabs/Vpn/Handshake.lean
  Subject:   The address a client configures: it is the one the server gave it, if what arrived
             first was the answer.

  * `Agreement`: every configured address is recorded for the client's own endpoint;
  * `Careful`: no client takes forwarded traffic for its configuration, and the server hands out no
    address twice;
  * `handshake`: `Agreement` holds in all runs of careful steps, so the addresses are distinct;
  * `early_packet`: a packet that overtakes the answer is taken for it.
-/
import InpLabs.Vpn.System

namespace InpLabs.Vpn

open InpLabs.Lib

/-! ## 1. What the server sends -/

section Server

variable {E : Type*} {s : Server E} {ev : Event E} {e : E} {data : Bytes} {x : Ip} {n : Nat}

theorem length_of_sent_forward (hn : n ≤ bufSize) (h : (e, data) ∈ sent (s.forward n).2) :
    data.length = n := by
  unfold Server.forward at h
  cases hx : s.clientAddr s.buffer.daddr with
  | none =>
    rw [hx] at h
    cases h
  | some client =>
    rw [hx] at h
    obtain ⟨rfl, rfl⟩ := Prod.mk.inj (List.mem_singleton.mp h)
    rw [List.length_take, s.buffer.2]
    exact Nat.min_eq_left hn

/-- The only datagrams of four bytes that the server sends are its answers. -/
theorem sent_packetSize (hev : ∀ data, ev = .packet data → IpPacket data)
    (h : (e, data) ∈ sent (s.serve ev).2) (hlen : data.length = packetSize) :
    ev.requester = some e ∧ data = s.virtualIp.bytes := by
  cases hreq : ev.requester with
  | some f =>
    rw [serve_request hreq] at h
    obtain ⟨rfl, rfl⟩ := Prod.mk.inj (List.mem_singleton.mp h)
    exact ⟨rfl, rfl⟩
  | none =>
    exfalso
    cases ev with
    | packet d =>
      have h20 := (hev d rfl).1
      have hle := (hev d rfl).2
      have hn := length_of_sent_forward (List.length_take_le _ _) h
      rw [hlen, List.take_of_length_le hle] at hn
      unfold packetSize at hn
      omega
    | datagram udpAddr d =>
      have hd : d ≠ request := by
        intro heq
        rw [Event.requester, if_pos heq] at hreq
        cases hreq
      change (e, data) ∈ sent (s.onDatagram udpAddr d).2 at h
      unfold Server.onDatagram at h
      dsimp only at h
      split at h
      · rename_i hn
        have hn' : d.length = packetSize := by
          rw [List.length_take] at hn
          unfold packetSize bufSize at *
          omega
        rw [if_neg (mt (request_iff s hn').mp hd)] at h
        cases h
      · rename_i hn
        split at h
        · cases h
        · exact hn ((length_of_sent_forward (List.length_take_le _ _) h).symm.trans hlen)

/-- A request that finds a free address redirects nobody. -/
theorem serve_keeps (hfree : ev.requester ≠ none → s.clientAddr s.virtualIp = none)
    (hx : s.clientAddr x = some e) : (s.serve ev).1.clientAddr x = some e := by
  cases hreq : ev.requester with
  | none =>
    rw [serve_frame hreq]
    exact hx
  | some f =>
    have hne : x ≠ s.virtualIp := by
      intro heq
      rw [heq, hfree (by rw [hreq]; exact Option.some_ne_none f)] at hx
      cases hx
    rw [serve_request hreq]
    exact (Function.update_of_ne hne _ _).trans hx

/-- The requester is recorded. -/
theorem serve_records (h : ev.requester = some e) :
    (s.serve ev).1.clientAddr s.virtualIp = some e := by
  rw [serve_request h]
  exact Function.update_self _ _ _

end Server

/-! ## 2. Agreement -/

section Handshake

variable {ι E : Type*} {ep : ι ↪ E} {w w' : World ι E} {c d : ι} {data : Bytes} {l : Label ι E}
  {ls : List (Label ι E)}

/-- What a client has configured is recorded for its endpoint. -/
def Agreement (ep : ι ↪ E) (w : World ι E) : Prop :=
  ∀ c t, w.client c = .up t → w.server.clientAddr t.virtualIp = some (ep c)

/-- What a client takes for its configuration has the size of one, and a request finds an address
that nobody has. -/
def Careful (w : World ι E) : Label ι E → Prop
  | .configure _ data => data.length = packetSize
  | .serve event => event.requester ≠ none → w.server.clientAddr w.server.virtualIp = none
  | _ => True

/-- A careful step, after which all processes go on. -/
def Orderly (accepts : Bytes → Prop) (w : World ι E) (l : Label ι E) : Prop :=
  Careful w l ∧ Accepted accepts w l

/-- Answers in flight are recorded, and what was configured is. -/
structure World.Inv (ep : ι ↪ E) (w : World ι E) : Prop where
  answer : ∀ e data, (e, data) ∈ w.toClient → data.length = packetSize →
    w.server.clientAddr (Ip.ofBytes data) = some e
  agreement : Agreement ep w

theorem World.Inv.start : (World.start : World ι E).Inv ep := by
  refine ⟨fun e data h _ => absurd h (Multiset.notMem_zero _), ?_⟩
  intro c t h
  cases h

theorem recvConfig_answer (h : data.length = packetSize) : recvConfig data = Ip.ofBytes data := by
  unfold recvConfig
  rw [List.take_of_length_le h.le, h]
  exact congrArg Ip.ofBytes (List.append_nil data)

/-- The server keeps both. -/
theorem World.Inv.serverMoves (hw : w.Inv ep) {ev : Event E}
    (hev : ∀ data, ev = .packet data → IpPacket data)
    (hfree : ev.requester ≠ none → w.server.clientAddr w.server.virtualIp = none) :
    (w.serverMoves ev).Inv ep := by
  refine ⟨fun e data h hlen => ?_, fun c t hc => serve_keeps hfree (hw.agreement c t hc)⟩
  rcases Multiset.mem_add.mp h with h | h
  · obtain ⟨hreq, rfl⟩ := sent_packetSize hev (Multiset.mem_coe.mp h) hlen
    exact serve_records hreq
  · exact serve_keeps hfree (hw.answer e data h hlen)

theorem tunnel_onDatagram_virtualIp (t : Tunnel) (data : Bytes) :
    (t.onDatagram data).virtualIp = t.virtualIp := by
  unfold Tunnel.onDatagram
  dsimp only
  split <;> rfl

variable [DecidableEq ι]

/-- Another client is where it was. -/
theorem Agreement.clientMoves (h : Agreement ep w) {pc : ClientPc}
    (hpc : ∀ t, pc = .up t → w.server.clientAddr t.virtualIp = some (ep c)) :
    Agreement ep (w.clientMoves c pc) := by
  intro d t hd
  change Function.update w.client c pc d = .up t at hd
  rw [Function.update_apply] at hd
  split at hd
  · rename_i hdc
    subst hdc
    exact hpc t hd
  · exact h d t hd

variable [DecidableEq E]

/-- **The step lemma.** -/
theorem World.Inv.step (hw : w.Inv ep) (hl : Careful w l) (hstep : Step ep w l w') :
    w'.Inv ep := by
  cases hstep with
  | request h =>
    refine ⟨hw.answer, hw.agreement.clientMoves ?_⟩
    intro t ht
    cases ht
  | @configure c data h hd =>
    refine ⟨fun e d hm => hw.answer e d (Multiset.mem_of_mem_erase hm),
      hw.agreement.clientMoves ?_⟩
    intro t ht
    cases ht
    show w.server.clientAddr (recvConfig data) = some (ep c)
    rw [recvConfig_answer hl]
    exact hw.answer _ _ hd hl
  | @clientDatagram c t data h hd =>
    refine ⟨fun e d hm => hw.answer e d (Multiset.mem_of_mem_erase hm),
      hw.agreement.clientMoves ?_⟩
    intro u hu
    cases hu
    rw [tunnel_onDatagram_virtualIp]
    exact hw.agreement c t h
  | @clientPacket c t data h hd =>
    refine ⟨hw.answer, hw.agreement.clientMoves ?_⟩
    intro u hu
    cases hu
    exact hw.agreement c t h
  | other => exact ⟨hw.answer, hw.agreement⟩
  | @datagram udpAddr d hd =>
    have hw' : { w with toServer := w.toServer.erase (udpAddr, d) }.Inv ep :=
      ⟨hw.answer, hw.agreement⟩
    refine hw'.serverMoves ?_ hl
    intro d h
    cases h
  | packet hd =>
    refine hw.serverMoves ?_ hl
    intro d h
    cases h
    exact hd
  | toServer h => exact ⟨hw.answer, hw.agreement⟩
  | toClient h => exact ⟨fun e d hm => hw.answer e d (Multiset.mem_of_subset h.subset hm),
      hw.agreement⟩

/-- **Agreement** in all runs of careful steps; so no two clients have the same address. -/
theorem handshake (h : ((vpn ep).restrict Careful).Run ls w) :
    Agreement ep w ∧ ∀ c d t u, w.client c = .up t → w.client d = .up u →
      t.virtualIp = u.virtualIp → c = d := by
  have hinv : w.Inv ep := h.invariant (fun w (h0 : w = .start) => h0 ▸ World.Inv.start)
    fun _ _ _ hw hs => hw.step hs.1 hs.2
  refine ⟨hinv.agreement, fun c d t u hc hd heq => ?_⟩
  have hct := hinv.agreement c t hc
  rw [heq, hinv.agreement d u hd] at hct
  exact (ep.injective (Option.some.inj hct)).symm

/-! ## 3. What arrives first -/

variable (ep) in
/-- The client's request reaches the server. -/
theorem asked (w : World ι E) (hc : w.client c = .start) :
    ∃ w₁ w₂, Step ep w (.request c) w₁ ∧ Step ep w₁ (.serve (.datagram (ep c) request)) w₂ ∧
      w₂.client = Function.update w.client c .waiting ∧
      w₂.server = ((w.server.recv request).configure (ep c)).1 ∧
      (ep c, w.server.virtualIp.bytes) ∈ w₂.toClient := by
  have hreq : (Event.datagram (ep c) request).requester = some (ep c) := rfl
  refine ⟨_, _, .request hc, .datagram (Multiset.mem_cons_self _ _), rfl, ?_, ?_⟩
  · exact congrArg Prod.fst (serve_request hreq)
  · refine Multiset.mem_add.mpr (.inl (Multiset.mem_coe.mpr ?_))
    show _ ∈ sent (w.server.serve (.datagram (ep c) request)).2
    rw [serve_request hreq]
    exact List.mem_singleton_self _

/-- The answer arrives. -/
theorem answered {accepts : Bytes → Prop} (h : ((vpn ep).restrict (Orderly accepts)).Run ls w)
    (hc : w.client c = .start) (hfree : w.server.clientAddr w.server.virtualIp = none) :
    ∃ w', ((vpn ep).restrict (Orderly accepts)).Run
        (.configure c w.server.virtualIp.bytes :: .serve (.datagram (ep c) request) ::
          .request c :: ls) w' ∧
      w'.client = Function.update w.client c (.up (.setUp w.server.virtualIp.bytes)) ∧
      w'.server = ((w.server.recv request).configure (ep c)).1 := by
  obtain ⟨w₁, w₂, h₁, h₂, hclient, hserver, hmem⟩ := asked ep w hc
  have hw₁ : w₁.server = w.server := by
    cases h₁
    rfl
  have hwait : w₂.client c = .waiting := by rw [hclient, Function.update_self]
  have hrun₁ : ((vpn ep).restrict (Orderly accepts)).Run (.request c :: ls) w₁ :=
    h.step ⟨⟨trivial, trivial⟩, h₁⟩
  have hnothing : Accepted accepts w₁ (.serve (.datagram (ep c) request)) := by
    intro d hd
    rw [serve_request (e := ep c) rfl] at hd
    cases List.mem_singleton.mp hd
  have hrun₂ : ((vpn ep).restrict (Orderly accepts)).Run
      (.serve (.datagram (ep c) request) :: .request c :: ls) w₂ := by
    refine hrun₁.step ⟨⟨fun _ => ?_, hnothing⟩, h₂⟩
    rw [hw₁]
    exact hfree
  have hlen : Careful w₂ (.configure c w.server.virtualIp.bytes) := rfl
  refine ⟨_, hrun₂.step ⟨⟨hlen, trivial⟩, .configure hwait hmem⟩, ?_, hserver⟩
  show Function.update w₂.client c _ = _
  rw [hclient, Function.update_idem]

/-- **A packet for the new address overtakes the answer**: the client configures its first four
bytes. -/
theorem early_packet (h : (vpn ep).Reachable w) (hc : w.client c = .start) (hd : IpPacket data)
    (hdest : destination data = w.server.virtualIp) :
    ∃ w', (vpn ep).Reachable w' ∧
      w'.client = Function.update w.client c (.up (.setUp data)) ∧
      w'.server.clientNum = w.server.clientNum + 1 ∧
      w'.server.clientAddr =
        Function.update w.server.clientAddr w.server.virtualIp (some (ep c)) := by
  obtain ⟨w₁, w₂, h₁, h₂, hclient, hserver, -⟩ := asked ep w hc
  have hwait : w₂.client c = .waiting := by rw [hclient, Function.update_self]
  have haddr : w₂.server.clientAddr (destination data) = some (ep c) := by
    rw [hserver, hdest]
    exact Function.update_self _ _ _
  have hframe : (w₂.server.serve (.packet data)).1 = _ := serve_frame (requester_ipPacket hd)
  have hmem : (ep c, data) ∈ (w₂.serverMoves (.packet data)).toClient := by
    refine Multiset.mem_add.mpr (.inl (Multiset.mem_coe.mpr ?_))
    have hout : (w₂.server.serve (.packet data)).2 = _ := onTun_ipPacket w₂.server hd
    rw [hout, haddr]
    exact List.mem_singleton_self _
  have h₃ : (vpn ep).Reachable (w₂.serverMoves (.packet data)) :=
    ((h.step h₁).step h₂).step (.packet hd)
  refine ⟨_, h₃.step (.configure hwait hmem), ?_, ?_, ?_⟩
  · show Function.update w₂.client c _ = _
    rw [hclient, Function.update_idem]
  · show (w₂.server.serve (.packet data)).1.clientNum = _
    rw [hframe, hserver]
    rfl
  · show (w₂.server.serve (.packet data)).1.clientAddr = _
    rw [hframe, hserver]
    rfl

end Handshake

/-- Two clients are answered, one after the other. -/
theorem two_answered (accepts : Bytes → Prop) : ∃ w : World ℕ ℕ,
    ((vpn (.refl ℕ)).restrict (Orderly accepts)).Run
      [.configure 1 [10, 0, 0, 11], .serve (.datagram 1 request), .request 1,
        .configure 0 [10, 0, 0, 10], .serve (.datagram 0 request), .request 0] w ∧
      w.client 0 = .up (.setUp [10, 0, 0, 10]) ∧ w.client 1 = .up (.setUp [10, 0, 0, 11]) := by
  have hfirst : htonl (addrBase + 0) = ⟨10, 0, 0, 10⟩ := by decide
  have hsecond : htonl (addrBase + (0 + 1)) = ⟨10, 0, 0, 11⟩ := by decide
  have hstart : ((vpn (.refl ℕ)).restrict (Orderly accepts)).Run [] .start := .start rfl
  obtain ⟨w₁, hrun₁, hclient₁, hserver₁⟩ := answered (c := 0) hstart rfl rfl
  have hip₁ : (World.start : World ℕ ℕ).server.virtualIp = ⟨10, 0, 0, 10⟩ := hfirst
  have hip₂ : w₁.server.virtualIp = ⟨10, 0, 0, 11⟩ := by
    rw [hserver₁]
    exact hsecond
  have hfree : w₁.server.clientAddr w₁.server.virtualIp = none := by
    rw [hip₂, hserver₁]
    show Function.update (World.start : World ℕ ℕ).server.clientAddr
      (World.start : World ℕ ℕ).server.virtualIp (some 0) ⟨10, 0, 0, 11⟩ = none
    rw [hip₁]
    exact Function.update_of_ne (by decide) _ _
  have hidle : w₁.client 1 = .start := by
    rw [hclient₁]
    exact Function.update_of_ne (by decide) _ _
  obtain ⟨w₂, hrun₂, hclient₂, -⟩ := answered (c := 1) hrun₁ hidle hfree
  rw [hip₁, hip₂] at *
  refine ⟨w₂, hrun₂, ?_, ?_⟩
  · rw [hclient₂, Function.update_of_ne (by decide), hclient₁, Function.update_self]
    rfl
  · rw [hclient₂, Function.update_self]
    rfl

/-- Answers that are not overtaken. -/
theorem handshake_answered : ∃ w : World ℕ ℕ,
    ((vpn (.refl ℕ)).restrict Careful).Run
      [.configure 1 [10, 0, 0, 11], .serve (.datagram 1 request), .request 1,
        .configure 0 [10, 0, 0, 10], .serve (.datagram 0 request), .request 0] w ∧
      w.client 0 = .up (.setUp [10, 0, 0, 10]) ∧ w.client 1 = .up (.setUp [10, 0, 0, 11]) ∧
        w.server.clientAddr ⟨10, 0, 0, 10⟩ = some 0 ∧
          w.server.clientAddr ⟨10, 0, 0, 11⟩ = some 1 := by
  obtain ⟨w, hrun, h0, h1⟩ := two_answered fun _ => True
  have hrun := hrun.restrict_mono fun _ _ h => h.1
  obtain ⟨hagree, -⟩ := handshake hrun
  exact ⟨w, hrun, h0, h1, hagree 0 _ h0, hagree 1 _ h1⟩

/-- A packet to 10.0.0.`k`, with the first bytes of an IP header. -/
def pingTo (k : UInt8) : Bytes := [0x45, 0, 0, 0x54] ++ List.replicate 12 0 ++ [10, 0, 0, k]

/-- **Two clients configure 69.0.0.84**, which the server gave to nobody. -/
theorem header_configured : ∃ w : World ℕ ℕ, (vpn (.refl ℕ)).Reachable w ∧
    w.client 0 = .up (.setUp (pingTo 10)) ∧ w.client 1 = .up (.setUp (pingTo 11)) ∧
    recvConfig (pingTo 10) = ⟨69, 0, 0, 84⟩ ∧ recvConfig (pingTo 11) = ⟨69, 0, 0, 84⟩ ∧
    w.server.clientAddr ⟨69, 0, 0, 84⟩ = none := by
  have hfirst : htonl (addrBase + 0) = ⟨10, 0, 0, 10⟩ := by decide
  have hsecond : htonl (addrBase + (0 + 1)) = ⟨10, 0, 0, 11⟩ := by decide
  have hstart : (vpn (.refl ℕ)).Reachable .start := ⟨[], .start rfl⟩
  have hping : ∀ k, IpPacket (pingTo k) := fun k => by
    have hlen : (pingTo k).length = 20 := rfl
    exact ⟨hlen.ge, hlen.le.trans (by decide)⟩
  obtain ⟨w₁, hw₁, hclient₁, hnum₁, haddr₁⟩ :=
    early_packet (c := 0) hstart rfl (hping 10) hfirst.symm
  have hone : w₁.client 1 = .start := by rw [hclient₁, Function.update_of_ne (by decide)]; rfl
  have hdest : destination (pingTo 11) = w₁.server.virtualIp := by
    unfold Server.virtualIp
    rw [hnum₁]
    exact hsecond.symm
  obtain ⟨w₂, hw₂, hclient₂, -, haddr₂⟩ := early_packet hw₁ hone (hping 11) hdest
  refine ⟨w₂, hw₂, ?_, ?_, rfl, rfl, ?_⟩
  · rw [hclient₂, Function.update_of_ne (by decide), hclient₁, Function.update_self]
  · rw [hclient₂, Function.update_self]
  · rw [haddr₂, ← hdest, haddr₁, Function.update_of_ne (by decide)]
    have hstart : (World.start : World ℕ ℕ).server.virtualIp = ⟨10, 0, 0, 10⟩ := hfirst
    rw [hstart]
    exact Function.update_of_ne (by decide) _ _

end InpLabs.Vpn
