/-
  File:      InpLabs/Vpn/Ledger.lean
  Subject:   What the VPN server has answered, and its address table.

  * `Round.answer`, `ledger`: the addresses handed out in a run and to whom, the last one first;
  * `run_ledger`: after every run the table and the counter are those of the ledger, whose addresses
    are `ADDRBASE`, `ADDRBASE + 1`, and so on;
  * `Ledger.nodup`: they are distinct as long as the counter has not come round.
-/
import InpLabs.Vpn.Server
import Mathlib.Algebra.Group.Nat.Defs
import Mathlib.Data.List.Nodup

namespace InpLabs.Vpn

open InpLabs.Lib

/-! ## 1. Requests and answers -/

section Ledger

variable {E : Type*}

/-- `struct Packet config` with `virtual_ip` 0. -/
def request : Bytes := [0, 0, 0, 0]

/-- Who asks for an address. -/
def Event.requester : Event E → Option E
  | .datagram udpAddr data => if data = request then some udpAddr else none
  | .packet _ => none

/-- The address a round hands out, and to whom: what was sent when a request had arrived. -/
def Round.answer (l : Round E) : Option (Ip × E) :=
  match l.event.requester, l.outputs with
  | some _, [.sendto endpoint data] => some (Ip.ofBytes data, endpoint)
  | _, _ => none

/-- The answers of a run, the last one first. -/
def ledger (ls : List (Round E)) : List (Ip × E) := ls.filterMap Round.answer

/-- The requests of a run. -/
def requests (ls : List (Round E)) : List E := ls.filterMap fun l => l.event.requester

/-- The address of client number `k`. -/
def address (k : Nat) : Ip := htonl (addrBase + UInt32.ofNat k)

variable {s t : Server E} {e : E} {ev : Event E} {ls : List (Round E)} {data : Bytes}

theorem fill_front (buffer : Buffer) (h : data.length ≤ bufSize) :
    (buffer.fill data).1 = data ++ buffer.1.drop data.length := by
  show data.take bufSize ++ buffer.1.drop (data.take bufSize).length = _
  rw [List.take_of_length_le h]

/-- The first bytes of the buffer are a request exactly when what has arrived is one. -/
theorem request_iff (s : Server E) (h : data.length = packetSize) :
    Ip.ofBytes (s.recv data).buffer.1 = ⟨0, 0, 0, 0⟩ ↔ data = request := by
  have hle : data.length ≤ bufSize := by
    rw [h]
    decide
  have hfront : (s.recv data).buffer.1 = data ++ s.buffer.1.drop data.length := fill_front _ hle
  rw [hfront]
  match data, h with
  | [w, x, y, z], _ => simp [Ip.ofBytes, request]

/-- A request is answered with the next address. -/
theorem serve_request (h : ev.requester = some e) :
    s.serve ev = (s.recv ev.data).configure e := by
  cases ev with
  | packet data => cases h
  | datagram udpAddr data =>
    have hdata : data = request := by
      by_contra hne
      rw [Event.requester, if_neg hne] at h
      cases h
    rw [Event.requester, if_pos hdata] at h
    cases h
    subst hdata
    have hzero := (request_iff s (show request.length = packetSize from rfl)).mpr rfl
    have hlen : (request.take bufSize).length = packetSize := rfl
    show s.onDatagram e request = _
    unfold Server.onDatagram
    dsimp only
    rw [if_pos hlen, if_pos hzero]
    rfl

theorem forward_frame (s : Server E) (n : Nat) : (s.forward n).1 = s := by
  unfold Server.forward
  split <;> rfl

/-- Whatever else arrives leaves the table and the counter as they are. -/
theorem serve_frame (h : ev.requester = none) : (s.serve ev).1 = s.recv ev.data := by
  cases ev with
  | packet data => exact forward_frame _ _
  | datagram udpAddr data =>
    have hdata : data ≠ request := by
      intro heq
      rw [Event.requester, if_pos heq] at h
      cases h
    show (s.onDatagram udpAddr data).1 = s.recv data
    unfold Server.onDatagram
    dsimp only
    split
    · rename_i hlen
      have hlen' : data.length = packetSize := by
        rw [List.length_take] at hlen
        unfold packetSize bufSize at *
        omega
      rw [if_neg (mt (request_iff s hlen').mp hdata)]
    · split
      · rfl
      · exact forward_frame _ _

/-! ## 2. The invariant -/

/-- The table and the counter, after `answers`. -/
structure Ledger (answers : List (Ip × E)) (s : Server E) : Prop where
  addresses : answers.map Prod.fst = ((List.range answers.length).map address).reverse
  clientNum : s.clientNum = UInt32.ofNat answers.length
  clientAddr : ∀ x, s.clientAddr x = answers.lookup x

theorem Ledger.start : Ledger [] (.new : Server E) := ⟨rfl, rfl, fun _ => rfl⟩

/-- The round that answers a request. -/
theorem answer_of_request {l : Round E} (h : l.event.requester = some e)
    (hstep : s.serve l.event = (t, l.outputs)) :
    t = { s.recv l.event.data with
        clientAddr := Function.update s.clientAddr s.virtualIp (some e)
        clientNum := s.clientNum + 1 } ∧
      l.answer = some (s.virtualIp, e) := by
  rw [serve_request h] at hstep
  obtain ⟨ht, hout⟩ := Prod.mk.inj hstep
  refine ⟨ht.symm, ?_⟩
  unfold Round.answer
  rw [h, ← hout]
  rfl

theorem answer_of_other {l : Round E} (h : l.event.requester = none) : l.answer = none := by
  unfold Round.answer
  rw [h]

theorem Ledger.step {l : Round E} (hs : Ledger (ledger ls) s)
    (hstep : s.serve l.event = (t, l.outputs)) : Ledger (ledger (l :: ls)) t := by
  cases h : l.event.requester with
  | none =>
    have ht : t = s.recv l.event.data := by
      rw [← serve_frame h, hstep]
    rw [ledger, List.filterMap_cons, answer_of_other h, ht]
    exact ⟨hs.addresses, hs.clientNum, hs.clientAddr⟩
  | some e =>
    obtain ⟨rfl, hans⟩ := answer_of_request h hstep
    have hip : s.virtualIp = address (ledger ls).length := by
      unfold Server.virtualIp address
      rw [hs.clientNum]
    have hcons : ledger (l :: ls) = (s.virtualIp, e) :: ledger ls := by
      rw [ledger, List.filterMap_cons, hans]
      rfl
    rw [hcons]
    refine ⟨?_, ?_, fun x => ?_⟩
    · rw [List.map_cons, hs.addresses, List.length_cons, List.range_succ, List.map_append,
        List.reverse_append, hip]
      rfl
    · rw [List.length_cons, UInt32.ofNat_add, ← hs.clientNum]
      rfl
    · rw [List.lookup_cons, ← hs.clientAddr]
      show Function.update s.clientAddr s.virtualIp (some e) x = _
      rw [Function.update_apply]
      by_cases hx : x = s.virtualIp
      · simp [hx]
      · have hbeq : (x == s.virtualIp) = false := by simpa using hx
        rw [if_neg hx, hbeq]

/-- **After every run** the server has kept the ledger. -/
theorem run_ledger (h : (serverRuns E).Run ls s) : Ledger (ledger ls) s :=
  h.history_invariant (I := fun ls s => Ledger (ledger ls) s)
    (fun s (h0 : s = .new) => h0 ▸ Ledger.start)
    fun _ _ _ _ _ hs hstep => hs.step hstep

/-- Every request of a run is answered. -/
theorem ledger_length (h : (serverRuns E).Run ls s) :
    (ledger ls).length = (requests ls).length := by
  induction h with
  | start => rfl
  | @step ls l s t h hstep ih =>
    cases hreq : l.event.requester with
    | none => simpa [ledger, requests, answer_of_other hreq, hreq] using ih
    | some e =>
      obtain ⟨-, hans⟩ := answer_of_request hreq hstep
      simpa [ledger, requests, hans, hreq] using ih

/-! ## 3. The addresses -/

theorem htonl_injective : Function.Injective htonl := by
  intro v w h
  have ha := congrArg (fun x : Ip => x.a.toNat) h
  have hb := congrArg (fun x : Ip => x.b.toNat) h
  have hc := congrArg (fun x : Ip => x.c.toNat) h
  have hd := congrArg (fun x : Ip => x.d.toNat) h
  simp only [htonl, UInt32.toNat_toUInt8, UInt32.toNat_shiftRight, UInt32.reduceToNat,
    Nat.reduceMod, Nat.shiftRight_eq_div_pow, Nat.reducePow] at ha hb hc hd
  have hv := v.toNat_lt
  have hw := w.toNat_lt
  exact UInt32.toNat_inj.mp (by omega)

theorem address_inj {j k : Nat} (hj : j < 2 ^ 32) (hk : k < 2 ^ 32)
    (h : address j = address k) : j = k := by
  have heq := (UInt32.add_right_inj addrBase).mp (htonl_injective h)
  rw [← UInt32.toNat_ofNat_of_lt' hj, ← UInt32.toNat_ofNat_of_lt' hk, heq]

/-- The addresses are distinct until the counter comes round. -/
theorem Ledger.nodup {answers : List (Ip × E)} (hs : Ledger answers s)
    (hlt : answers.length ≤ 2 ^ 32) : (answers.map Prod.fst).Nodup := by
  rw [hs.addresses, List.nodup_reverse]
  refine List.nodup_range.map_on fun j hj k hk => ?_
  rw [List.mem_range] at hj hk
  exact address_inj (Nat.lt_of_lt_of_le hj hlt) (Nat.lt_of_lt_of_le hk hlt)

end Ledger

end InpLabs.Vpn
