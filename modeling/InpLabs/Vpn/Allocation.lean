/-
  File:      InpLabs/Vpn/Allocation.lean
  Subject:   Which addresses the VPN server hands out: it counts up from `ADDRBASE` and stops
             nowhere.

  * `Usable`, `Allocates`: the addresses of a run are of the network, none of the reserved ones, and
    distinct;
  * `allocation_iff`: that holds of a run exactly when it has at most 244 requests;
  * `own_address_handed_out`: the next one is answered with the server's own address.
-/
import InpLabs.Vpn.Ledger

namespace InpLabs.Vpn

open InpLabs.Lib

/-- The address is one of 10.0.0.0/24. -/
def Ip.InNetwork (x : Ip) : Prop := x.a = 10 ∧ x.b = 0 ∧ x.c = 0

/-- An address a client may be given. -/
structure Usable (x : Ip) : Prop where
  inNetwork : x.InNetwork
  ne_network : x ≠ ⟨10, 0, 0, 0⟩
  ne_broadcast : x ≠ ⟨10, 0, 0, 255⟩
  ne_server : x ≠ ⟨10, 0, 0, 254⟩

section Allocation

variable {E : Type*} {s : Server E} {ls : List (Round E)} {j : Nat}

/-- All addresses handed out in a run are usable, and no two are the same. -/
def Allocates (ls : List (Round E)) : Prop :=
  (∀ x ∈ (ledger ls).map Prod.fst, Usable x) ∧ ((ledger ls).map Prod.fst).Nodup

/-- The addresses before the end of the network. -/
theorem address_eq (hj : j < 246) : address j = ⟨10, 0, 0, UInt8.ofNat (10 + j)⟩ := by
  have hsum : (addrBase + UInt32.ofNat j).toNat = 0x0a00000a + j := by
    rw [UInt32.toNat_add, UInt32.toNat_ofNat_of_lt' (show j < 2 ^ 32 by omega)]
    exact Nat.mod_eq_of_lt (show 0x0a00000a + j < 2 ^ 32 by omega)
  have ha : (0x0a00000a + j) / 2 ^ 24 % 2 ^ 8 = 10 := by omega
  have hb : (0x0a00000a + j) / 2 ^ 16 % 2 ^ 8 = 0 := by omega
  have hc : (0x0a00000a + j) / 2 ^ 8 % 2 ^ 8 = 0 := by omega
  have hd : (0x0a00000a + j) % 2 ^ 8 = (10 + j) % 2 ^ 8 := by omega
  unfold address htonl
  simp only [Ip.mk.injEq, ← UInt8.toNat_inj, UInt32.toNat_toUInt8, UInt32.toNat_shiftRight, hsum,
    Nat.shiftRight_eq_div_pow, UInt8.toNat_ofNat']
  exact ⟨ha, hb, hc, hd⟩

theorem address_usable (hj : j < 244) : Usable (address j) := by
  rw [address_eq (by omega)]
  have hlt : 10 + j < 2 ^ 8 := by omega
  have hd : (UInt8.ofNat (10 + j)).toNat = 10 + j := UInt8.toNat_ofNat_of_lt' hlt
  have hne : ∀ k : UInt8, k.toNat ≠ 10 + j →
      (⟨10, 0, 0, UInt8.ofNat (10 + j)⟩ : Ip) ≠ ⟨10, 0, 0, k⟩ := by
    intro k hk heq
    rw [← (Ip.mk.inj heq).2.2.2, hd] at hk
    exact hk rfl
  exact ⟨⟨rfl, rfl, rfl⟩, hne 0 (show 0 ≠ 10 + j by omega), hne 255 (show 255 ≠ 10 + j by omega),
    hne 254 (show 254 ≠ 10 + j by omega)⟩

/-- Request number 245 gets the address of the server. -/
theorem address_server : address 244 = ⟨10, 0, 0, 254⟩ := by decide

theorem mem_addresses (h : (serverRuns E).Run ls s) {x : Ip} :
    x ∈ (ledger ls).map Prod.fst ↔ ∃ j < (requests ls).length, address j = x := by
  rw [(run_ledger h).addresses, ledger_length h]
  simp

/-- **Allocation**: it keeps the rules in exactly the runs with at most 244 requests. -/
theorem allocation_iff (h : (serverRuns E).Run ls s) :
    Allocates ls ↔ (requests ls).length ≤ 244 := by
  constructor
  · intro hall
    by_contra hlt
    have hmem := (mem_addresses h).mpr ⟨244, Nat.lt_of_not_le hlt, address_server⟩
    exact (hall.1 _ hmem).ne_server rfl
  · intro hle
    refine ⟨fun x hx => ?_, (run_ledger h).nodup ?_⟩
    · obtain ⟨j, hj, rfl⟩ := (mem_addresses h).mp hx
      exact address_usable (Nat.lt_of_lt_of_le hj hle)
    · rw [ledger_length h]
      omega

/-- A run of requests from one endpoint. -/
theorem requests_run (e : E) (k : Nat) :
    ∃ ls s, (serverRuns E).Run ls s ∧ requests ls = List.replicate k e := by
  induction k with
  | zero => exact ⟨[], .new, .start rfl, rfl⟩
  | succ k ih =>
    obtain ⟨ls, s, hrun, hreq⟩ := ih
    let event : Event E := .datagram e request
    refine ⟨⟨event, (s.serve event).2⟩ :: ls, (s.serve event).1, hrun.step rfl, ?_⟩
    rw [List.replicate_succ, ← hreq]
    rfl

end Allocation

/-- Two requests. -/
theorem allocation_two : ∃ ls s, (serverRuns Nat).Run ls s ∧ requests ls = [1, 1] ∧
    Allocates ls := by
  obtain ⟨ls, s, hrun, hreq⟩ := requests_run (1 : Nat) 2
  exact ⟨ls, s, hrun, hreq, (allocation_iff hrun).mpr (by rw [hreq]; decide)⟩

/-- **The server's own address is handed out** after 244 others. -/
theorem own_address_handed_out : ∃ ls s, (serverRuns Nat).Run ls s ∧
    (requests ls).length = 245 ∧ ⟨10, 0, 0, 254⟩ ∈ (ledger ls).map Prod.fst := by
  obtain ⟨ls, s, hrun, hreq⟩ := requests_run (1 : Nat) 245
  have hlen : (requests ls).length = 245 := by rw [hreq, List.length_replicate]
  exact ⟨ls, s, hrun, hlen, (mem_addresses hrun).mpr ⟨244, by omega, address_server⟩⟩

end InpLabs.Vpn
