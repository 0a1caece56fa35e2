/-
  File:      InpLabs/Lib/Radix.lean
  Subject:   Numbers with a fixed number of digits, and integers in memory.

  * `radix`: the lowest `k` digits of a number, lowest first; `ofDigits_radix`, `radix_ofDigits`: it
    and `Nat.ofDigits` undo each other, where the number fits and the digits are digits;
  * `foldl_horner`: the loop that multiplies and adds, over the highest digit first;
  * `le`, `ofLe`: unsigned integers in memory, the low byte first.
-/
import InpLabs.Lib.Cxx
import Mathlib.Data.Nat.Digits.Defs

namespace InpLabs.Lib

/-! ## 1. Digits -/

/-- The lowest `k` digits of `n` in base `b`, the lowest first. -/
def radix (b : Nat) : Nat → Nat → List Nat
  | 0, _ => []
  | k + 1, n => n % b :: radix b k (n / b)

section Digits

variable {b k n : Nat} {ds : List Nat}

theorem radix_length (b k n : Nat) : (radix b k n).length = k := by
  induction k generalizing n with
  | zero => rfl
  | succ k ih => rw [radix, List.length_cons, ih]

theorem lt_of_mem_radix (hb : 0 < b) {d : Nat} (h : d ∈ radix b k n) : d < b := by
  induction k generalizing n with
  | zero => cases h
  | succ k ih =>
    rcases List.mem_cons.mp h with rfl | h
    · exact Nat.mod_lt n hb
    · exact ih h

/-- The digits make up the number, as far as they reach. -/
theorem ofDigits_radix (b k n : Nat) : Nat.ofDigits b (radix b k n) = n % b ^ k := by
  induction k generalizing n with
  | zero => simp [radix, Nat.mod_one]
  | succ k ih => rw [radix, Nat.ofDigits_cons, ih, pow_succ', Nat.mod_mul]

theorem ofDigits_radix_of_lt (h : n < b ^ k) : Nat.ofDigits b (radix b k n) = n := by
  rw [ofDigits_radix, Nat.mod_eq_of_lt h]

/-- The digits of the number that digits make up. -/
theorem radix_ofDigits (h : ∀ d ∈ ds, d < b) : radix b ds.length (Nat.ofDigits b ds) = ds := by
  induction ds with
  | nil => rfl
  | cons d ds ih =>
    obtain ⟨hd, hds⟩ := List.forall_mem_cons.mp h
    have hpos : 0 < b := Nat.zero_lt_of_lt hd
    rw [List.length_cons, radix, Nat.ofDigits_cons, Nat.add_mul_mod_self_left,
      Nat.mod_eq_of_lt hd, Nat.add_mul_div_left _ _ hpos, Nat.div_eq_of_lt hd, Nat.zero_add,
      ih hds]

/-- Multiply by the base, add the next digit: the number of the digits, the highest first. -/
theorem foldl_horner (b : Nat) (ds : List Nat) :
    ds.foldl (fun n d => n * b + d) 0 = Nat.ofDigits b ds.reverse := by
  rw [Nat.ofDigits_eq_foldr, List.foldr_reverse]
  simp only [Nat.cast_id, Nat.add_comm, Nat.mul_comm]

end Digits

/-! ## 2. Integers in memory -/

/-- The `k` bytes of an unsigned integer, the low byte first. -/
def le (k n : Nat) : Bytes := (radix 256 k n).map UInt8.ofNat

/-- The integer that these bytes are. -/
def ofLe (bs : Bytes) : Nat := Nat.ofDigits 256 (bs.map UInt8.toNat)

theorem le_length (k n : Nat) : (le k n).length = k := by
  rw [le, List.length_map, radix_length]

/-- What is read is what was written, where it fits. -/
theorem ofLe_le {k n : Nat} (h : n < 256 ^ k) : ofLe (le k n) = n := by
  have hbytes : ((radix 256 k n).map UInt8.ofNat).map UInt8.toNat = radix 256 k n := by
    rw [List.map_map]
    refine (List.map_congr_left fun d hd => ?_).trans (List.map_id _)
    exact Nat.mod_eq_of_lt (lt_of_mem_radix (by decide) hd)
  rw [ofLe, le, hbytes, ofDigits_radix_of_lt h]

end InpLabs.Lib
