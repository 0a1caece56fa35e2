/-
  File:      InpLabs/Lib/Crc.lean
  Subject:   Reflected cyclic redundancy checks: the shift register, and what it detects.

  The register is a bit vector of any width; the generator is given with its lowest power in the
  highest bit. Nothing depends on the generator but that this bit is set, which makes one shift
  injective: the bit shifted out can be read off the result.

  * `shift`, `feed`, `crc`: one bit, one byte, a string of bytes;
  * `foldl_ne`: a fold whose steps are injective tells apart strings that differ in one place;
  * `crc_ne`: so a check detects every change of one byte.
-/
import Mathlib.Data.List.Basic
import Mathlib.Logic.Function.Iterate

namespace InpLabs.Lib

/-! ## 1. Folds with injective steps -/

section Fold

variable {σ α : Type*} {f : σ → α → σ}

theorem foldl_injective (hf : ∀ a, Function.Injective (f · a)) (l : List α) :
    Function.Injective (l.foldl f ·) := by
  induction l with
  | nil => exact fun s t h => h
  | cons a l ih => exact fun s t h => hf a (ih h)

/-- Strings that differ in one place are told apart. -/
theorem foldl_ne (hf : ∀ a, Function.Injective (f · a)) (hf' : ∀ s, Function.Injective (f s))
    (pre post : List α) {a b : α} (hab : a ≠ b) (s : σ) :
    (pre ++ a :: post).foldl f s ≠ (pre ++ b :: post).foldl f s := by
  rw [List.foldl_append, List.foldl_append, List.foldl_cons, List.foldl_cons]
  exact fun h => hab (hf' _ (foldl_injective hf post h))

end Fold

namespace Crc

variable {w : Nat}

/-! ## 2. The register -/

/-- One bit: shift to the right, and subtract the generator if a one was shifted out. -/
def shift (poly c : BitVec w) : BitVec w := if c.getLsbD 0 then (c >>> 1) ^^^ poly else c >>> 1

/-- One byte: add it to the low end, then shift it out. -/
def feed (poly c : BitVec w) (b : BitVec 8) : BitVec w := (shift poly)^[8] (c ^^^ b.setWidth w)

/-- The check of a string, from an initial register. -/
def crc (poly : BitVec w) (bs : List (BitVec 8)) (init : BitVec w) : BitVec w :=
  bs.foldl (feed poly) init

section Injective

variable {poly : BitVec w} (hp : poly.getLsbD (w - 1) = true)

include hp

theorem shift_injective : Function.Injective (shift poly) := by
  intro c d h
  -- the highest bit of the result is the bit shifted out
  have hhigh : ∀ c : BitVec w, (shift poly c).getLsbD (w - 1) = c.getLsbD 0 := by
    intro c
    unfold shift
    cases hc : c.getLsbD 0 with
    | true =>
      have hw : c.getLsbD (1 + (w - 1)) = false := BitVec.getLsbD_of_ge c _ (by omega)
      simp [hp, hw]
    | false =>
      have hw : c.getLsbD (1 + (w - 1)) = false := BitVec.getLsbD_of_ge c _ (by omega)
      simp [hw]
  have h0 : c.getLsbD 0 = d.getLsbD 0 := by rw [← hhigh c, ← hhigh d, h]
  have h1 : c >>> 1 = d >>> 1 := by
    unfold shift at h
    rw [h0] at h
    split at h
    · exact (BitVec.xor_left_inj poly).mp h
    · exact h
  refine BitVec.eq_of_getLsbD_eq fun i hi => ?_
  cases i with
  | zero => exact h0
  | succ i =>
    have hbit := congrArg (fun v => v.getLsbD i) h1
    simpa [Nat.add_comm] using hbit

theorem feed_injective_left (b : BitVec 8) : Function.Injective (feed poly · b) := by
  intro c d h
  have hxor := (shift_injective hp).iterate 8 h
  exact (BitVec.xor_left_inj _).mp hxor

theorem feed_injective_right (hw : 8 ≤ w) (c : BitVec w) : Function.Injective (feed poly c) := by
  intro a b h
  have hxor := (shift_injective hp).iterate 8 h
  have hset : a.setWidth w = b.setWidth w := (BitVec.xor_right_inj c).mp hxor
  have hcut := congrArg (fun v => v.setWidth 8) hset
  simpa [BitVec.setWidth_setWidth_of_le _ hw] using hcut

/-- A check depends on the register it starts from. -/
theorem crc_injective (bs : List (BitVec 8)) : Function.Injective (crc poly bs) :=
  foldl_injective (feed_injective_left hp) bs

/-- **A change of one byte is detected.** -/
theorem crc_ne (hw : 8 ≤ w) (pre post : List (BitVec 8)) {a b : BitVec 8} (hab : a ≠ b)
    (init : BitVec w) : crc poly (pre ++ a :: post) init ≠ crc poly (pre ++ b :: post) init :=
  foldl_ne (feed_injective_left hp) (feed_injective_right hp hw) pre post hab init

end Injective

end Crc

end InpLabs.Lib
