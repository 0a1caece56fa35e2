/-
  File:      InpLabs/Lib/CrcBits.lean
  Subject:   Reflected cyclic redundancy checks, bit by bit: bursts and odd numbers of errors.

  * `bits`: the bits of a string, each byte with its lowest bit first; `feedBit`: one of them into
    the register. `crc_eq_bits`: a check takes the bits in this order;
  * `foldl_feedBit`: up to as many bits as the register is wide can be added first and shifted out
    then. So `crc_burst`: strings that differ within so many places have different checks;
  * `parity`, `weight`: the number of ones modulo 2. A shift keeps it where the generator has an odd
    number of ones, so `crc_weight`: a check has the parity of its string.
-/
import Mathlib.Algebra.BigOperators.Group.Finset.Basic
import Mathlib.Algebra.BigOperators.Intervals
import Mathlib.Algebra.Field.ZMod
import InpLabs.Lib.Crc

namespace InpLabs.Lib.Crc

variable {w : Nat}

/-! ## 1. Bits -/

/-- The bits of a register, the lowest first. -/
def toBits (v : BitVec w) : List Bool := (List.range w).map v.getLsbD

/-- The bits of a string. -/
def bits (bs : List (BitVec 8)) : List Bool := bs.flatMap toBits

/-- A register that holds one bit. -/
def unit (b : Bool) : BitVec w := (BitVec.ofBool b).setWidth w

/-- One bit: add it to the low end, then shift it out. -/
def feedBit (poly c : BitVec w) (b : Bool) : BitVec w := shift poly (c ^^^ unit b)

/-- The register that holds some bits. -/
def word (l : List Bool) : BitVec w := (BitVec.ofBoolListLE l).setWidth w

section Words

variable {poly c : BitVec w} {l : List Bool}

@[simp] theorem toBits_length (v : BitVec w) : (toBits v).length = w := by simp [toBits]

theorem bits_cons (b : BitVec 8) (bs : List (BitVec 8)) : bits (b :: bs) = toBits b ++ bits bs :=
  List.flatMap_cons

theorem bits_append (as bs : List (BitVec 8)) : bits (as ++ bs) = bits as ++ bits bs :=
  List.flatMap_append

@[simp] theorem bits_length (bs : List (BitVec 8)) : (bits bs).length = 8 * bs.length := by
  induction bs with
  | nil => rfl
  | cons b bs ih =>
    rw [bits_cons, List.length_append, toBits_length, ih, List.length_cons]
    omega

theorem getLsbD_unit (b : Bool) (i : Nat) :
    (unit b : BitVec w).getLsbD i = (decide (i < w) && (decide (i = 0) && b)) := by
  simp [unit, BitVec.getLsbD_setWidth]

theorem getLsbD_word (l : List Bool) (i : Nat) :
    (word l : BitVec w).getLsbD i = (decide (i < w) && l.getD i false) := by
  simp [word, BitVec.getLsbD_setWidth]

theorem word_nil : (word [] : BitVec w) = 0 := by
  refine BitVec.eq_of_getLsbD_eq fun i hi => ?_
  simp [getLsbD_word]

theorem word_cons (b : Bool) (l : List Bool) :
    (word (b :: l) : BitVec w) = unit b ^^^ (word l <<< 1) := by
  refine BitVec.eq_of_getLsbD_eq fun i hi => ?_
  rw [BitVec.getLsbD_xor, BitVec.getLsbD_shiftLeft, getLsbD_word, getLsbD_word, getLsbD_unit]
  cases i with
  | zero => simp [hi]
  | succ i => simp [hi, Nat.lt_of_succ_lt hi]

/-- As many bits as the register is wide determine it. -/
theorem word_injective {m : List Bool} (hlen : l.length = m.length) (hw : l.length ≤ w)
    (h : (word l : BitVec w) = word m) : l = m := by
  refine List.ext_getElem hlen fun i hl hm => ?_
  have hbit := congrArg (fun v => v.getLsbD i) h
  have hi : i < w := by omega
  simp only [getLsbD_word] at hbit
  simpa [hi, hl, hm] using hbit

theorem word_toBits {n : Nat} (b : BitVec n) : (word (toBits b) : BitVec w) = b.setWidth w := by
  refine BitVec.eq_of_getLsbD_eq fun i hi => ?_
  rw [getLsbD_word, BitVec.getLsbD_setWidth]
  by_cases hn : i < n
  · simp [toBits, hn]
  · simp [toBits, hn, BitVec.getLsbD_of_ge b i (by omega)]

/-! ## 2. A string bit by bit -/

theorem shift_xor (a b : BitVec w) : shift poly (a ^^^ b) = shift poly a ^^^ shift poly b := by
  unfold shift
  rw [BitVec.getLsbD_xor, BitVec.ushiftRight_xor_distrib]
  cases a.getLsbD 0 <;> cases b.getLsbD 0
  · rfl
  · simp [BitVec.xor_assoc]
  · simp only [Bool.xor_false, if_true, Bool.false_eq_true, if_false]
    rw [BitVec.xor_assoc, BitVec.xor_assoc, BitVec.xor_comm poly]
  · simp only [Bool.xor_self, if_true, Bool.false_eq_true, if_false]
    rw [BitVec.xor_assoc, ← BitVec.xor_assoc poly, BitVec.xor_comm poly, BitVec.xor_assoc,
      BitVec.xor_self, BitVec.xor_zero]

/-- With room at the low end, a shift only moves the bits down. -/
theorem shift_word (h : l.length < w) : shift poly (word l <<< 1) = word l := by
  have hlow : ((word l : BitVec w) <<< 1).getLsbD 0 = false := by simp
  rw [shift, hlow, if_neg Bool.false_ne_true]
  refine BitVec.eq_of_getLsbD_eq fun i hi => ?_
  rw [BitVec.getLsbD_ushiftRight, BitVec.getLsbD_shiftLeft, getLsbD_word, getLsbD_word]
  by_cases hlast : 1 + i < w
  · simp [hlast, hi]
  · have hnone : l.length ≤ i := by omega
    simp [hlast, hnone]

/-- **Bits that fit into the register** may be added all at once, and shifted out then. -/
theorem foldl_feedBit (h : l.length ≤ w) :
    l.foldl (feedBit poly) c = (shift poly)^[l.length] (c ^^^ word l) := by
  induction l generalizing c with
  | nil =>
    rw [word_nil]
    simp
  | cons b l ih =>
    have hl : l.length < w := h
    rw [List.foldl_cons, ih (Nat.le_of_lt hl), List.length_cons, Function.iterate_succ_apply,
      word_cons, ← BitVec.xor_assoc, shift_xor (c ^^^ unit b), shift_word hl]
    rfl

theorem feed_eq_bits (hw : 8 ≤ w) (b : BitVec 8) :
    feed poly c b = (toBits b).foldl (feedBit poly) c := by
  rw [foldl_feedBit (by simpa using hw), toBits_length, word_toBits, feed]

/-- **A check takes the bits of its string one by one.** -/
theorem crc_eq_bits (hw : 8 ≤ w) (bs : List (BitVec 8)) (init : BitVec w) :
    crc poly bs init = (bits bs).foldl (feedBit poly) init := by
  induction bs generalizing init with
  | nil => rfl
  | cons b bs ih =>
    rw [bits_cons, List.foldl_append, ← feed_eq_bits hw, ← ih]
    rfl

theorem feedBit_injective (hp : poly.getLsbD (w - 1) = true) (b : Bool) :
    Function.Injective (feedBit poly · b) := fun _ _ h =>
  (BitVec.xor_left_inj _).mp (shift_injective hp h)

theorem toBits_injective {n : Nat} : Function.Injective (toBits : BitVec n → List Bool) := by
  intro a b h
  have hword := congrArg (fun l => (word l : BitVec n)) h
  simpa only [word_toBits, BitVec.setWidth_eq] using hword

theorem bits_injective : Function.Injective bits := by
  intro x y h
  have hlen := congrArg List.length h
  rw [bits_length, bits_length] at hlen
  induction x generalizing y with
  | nil =>
    rw [List.length_nil] at hlen
    exact (List.length_eq_zero_iff.mp (by omega)).symm
  | cons a x ih =>
    cases y with
    | nil =>
      rw [List.length_cons, List.length_nil] at hlen
      omega
    | cons b y =>
      rw [bits_cons, bits_cons] at h
      obtain ⟨hab, hxy⟩ := List.append_inj h (by simp)
      rw [toBits_injective hab, ih hxy (by simpa using hlen)]

/-- Strings that differ in the middle of their bits, in no more places than the register is wide. -/
theorem crc_ne_of_bits (hp : poly.getLsbD (w - 1) = true) (hw : 8 ≤ w) {x y : List (BitVec 8)}
    (pre post : List Bool) {a b : List Bool} (hx : bits x = pre ++ a ++ post)
    (hy : bits y = pre ++ b ++ post) (hlen : a.length = b.length) (hle : a.length ≤ w) (hab : a ≠ b)
    (init : BitVec w) : crc poly x init ≠ crc poly y init := by
  rw [crc_eq_bits hw, crc_eq_bits hw, hx, hy, List.foldl_append, List.foldl_append,
    List.foldl_append, List.foldl_append]
  intro h
  have hmid := foldl_injective (feedBit_injective hp) post h
  generalize pre.foldl (feedBit poly) init = c at hmid
  rw [foldl_feedBit hle, foldl_feedBit (hlen ▸ hle), hlen] at hmid
  have hxor := (shift_injective hp).iterate b.length hmid
  exact hab (word_injective hlen hle ((BitVec.xor_right_inj _).mp hxor))

/-- A list, cut before and behind a window. -/
theorem window {α : Type*} (l : List α) (k n : Nat) :
    l = l.take k ++ (l.drop k).take n ++ l.drop (k + n) := by
  rw [List.append_assoc, ← List.drop_drop, List.take_append_drop, List.take_append_drop]

/-- **A burst is detected**: differences within as many places as the register is wide. -/
theorem crc_burst (hp : poly.getLsbD (w - 1) = true) (hw : 8 ≤ w) {x y : List (BitVec 8)}
    (hlen : x.length = y.length) (hne : x ≠ y) {k : Nat}
    (hburst : ∀ i, (bits x)[i]? ≠ (bits y)[i]? → k ≤ i ∧ i < k + w) (init : BitVec w) :
    crc poly x init ≠ crc poly y init := by
  have hsame : ∀ i, ¬ (k ≤ i ∧ i < k + w) → (bits x)[i]? = (bits y)[i]? := fun i hi =>
    not_not.mp (mt (hburst i) hi)
  have hpre : (bits x).take k = (bits y).take k := by
    refine List.ext_getElem? fun i => ?_
    rw [List.getElem?_take, List.getElem?_take]
    split_ifs with hi
    · exact hsame i (by omega)
    · rfl
  have hpost : (bits x).drop (k + w) = (bits y).drop (k + w) := by
    refine List.ext_getElem? fun i => ?_
    rw [List.getElem?_drop, List.getElem?_drop]
    exact hsame _ (by omega)
  have hx := window (bits x) k w
  have hy := window (bits y) k w
  rw [← hpre, ← hpost] at hy
  refine crc_ne_of_bits hp hw _ _ hx hy ?_ ?_ (fun hmid => hne ?_) init
  · simp [hlen]
  · rw [List.length_take]
    exact Nat.min_le_left _ _
  · rw [hmid] at hx
    exact bits_injective (hx.trans hy.symm)

end Words

/-! ## 3. Parity -/

/-- A bit as a number modulo 2. -/
def one (b : Bool) : ZMod 2 := if b then 1 else 0

/-- The number of ones modulo 2. -/
def parity (l : List Bool) : ZMod 2 := (l.map one).sum

/-- The number of ones of a register modulo 2. -/
def weight (v : BitVec w) : ZMod 2 := ∑ i ∈ Finset.range w, one (v.getLsbD i)

/-- The number of places where two lists of bits differ. -/
def distance (a b : List Bool) : Nat := (List.zipWith xor a b).count true

section Parity

variable {poly c : BitVec w}

theorem one_xor (a b : Bool) : one (xor a b) = one a + one b := by
  cases a <;> cases b <;> decide

theorem parity_toBits (v : BitVec w) : parity (toBits v) = weight v := by
  unfold parity toBits weight
  rw [List.map_map]
  rfl

theorem parity_append (a b : List Bool) : parity (a ++ b) = parity a + parity b := by
  simp [parity]

theorem weight_xor (a b : BitVec w) : weight (a ^^^ b) = weight a + weight b := by
  simp only [weight, BitVec.getLsbD_xor, one_xor, Finset.sum_add_distrib]

theorem weight_unit (hw : 0 < w) (b : Bool) : weight (unit b : BitVec w) = one b := by
  unfold weight
  rw [Finset.sum_eq_single 0]
  · rw [getLsbD_unit]
    simp [hw]
  · intro i _ hi
    simp [getLsbD_unit, hi, one]
  · intro h
    exact absurd (Finset.mem_range.mpr hw) h

/-- The bit shifted out is all that is lost. -/
theorem weight_ushiftRight (c : BitVec w) : weight c = one (c.getLsbD 0) + weight (c >>> 1) := by
  have hsum := Finset.sum_range_succ' (fun i => one (c.getLsbD i)) w
  rw [Finset.sum_range_succ, BitVec.getLsbD_of_ge c w (le_refl w)] at hsum
  unfold weight
  simp only [BitVec.getLsbD_ushiftRight, Nat.add_comm 1]
  rw [add_comm, ← hsum]
  simp [one]

/-- **A shift keeps the parity** where the generator has an odd number of ones. -/
theorem weight_shift (hpoly : weight poly = 1) (c : BitVec w) :
    weight (shift poly c) = weight c := by
  rw [weight_ushiftRight c, shift]
  cases c.getLsbD 0 with
  | true =>
    rw [if_pos rfl, weight_xor, hpoly, add_comm]
    rfl
  | false =>
    rw [if_neg Bool.false_ne_true]
    exact (zero_add _).symm

theorem weight_foldl (hw : 0 < w) (hpoly : weight poly = 1) (l : List Bool) (c : BitVec w) :
    weight (l.foldl (feedBit poly) c) = weight c + parity l := by
  induction l generalizing c with
  | nil => exact (add_zero _).symm
  | cons b l ih =>
    rw [List.foldl_cons, ih, feedBit, weight_shift hpoly, weight_xor, weight_unit hw, add_assoc]
    rfl

/-- **The parity of a check** is that of its string, from the initial register on. -/
theorem crc_weight (hw : 8 ≤ w) (hpoly : weight poly = 1) (bs : List (BitVec 8)) (init : BitVec w) :
    weight (crc poly bs init) = weight init + parity (bits bs) := by
  rw [crc_eq_bits hw, weight_foldl (by omega) hpoly]

theorem distance_parity {a b : List Bool} (h : a.length = b.length) :
    (distance a b : ZMod 2) = parity a + parity b := by
  induction a generalizing b with
  | nil =>
    obtain rfl := List.length_eq_zero_iff.mp h.symm
    rfl
  | cons x a ih =>
    cases b with
    | nil => cases h
    | cons y b =>
      have hrest := ih (Nat.succ.inj h)
      have hcount : (distance (x :: a) (y :: b) : ZMod 2) = distance a b + one (xor x y) := by
        simp only [distance, List.zipWith_cons_cons, List.count_cons]
        cases x <;> cases y <;> simp [one]
      rw [hcount, hrest, one_xor]
      simp only [parity, List.map_cons, List.sum_cons]
      rw [add_add_add_comm, add_comm _ (one x), add_comm _ (one y)]

/-- An odd number of differing places is seen in the parity. -/
theorem parity_ne_of_odd {a b : List Bool} (h : a.length = b.length) (hodd : Odd (distance a b)) :
    parity a ≠ parity b := by
  intro he
  have hsum := distance_parity h
  rw [he, CharTwo.add_self_eq_zero] at hsum
  exact ZMod.natCast_ne_zero_iff_odd.mpr hodd hsum

/-- **An odd number of errors is detected**, -/
theorem crc_ne_of_odd (hw : 8 ≤ w) (hpoly : weight poly = 1) {x y : List (BitVec 8)}
    (hlen : x.length = y.length) (hodd : Odd (distance (bits x) (bits y))) (init : BitVec w) :
    crc poly x init ≠ crc poly y init := by
  intro h
  have hweight := congrArg weight h
  rw [crc_weight hw hpoly, crc_weight hw hpoly] at hweight
  exact parity_ne_of_odd (by simp [hlen]) hodd (add_left_cancel hweight)

/-- also where some of them are in the check. -/
theorem crc_ne_of_odd_field (hw : 8 ≤ w) (hpoly : weight poly = 1) {x y : List (BitVec 8)}
    {d init : BitVec w} (hlen : x.length = y.length)
    (hodd : Odd (distance (bits x ++ toBits (crc poly x init)) (bits y ++ toBits d))) :
    d ≠ crc poly y init := by
  rintro rfl
  refine parity_ne_of_odd (by simp [hlen]) hodd ?_
  rw [parity_append, parity_append, parity_toBits, parity_toBits, crc_weight hw hpoly,
    crc_weight hw hpoly, add_left_comm, CharTwo.add_self_eq_zero, add_left_comm,
    CharTwo.add_self_eq_zero]

end Parity

end InpLabs.Lib.Crc
