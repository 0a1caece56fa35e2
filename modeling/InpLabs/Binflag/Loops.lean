/-
  File:      InpLabs/Binflag/Loops.lean
  Subject:   What the loops of the decoder compute, and exactly when their indices are right.

  * `convert_loadU16`, `convert_loadU32`: a loaded and converted field is big-endian;
  * `xorLoop_all`, `xorLoop_yields`: the checksum of a payload;
  * `copyLoop_all`, `copyLoop_yields`: the copy into the dictionary;
  * `convertLoop_all`, `printLoop_all`: the offsets of the flag, and the digits.
-/
import InpLabs.Binflag.Decoder
import InpLabs.Binflag.Format
import Mathlib.Tactic.IntervalCases

namespace InpLabs.Binflag

open InpLabs.Lib Traced

/-! ## 1. Integers -/

theorem unit_eq_or (hi lo : UInt8) : unit hi lo = (hi.toUInt16 <<< 8) ||| lo.toUInt16 := by
  have hhi := hi.toNat_lt
  have hlo := lo.toNat_lt
  have hshift : (hi.toUInt16 <<< 8).toNat = hi.toNat <<< 8 := by
    simp only [UInt16.toNat_shiftLeft, UInt8.toNat_toUInt16, UInt16.reduceToNat, Nat.reduceMod]
    rw [Nat.shiftLeft_eq]
    exact Nat.mod_eq_of_lt (by omega)
  apply UInt16.toNat_inj.mp
  unfold unit
  rw [UInt16.toNat_add, UInt16.toNat_or, hshift, UInt8.toNat_toUInt16,
    ← Nat.shiftLeft_add_eq_or_of_lt hlo, Nat.shiftLeft_eq]
  exact Nat.mod_eq_of_lt (by omega)

theorem unit_be16 (v : UInt16) : unit (v >>> 8).toUInt8 v.toUInt8 = v := by
  have hv := v.toNat_lt
  apply UInt16.toNat_inj.mp
  simp [unit, Nat.shiftLeft_eq, Nat.shiftRight_eq_div_pow]
  omega

theorem be16_unit (hi lo : UInt8) : be16 (unit hi lo) = [hi, lo] := by
  have hhi := hi.toNat_lt
  have hlo := lo.toNat_lt
  simp [unit, be16, Nat.shiftLeft_eq, Nat.shiftRight_eq_div_pow, ← UInt8.toNat_inj]
  omega

theorem word_be32 (v : UInt32) :
    word (v >>> 24).toUInt8 (v >>> 16).toUInt8 (v >>> 8).toUInt8 v.toUInt8 = v := by
  apply UInt32.toBitVec_inj.mp
  unfold word
  ext i hi
  interval_cases i <;> simp [-UInt32.toUInt32_toUInt8]

theorem be32_word (a b c d : UInt8) : be32 (word a b c d) = [a, b, c, d] := by
  unfold be32 word
  simp only [List.cons.injEq, and_true, ← UInt8.toBitVec_inj]
  refine ⟨?_, ?_, ?_, ?_⟩
  all_goals
    ext i hi
    interval_cases i <;> simp

/-- A field of two bytes, after its conversion. -/
theorem convert_loadU16 (m : Memory) (k : Nat) :
    convertIndianU16 (loadU16 m k) = unit (m k) (m (k + 1)) := by
  rw [unit_eq_or]
  apply UInt16.toBitVec_inj.mp
  unfold convertIndianU16 loadU16
  ext i hi
  interval_cases i <;> simp

/-- A field of four bytes, after its conversion. -/
theorem convert_loadU32 (m : Memory) (k : Nat) :
    convertIndianU32 (loadU32 m k) = word (m k) (m (k + 1)) (m (k + 2)) (m (k + 3)) := by
  apply UInt32.toBitVec_inj.mp
  unfold convertIndianU32 loadU32 word
  ext i hi
  interval_cases i <;> simp

/-- What was read is in memory. -/
theorem Memory.fill_add (m : Memory) (pos : Nat) {data : Bytes} {k : Nat} (h : k < data.length) :
    m.fill pos data (pos + k) = data.getD k 0 := by
  unfold Memory.fill
  rw [if_pos (Nat.le_add_right pos k), Nat.add_sub_cancel_left]
  simp [List.getD_eq_getElem?_getD, h]

/-! ## 2. Accesses -/

section Access

variable {α β : Type} {region : Region} {index allocated filled : Nat} {v : α} {f : α → Run β}
  {Q : β → Prop}

theorem all_use :
    (use region index allocated filled v).All Access.Safe ↔ index < allocated ∧ index < filled :=
  all_touch

theorem all_use_bind :
    (use region index allocated filled v >>= f).All Access.Safe ↔
      (index < allocated ∧ index < filled) ∧ (f v).All Access.Safe :=
  all_touch_bind fun h => decide_eq_true h.1

theorem yields_use {Q : α → Prop} (ha : index < allocated) (hf : index < filled) (hv : Q v) :
    (use region index allocated filled v).Yields Access.Safe Q :=
  yields_touch ⟨ha, hf⟩ (decide_eq_true ha) hv

theorem yields_use_bind (ha : index < allocated) (hf : index < filled)
    (h : (f v).Yields Access.Safe Q) :
    (use region index allocated filled v >>= f).Yields Access.Safe Q := by
  refine (yields_use (Q := (· = v)) ha hf rfl).bind fun a hv => ?_
  rw [hv]
  exact h

end Access

/-! ## 3. The checksum -/

section Checksum

variable {payload : Memory} {data : Bytes} {length i : Nat}

theorem units_take (h : 2 * i + 1 < data.length) :
    units (data.take (2 * (i + 1))) =
      units (data.take (2 * i)) ++ [unit (data.getD (2 * i) 0) (data.getD (2 * i + 1) 0)] := by
  induction i generalizing data with
  | zero =>
    match data, h with
    | hi :: lo :: _, _ => rfl
  | succ i ih =>
    match data, h with
    | hi :: lo :: data, h =>
      have hlt : 2 * i + 1 < data.length := by
        rw [List.length_cons, List.length_cons] at h
        omega
      have hrec := ih hlt
      show unit hi lo :: units (data.take (2 * (i + 1))) = unit hi lo :: _
      rw [hrec]
      rfl

theorem cksumOf_take (h : 2 * i + 1 < data.length) :
    cksumOf (data.take (2 * (i + 1))) =
      cksumOf (data.take (2 * i)) ^^^ unit (data.getD (2 * i) 0) (data.getD (2 * i + 1) 0) := by
  unfold cksumOf
  rw [units_take h, List.foldl_append]
  rfl

variable (hp : ∀ k < data.length, payload k = data.getD k 0) (hle : data.length ≤ length)

include hp hle

/-- A round of the loop: its two indices, and the checksum up to there. -/
theorem xorRound_spec {n : Nat} : ∀ i x, 0 ≤ i → i < 0 + n → x = cksumOf (data.take (2 * i)) →
    ((xorRound payload length data.length i x).All Access.Safe → 2 * i + 1 < data.length) ∧
      (2 * i + 1 < data.length → (xorRound payload length data.length i x).Yields Access.Safe
        (· = cksumOf (data.take (2 * (i + 1))))) := by
  intro i x _ _ hx
  unfold xorRound
  constructor
  · intro h
    exact (all_use_bind.mp (all_use_bind.mp h).2).1.2
  · intro h
    refine yields_use_bind (by omega) (by omega) (yields_use_bind (by omega) h (yields_pure ?_))
    rw [cksumOf_take h, hx, hp _ (by omega), hp _ h]
    rfl

/-- The loop stays inside the payload exactly when its length is even and all of it was read. -/
theorem xorLoop_all :
    (forLoop (xorRound payload length data.length) ((length + 1) / 2) 0 0).All Access.Safe ↔
      data.length = length ∧ length % 2 = 0 := by
  have h0 : (0 : UInt16) = cksumOf (data.take (2 * 0)) := rfl
  rw [forLoop_all_iff (xorRound_spec hp hle) h0]
  constructor
  · intro h
    by_cases hz : length = 0
    · omega
    · have hlast := h ((length + 1) / 2 - 1) (by omega) (by omega)
      omega
  · intro h j _ hj
    omega

theorem xorLoop_yields (hlen : data.length = length) (heven : length % 2 = 0) :
    (forLoop (xorRound payload length data.length) ((length + 1) / 2) 0 0).Yields Access.Safe
      (· = cksumOf data) := by
  have h0 : (0 : UInt16) = cksumOf (data.take (2 * 0)) := rfl
  have hin : ∀ j, 0 ≤ j → j < 0 + (length + 1) / 2 → 2 * j + 1 < data.length := by
    intro j _ hj
    omega
  refine (forLoop_yields (xorRound_spec hp hle) h0 hin).mono fun x hx => ?_
  rw [hx, List.take_of_length_le (by omega)]

end Checksum

/-! ## 4. The copy -/

section Copy

variable {payload dict : Memory} {datasize offset length filled : Nat}

/-- `bs` are in memory from `o` on. -/
def put (dict : Memory) (o : Nat) (bs : Bytes) : Memory :=
  fun k => if o ≤ k ∧ k < o + bs.length then bs.getD (k - o) 0 else dict k

theorem put_take_succ {bs : Bytes} {o i : Nat} (h : i < bs.length) :
    put dict o (bs.take (i + 1)) =
      Function.update (put dict o (bs.take i)) (o + i) (bs.getD i 0) := by
  funext k
  rw [Function.update_apply]
  unfold put
  rw [List.length_take, List.length_take, Nat.min_eq_left h, Nat.min_eq_left h.le]
  by_cases hk : k = o + i
  · subst hk
    rw [if_pos rfl, if_pos (by omega), Nat.add_sub_cancel_left]
    simp [List.getD_eq_getElem?_getD]
  · rw [if_neg hk]
    by_cases hin : o ≤ k ∧ k < o + i
    · rw [if_pos (by omega), if_pos hin]
      have hlt : k - o < i := by omega
      have hlt' : k - o < i + 1 := by omega
      simp [List.getD_eq_getElem?_getD, hlt, hlt']
    · rw [if_neg (by omega), if_neg hin]

theorem put_nil (dict : Memory) (o : Nat) : put dict o [] = dict := by
  funext k
  exact if_neg (by simp only [List.length_nil]; omega)

variable {data : Bytes} (hp : ∀ k < data.length, payload k = data.getD k 0)

include hp

/-- A round of the copy: its index into the dictionary, and what is there after it. -/
theorem copyRound_spec : ∀ i d, 0 ≤ i → i < 0 + data.length → d = put dict offset (data.take i) →
    ((copyRound payload datasize offset data.length data.length i d).All Access.Safe →
        offset + i < datasize) ∧
      (offset + i < datasize →
        (copyRound payload datasize offset data.length data.length i d).Yields Access.Safe
          (· = put dict offset (data.take (i + 1)))) := by
  intro i d _ hi hd
  rw [Nat.zero_add] at hi
  unfold copyRound
  constructor
  · intro h
    exact (all_use.mp (all_use_bind.mp h).2).1
  · intro h
    refine yields_use_bind hi hi (yields_use h h ?_)
    rw [put_take_succ hi, hd, hp i hi]

/-- The copy stays inside the dictionary exactly when the payload fits. -/
theorem copyLoop_all :
    (forLoop (copyRound payload datasize offset data.length data.length) data.length 0 dict).All
        Access.Safe ↔
      (data ≠ [] → offset + data.length ≤ datasize) := by
  rw [forLoop_all_iff (copyRound_spec hp) (put_nil dict offset).symm]
  constructor
  · intro h hne
    have hpos := List.length_pos_iff.mpr hne
    have hlast := h (data.length - 1) (by omega) (by omega)
    omega
  · intro h j _ hj
    have hpos : 0 < data.length := by omega
    have hfit := h (List.length_pos_iff.mp hpos)
    omega

theorem copyLoop_yields (hfit : data ≠ [] → offset + data.length ≤ datasize) :
    (forLoop (copyRound payload datasize offset data.length data.length) data.length 0 dict).Yields
      Access.Safe (· = put dict offset data) := by
  have hin : ∀ j, 0 ≤ j → j < 0 + data.length → offset + j < datasize := by
    intro j _ hj
    have hpos : 0 < data.length := by omega
    have hall := hfit (List.length_pos_iff.mp hpos)
    omega
  have hloop := forLoop_yields (copyRound_spec hp) (put_nil dict offset).symm hin
  refine hloop.mono fun d hd => ?_
  rw [hd, List.take_of_length_le (by omega)]

end Copy

/-! ## 5. The flag -/

section Flag

variable {array : Nat → UInt32} {dict : Memory} {datasize length filled : Nat}

/-- The array after the offsets before `i` are converted. -/
def converted (array : Nat → UInt32) (i : Nat) : Nat → UInt32 :=
  fun k => if k < i then convertIndianU32 (array k) else array k

theorem converted_zero (array : Nat → UInt32) : converted array 0 = array := by
  funext k
  exact if_neg (Nat.not_lt_zero k)

theorem convertRound_spec : ∀ i o, 0 ≤ i → i < 0 + length →
    o = converted array i →
    ((convertRound length filled i o).All Access.Safe → i < filled) ∧
      (i < filled → (convertRound length filled i o).Yields Access.Safe
        (· = converted array (i + 1))) := by
  intro i o _ _ ho
  unfold convertRound
  refine ⟨fun h => (all_use.mp h).2, fun h => yields_use (by omega) h ?_⟩
  funext k
  rw [Function.update_apply, ho]
  unfold converted
  by_cases hk : k = i
  · subst hk
    simp
  · have hiff : k < i ↔ k < i + 1 := by omega
    simp [hk, hiff]

/-- The conversion is right exactly when all offsets were read. -/
theorem convertLoop_all (hle : filled ≤ length) :
    (forLoop (convertRound length filled) length 0 array).All Access.Safe ↔ filled = length := by
  rw [forLoop_all_iff convertRound_spec (converted_zero array).symm]
  constructor
  · intro h
    by_cases hz : length = 0
    · omega
    · have hlast := h (length - 1) (by omega) (by omega)
      omega
  · intro h j _ hj
    omega

theorem convertLoop_yields :
    (forLoop (convertRound length length) length 0 array).Yields Access.Safe
      (· = converted array length) := by
  have hin : ∀ j, 0 ≤ j → j < 0 + length → j < length := by
    intro j _ hj
    omega
  have hloop := forLoop_yields convertRound_spec (converted_zero array).symm hin
  refine hloop.mono fun o ho => ?_
  rw [ho, Nat.zero_add]

theorem toNat_nibble (v : UInt16) : (v &&& 15).toUInt8.toNat = v.toNat % 16 := by
  have h15 : (15 : UInt16).toNat = 2 ^ 4 - 1 := rfl
  rw [UInt16.toNat_toUInt8, UInt16.toNat_and, h15, Nat.and_two_pow_sub_one_eq_mod]
  omega

/-- The four digits of the two bytes. -/
theorem printf04x_unit (hi lo : UInt8) : printf04x (unit hi lo) = hexByte hi ++ hexByte lo := by
  have hhi := hi.toNat_lt
  have hlo := lo.toNat_lt
  have hunit : (unit hi lo).toNat = 256 * hi.toNat + lo.toNat := by
    simp [unit, Nat.shiftLeft_eq]
    omega
  have hdigits : ((unit hi lo >>> 12) &&& 15).toUInt8 = hi / 16 ∧
      ((unit hi lo >>> 8) &&& 15).toUInt8 = hi % 16 ∧
      ((unit hi lo >>> 4) &&& 15).toUInt8 = lo / 16 ∧ (unit hi lo &&& 15).toUInt8 = lo % 16 := by
    simp only [← UInt8.toNat_inj, toNat_nibble, UInt16.toNat_shiftRight, hunit,
      Nat.shiftRight_eq_div_pow, UInt8.toNat_div, UInt8.toNat_mod, UInt16.reduceToNat,
      UInt8.reduceToNat, Nat.reduceMod, Nat.reducePow]
    omega
  obtain ⟨h₁, h₂, h₃, h₄⟩ := hdigits
  simp only [printf04x, List.map_cons, List.map_nil, h₁, h₂, h₃, h₄]
  rfl

/-- What is printed for an offset. -/
def flagAtMemory (dict : Memory) (o : UInt32) : Bytes :=
  hexByte (dict o.toNat) ++ hexByte (dict (o.toNat + 1))

/-- What is printed for the offsets before `i`. -/
def printed (dict : Memory) (offset : Nat → UInt32) (i : Nat) : Bytes :=
  (List.range i).flatMap fun j => flagAtMemory dict (offset j)

theorem printed_zero (dict : Memory) (offset : Nat → UInt32) : printed dict offset 0 = [] := rfl

theorem toNat_succ {o : UInt32} (h : o.toNat + 1 < 2 ^ 32) : (o + 1).toNat = o.toNat + 1 := by
  rw [UInt32.toNat_add]
  exact Nat.mod_eq_of_lt h

variable {offset : Nat → UInt32} (hsize : datasize < 2 ^ 32)

include hsize

/-- A round of the loop that prints: its two indices, and the output up to there. -/
theorem printRound_spec : ∀ i out, 0 ≤ i → i < 0 + length → out = printed dict offset i →
    ((printRound dict datasize offset length length i out).All Access.Safe →
        (offset i).toNat + 1 < datasize) ∧
      ((offset i).toNat + 1 < datasize →
        (printRound dict datasize offset length length i out).Yields Access.Safe
          (· = printed dict offset (i + 1))) := by
  intro i out _ hi hout
  rw [Nat.zero_add] at hi
  unfold printRound
  constructor
  · intro h
    obtain ⟨⟨hlt, -⟩, h⟩ := all_use_bind.mp (all_use_bind.mp h).2
    obtain ⟨⟨hlt', -⟩, -⟩ := all_use_bind.mp (all_use_bind.mp h).2
    rwa [toNat_succ (by omega)] at hlt'
  · intro h
    have hsucc := toNat_succ (o := offset i) (by omega)
    refine yields_use_bind hi hi (yields_use_bind (by omega) (by omega)
      (yields_use_bind hi hi (yields_use_bind (by omega) (by omega) (yields_pure ?_))))
    unfold printed at hout ⊢
    rw [List.range_succ, List.flatMap_append, hout, hsucc]
    show _ ++ printf04x (unit _ _) = _
    rw [printf04x_unit]
    simp [flagAtMemory]

/-- The digits are printed from inside the dictionary exactly when the offsets are. -/
theorem printLoop_all :
    (forLoop (printRound dict datasize offset length length) length 0 []).All Access.Safe ↔
      ∀ i < length, (offset i).toNat + 1 < datasize := by
  rw [forLoop_all_iff (printRound_spec hsize) (printed_zero dict offset).symm]
  exact ⟨fun h i hi => h i (Nat.zero_le i) (by omega), fun h i _ hi => h i (by omega)⟩

theorem printLoop_yields (h : ∀ i < length, (offset i).toNat + 1 < datasize) :
    (forLoop (printRound dict datasize offset length length) length 0 []).Yields Access.Safe
      (· = printed dict offset length) := by
  have hin : ∀ j, 0 ≤ j → j < 0 + length → (offset j).toNat + 1 < datasize :=
    fun j _ hj => h j (by omega)
  have hloop := forLoop_yields (printRound_spec hsize) (printed_zero dict offset).symm hin
  refine hloop.mono fun out hout => ?_
  rw [hout, Nat.zero_add]

end Flag

end InpLabs.Binflag
