/-
  File:      InpLabs/Lib/Pieces.lean
  Subject:   A list cut into pieces of one size, and memory that is filled piece by piece.

  * `piece`, `pieceCount`: the pieces, the last one shorter; `piece_blocks`: a piece of what was
    put together from blocks;
  * `copyAll`: copies into an array, one after the other; `copyAll_eq`: where each of them writes
    what stands in a target there, and they cover it, the array is the target.
-/
import InpLabs.Lib.Substring

namespace InpLabs.Lib

variable {α : Type*}

/-! ## 1. Pieces -/

/-- Piece `i` of those with `n` elements. -/
def piece (n : Nat) (l : List α) (i : Nat) : List α := (l.drop (i * n)).take n

/-- The number of pieces. -/
def pieceCount (n : Nat) (l : List α) : Nat := (l.length + (n - 1)) / n

section Pieces

variable {n k i : Nat} {l : List α}

theorem piece_length_le (n : Nat) (l : List α) (i : Nat) : (piece n l i).length ≤ n :=
  List.length_take_le n _

theorem lt_pieceCount (hn : 0 < n) : i < pieceCount n l ↔ i * n < l.length := by
  unfold pieceCount
  rw [← Nat.add_one_le_iff, Nat.le_div_iff_mul_le hn, Nat.add_mul, Nat.one_mul]
  omega

theorem length_le_pieceCount (hn : 0 < n) (l : List α) : l.length ≤ pieceCount n l * n :=
  Nat.not_lt.mp fun h => Nat.lt_irrefl _ ((lt_pieceCount hn).mpr h)

/-- A piece that is filled up is a piece of the list that is filled up. -/
theorem piece_padded {m : Nat} (x : α) (h : i * n + n ≤ l.length + m) :
    (piece n l i ++ List.replicate n x).take n = piece n (l ++ List.replicate m x) i := by
  have hlength : (piece n l i).length = min n (l.length - i * n) := by simp [piece]
  refine List.ext_getElem? fun p => ?_
  by_cases hp : p < n
  · have hright : (piece n (l ++ List.replicate m x) i)[p]? =
        (l ++ List.replicate m x)[i * n + p]? := by
      rw [piece, List.getElem?_take_of_lt hp, List.getElem?_drop]
    rw [hright, List.getElem?_take_of_lt hp]
    by_cases hin : i * n + p < l.length
    · rw [List.getElem?_append_left (by omega), List.getElem?_append_left hin, piece,
        List.getElem?_take_of_lt hp, List.getElem?_drop]
    · rw [List.getElem?_append_right (by omega), List.getElem?_append_right (by omega),
        List.getElem?_replicate_of_lt (by omega), List.getElem?_replicate_of_lt (by omega)]
  · rw [List.getElem?_eq_none (by rw [List.length_take]; omega),
      List.getElem?_eq_none ((piece_length_le n _ i).trans (Nat.not_lt.mp hp))]

/-- An element, in the piece that it belongs to. -/
theorem piece_getElem? (hn : 0 < n) (l : List α) (p : Nat) :
    (piece n l (p / n))[p % n]? = l[p]? := by
  rw [piece, List.getElem?_take_of_lt (Nat.mod_lt p hn), List.getElem?_drop, Nat.mul_comm,
    Nat.div_add_mod]

section Blocks

variable {β : Type*} {f : β → List α} {bs : List β} {b : β}

theorem length_blocks (hf : ∀ b, (f b).length = n) (bs : List β) :
    (bs.flatMap f).length = bs.length * n := by
  simp [List.length_flatMap, hf]

/-- Blocks of one size, put together, and one of them taken out again. -/
theorem piece_blocks (hf : ∀ b, (f b).length = n) (h : bs[i]? = some b) :
    piece n (bs.flatMap f) i = f b := by
  obtain ⟨hi, rfl⟩ := List.getElem?_eq_some_iff.mp h
  have htake : (bs.take i).length = i := List.length_take_of_le (Nat.le_of_lt hi)
  have hlength : ((bs.take i).flatMap f).length = i * n := by rw [length_blocks hf, htake]
  have hsplit : bs.flatMap f =
      (bs.take i).flatMap f ++ (f bs[i] ++ (bs.drop (i + 1)).flatMap f) := by
    rw [← List.flatMap_cons, ← List.flatMap_append, ← List.drop_eq_getElem_cons hi,
      List.take_append_drop]
  rw [piece, hsplit, List.drop_left' hlength, List.take_left' (hf _)]

end Blocks

end Pieces

/-! ## 2. Copies -/

/-- Copies, each to a place in the array. -/
def copyAll (writes : List (Nat × List α)) (a : List α) : List α :=
  writes.foldl (fun a w => overwrite a w.1 w.2) a

section Copies

variable {writes : List (Nat × List α)} {a r target : List α} {pos p : Nat}

theorem overwrite_length (h : pos + r.length ≤ a.length) :
    (overwrite a pos r).length = a.length := by
  unfold overwrite
  rw [List.length_append, List.length_append, List.length_take, List.length_drop]
  omega

/-- What stands in the array after one copy. -/
theorem getElem?_overwrite (h : pos + r.length ≤ a.length) (p : Nat) :
    (overwrite a pos r)[p]? = if pos ≤ p ∧ p < pos + r.length then r[p - pos]? else a[p]? := by
  have htake : (a.take pos).length = pos := List.length_take_of_le (by omega)
  unfold overwrite
  split
  · rename_i hin
    rw [List.getElem?_append_left (by rw [List.length_append]; omega),
      List.getElem?_append_right (by omega), htake]
  · rename_i hout
    rcases Nat.lt_or_ge p pos with hlt | hge
    · rw [List.append_assoc, List.getElem?_append_left (by omega),
        List.getElem?_take_of_lt hlt]
    · rw [List.getElem?_append_right (by rw [List.length_append]; omega), List.getElem?_drop,
        List.length_append, htake]
      congr 1
      omega

/-- A copy of what stands in the target at that place. -/
structure Matches (target : List α) (w : Nat × List α) : Prop where
  fits : w.1 + w.2.length ≤ target.length
  same : w.2 = (target.drop w.1).take w.2.length

/-- After a copy that matches, its range is that of the target, and the rest is as before. -/
theorem Matches.getElem? {w : Nat × List α} (hw : Matches target w)
    (ha : a.length = target.length) (p : Nat) :
    (overwrite a w.1 w.2)[p]? =
      if w.1 ≤ p ∧ p < w.1 + w.2.length then target[p]? else a[p]? := by
  rw [getElem?_overwrite (ha ▸ hw.fits)]
  refine if_ctx_congr Iff.rfl (fun hin => ?_) fun _ => rfl
  rw [hw.same, List.getElem?_take_of_lt (by omega), List.getElem?_drop]
  congr 1
  omega

/-- **Copies that match** leave the target where one of them goes, and the rest as it was. -/
theorem copyAll_getElem? (hw : ∀ w ∈ writes, Matches target w) (ha : a.length = target.length)
    (h : a[p]? = target[p]? ∨ ∃ w ∈ writes, w.1 ≤ p ∧ p < w.1 + w.2.length) :
    (copyAll writes a)[p]? = target[p]? := by
  induction writes generalizing a with
  | nil => exact h.resolve_right fun ⟨w, hw, _⟩ => absurd hw List.not_mem_nil
  | cons w writes ih =>
    obtain ⟨hhead, htail⟩ := List.forall_mem_cons.mp hw
    refine ih htail ((overwrite_length (ha ▸ hhead.fits)).trans ha) ?_
    rw [hhead.getElem? ha]
    rcases h with h | ⟨v, hv, hin⟩
    · exact .inl ((ite_congr rfl (fun _ => rfl) fun _ => h).trans (ite_self _))
    · rcases List.mem_cons.mp hv with rfl | hv
      · exact .inl (if_pos hin)
      · exact .inr ⟨v, hv, hin⟩

/-- Where they cover the target, they make it. -/
theorem copyAll_eq (hw : ∀ w ∈ writes, Matches target w) (ha : a.length = target.length)
    (hcover : ∀ p < target.length, ∃ w ∈ writes, w.1 ≤ p ∧ p < w.1 + w.2.length) :
    copyAll writes a = target := by
  refine List.ext_getElem? fun p => ?_
  rcases Nat.lt_or_ge p target.length with hlt | hge
  · exact copyAll_getElem? hw ha (.inr (hcover p hlt))
  · refine copyAll_getElem? hw ha (.inl ?_)
    rw [List.getElem?_eq_none (ha ▸ hge), List.getElem?_eq_none hge]

end Copies

end InpLabs.Lib
