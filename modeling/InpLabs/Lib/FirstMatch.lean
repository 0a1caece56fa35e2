/-
  File:      InpLabs/Lib/FirstMatch.lean
  Subject:   Tables that are searched from the top, and the ends of lists.

  * `firstMatch`: the value of the first key that matches; `firstMatch_eq_iff`: a match that admits
    more keys gives the same value exactly when it admits no key above;
  * `afterLast`: what stands behind the last occurrence of an element.
-/
import Mathlib.Data.List.TakeWhile

namespace InpLabs.Lib

/-! ## 1. Tables -/

section Tables

variable {κ β : Type*}

/-- The value of the first key that matches, or `d` where none does. -/
def firstMatch (p : κ → Bool) (d : β) : List (κ × β) → β
  | [] => d
  | (k, v) :: table => if p k then v else firstMatch p d table

variable {p q : κ → Bool} {d : β} {table : List (κ × β)}

/-- It is in the table, or it is `d`. -/
theorem firstMatch_mem (p : κ → Bool) (d : β) (table : List (κ × β)) :
    firstMatch p d table ∈ d :: table.map Prod.snd := by
  induction table with
  | nil => exact List.mem_cons_self
  | cons e table ih =>
    rw [firstMatch, List.map_cons]
    split
    · exact List.mem_cons_of_mem d List.mem_cons_self
    · rcases List.mem_cons.mp ih with hd | hmem
      · exact List.mem_cons.mpr (.inl hd)
      · exact List.mem_cons_of_mem d (List.mem_cons_of_mem e.2 hmem)

/-- **Two matches**, of which `p` admits every key that `q` admits, in a table whose values differ:
they find the same exactly when `p` admits no key above the first that `q` admits. -/
theorem firstMatch_eq_iff (hpq : ∀ k, q k = true → p k = true)
    (hvalues : (d :: table.map Prod.snd).Nodup) :
    firstMatch p d table = firstMatch q d table ↔
      ∀ k ∈ (table.map Prod.fst).takeWhile (!q ·), p k = false := by
  induction table with
  | nil => exact iff_of_true rfl fun k hk => absurd hk List.not_mem_nil
  | cons e table ih =>
    obtain ⟨k, v⟩ := e
    rw [List.map_cons] at hvalues ⊢
    rw [firstMatch, firstMatch]
    cases hq : q k with
    | true =>
      rw [if_pos (hpq k hq), List.takeWhile_cons_of_neg (by simp [hq])]
      exact iff_of_true rfl fun k hk => absurd hk List.not_mem_nil
    | false =>
      obtain ⟨hne, hrest⟩ := List.nodup_cons.mp ((List.Perm.swap _ _ _).nodup_iff.mp hvalues)
      rw [List.takeWhile_cons_of_pos (by simp [hq]), List.forall_mem_cons]
      cases hp : p k with
      | true =>
        -- the value of this key stands nowhere below
        rw [if_pos rfl, if_neg Bool.false_ne_true]
        refine iff_of_false (fun heq => hne ?_) fun h => Bool.noConfusion h.1
        exact heq ▸ firstMatch_mem q d table
      | false =>
        rw [if_neg Bool.false_ne_true, if_neg Bool.false_ne_true, ih hrest]
        exact (and_iff_right rfl).symm

end Tables

/-! ## 2. Ends -/

section Ends

variable {α : Type*} [DecidableEq α]

/-- What stands behind the last `a`, if there is one. -/
def afterLast (a : α) : List α → Option (List α)
  | [] => none
  | b :: l => (afterLast a l).or (if b = a then some l else none)

variable {a : α} {l x : List α}

theorem afterLast_eq_none : afterLast a l = none ↔ a ∉ l := by
  induction l with
  | nil => exact iff_of_true rfl List.not_mem_nil
  | cons b l ih =>
    rw [afterLast, Option.or_eq_none_iff, ih, List.mem_cons, not_or, eq_comm (a := a), and_comm]
    simp

theorem afterLast_eq_some : afterLast a l = some x ↔ ∃ before, l = before ++ a :: x ∧ a ∉ x := by
  induction l with
  | nil => simp [afterLast]
  | cons b l ih =>
    rw [afterLast, Option.or_eq_some_iff, ih, afterLast_eq_none]
    constructor
    · intro h
      rcases h with ⟨before, rfl, hx⟩ | ⟨hl, h⟩
      · exact ⟨b :: before, rfl, hx⟩
      · split at h
        · rename_i hb
          cases h
          exact ⟨[], congrArg (· :: x) hb, hl⟩
        · cases h
    · intro ⟨before, hl, hx⟩
      cases before with
      | nil =>
        obtain ⟨rfl, rfl⟩ := List.cons.inj hl
        exact .inr ⟨hx, if_pos rfl⟩
      | cons c before =>
        obtain ⟨rfl, rfl⟩ := List.cons.inj hl
        exact .inl ⟨before, rfl, hx⟩

end Ends

end InpLabs.Lib
