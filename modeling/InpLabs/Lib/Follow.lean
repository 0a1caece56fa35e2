/-
  File:      InpLabs/Lib/Follow.lean
  Subject:   Strings of moves, followed from a position on over those that are allowed.

  * `follow`: where a string leads, if each of its moves leads to an allowed position;
  * `follow_append`, `follow_snoc`: strings that are put together; `follow_mono`: more is allowed;
  * `reachable_of_follow`: what is followed is reachable, and so allowed (`allowed_of_reachable`).
-/
import Mathlib.Data.List.Basic
import Mathlib.Logic.Relation

namespace InpLabs.Lib

variable {V L : Type*}

/-- The position after some moves, if each of them leads to an allowed one. -/
def follow (target : V → L → Option V) (allowed : V → Prop) [DecidablePred allowed] (p : V)
    (path : List L) : Option V :=
  path.foldlM (fun p move => (target p move).filter fun q => allowed q) p

section Follow

variable {target : V → L → Option V} {allowed allowed' : V → Prop} [DecidablePred allowed]
  [DecidablePred allowed'] {p q r : V} {move : L} {path path' : List L}

theorem follow_cons_iff : follow target allowed p (move :: path) = some r ↔
    ∃ q, target p move = some q ∧ allowed q ∧ follow target allowed q path = some r := by
  rw [follow, List.foldlM_cons]
  refine Option.bind_eq_some_iff.trans (exists_congr fun q => ?_)
  rw [Option.filter_eq_some_iff, decide_eq_true_iff, and_assoc]
  rfl

theorem follow_cons (ht : target p move = some q) (hq : allowed q) :
    follow target allowed p (move :: path) = follow target allowed q path := by
  rw [follow, List.foldlM_cons, ht, Option.filter_some, if_pos (decide_eq_true hq)]
  rfl

theorem follow_append (h : follow target allowed p path = some q) :
    follow target allowed p (path ++ path') = follow target allowed q path' := by
  unfold follow at h ⊢
  rw [List.foldlM_append, h]
  rfl

theorem follow_snoc (h : follow target allowed p path = some q) (ht : target q move = some r)
    (hr : allowed r) : follow target allowed p (path ++ [move]) = some r := by
  rw [follow_append h, follow_cons ht hr]
  rfl

/-- Where more is allowed, one gets to the same position. -/
theorem follow_mono (hmore : ∀ q, allowed q → allowed' q)
    (h : follow target allowed p path = some r) : follow target allowed' p path = some r := by
  induction path generalizing p with
  | nil => exact h
  | cons move path ih =>
    obtain ⟨q, ht, hq, h⟩ := follow_cons_iff.mp h
    exact follow_cons_iff.mpr ⟨q, ht, hmore q hq, ih h⟩

/-- **What is followed is reachable**, if every move is a step. -/
theorem reachable_of_follow {Step : V → V → Prop}
    (hstep : ∀ p move q, target p move = some q → Step p q)
    (h : follow target allowed p path = some r) :
    Relation.ReflTransGen (fun p q => Step p q ∧ allowed q) p r := by
  induction path generalizing p with
  | nil =>
    cases h
    exact .refl
  | cons move path ih =>
    obtain ⟨q, ht, hq, h⟩ := follow_cons_iff.mp h
    exact .head ⟨hstep p move q ht, hq⟩ (ih h)

theorem allowed_of_reachable {Step : V → V → Prop} {allowed : V → Prop}
    (h : Relation.ReflTransGen (fun p q => Step p q ∧ allowed q) p r) (hp : allowed p) :
    allowed r := by
  cases h with
  | refl => exact hp
  | tail _ hlast => exact hlast.2

end Follow

end InpLabs.Lib
