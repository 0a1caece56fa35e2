/-
  File:      InpLabs/Lib/Queens.lean
  Subject:   Queens on a square board: sets of cells in which no two attack each other.

  * `OnDiagonal`, `Attacks`: the moves of a queen;
  * `Peaceful`: a set of cells no two of which attack each other; `Peaceful.insert` adds a cell that
    is attacked by none;
  * `Placement`: `n` such cells on a board of side `n`. There is one in every row (`Placement.row`),
    and a peaceful set that meets every row is one (`Peaceful.placement`).
-/
import Mathlib

namespace InpLabs.Lib

/-- A cell of the board of side `n`: its row and its column. -/
abbrev Cell (n : Nat) := Fin n × Fin n

variable {n : Nat} {p q : Cell n} {S : Set (Cell n)}

/-! ## 1. Attacks -/

/-- The cells are on one diagonal, of either direction. -/
def OnDiagonal (p q : Cell n) : Prop :=
  p.1.val + q.2.val = q.1.val + p.2.val ∨ p.1.val + p.2.val = q.1.val + q.2.val

/-- The cells share a row, a column or a diagonal. -/
def Attacks (p q : Cell n) : Prop := p.1 = q.1 ∨ p.2 = q.2 ∨ OnDiagonal p q

instance (p q : Cell n) : Decidable (OnDiagonal p q) := inferInstanceAs (Decidable (_ ∨ _))

instance (p q : Cell n) : Decidable (Attacks p q) := inferInstanceAs (Decidable (_ ∨ _))

theorem OnDiagonal.symm (h : OnDiagonal p q) : OnDiagonal q p := by
  unfold OnDiagonal at *
  omega

theorem Attacks.symm (h : Attacks p q) : Attacks q p := by
  rcases h with h | h | h
  · exact .inl h.symm
  · exact .inr (.inl h.symm)
  · exact .inr (.inr h.symm)

/-! ## 2. Peaceful sets -/

/-- No two cells of the set attack each other. -/
def Peaceful (S : Set (Cell n)) : Prop := S.Pairwise fun p q => ¬ Attacks p q

theorem Peaceful.mono {T : Set (Cell n)} (h : Peaceful T) (hST : S ⊆ T) : Peaceful S :=
  Set.Pairwise.mono hST h

/-- Two cells of a peaceful set that attack each other are the same. -/
theorem Peaceful.eq_of_attacks (h : Peaceful S) (hp : p ∈ S) (hq : q ∈ S) (ha : Attacks p q) :
    p = q := by
  by_contra hne
  exact h hp hq hne ha

theorem Peaceful.insert (h : Peaceful S) (hp : ∀ q ∈ S, q ≠ p → ¬ Attacks p q) :
    Peaceful (insert p S) := by
  refine Set.Pairwise.insert h fun q hq hne => ⟨hp q hq hne.symm, fun ha => ?_⟩
  exact hp q hq hne.symm ha.symm

/-! ## 3. Placements -/

/-- `n` queens on the board of side `n` that do not attack each other. -/
structure Placement (n : Nat) where
  cells : Finset (Cell n)
  card_eq : cells.card = n
  peaceful : Peaceful (cells : Set (Cell n))

/-- Two queens of a peaceful set are in different rows. -/
theorem Peaceful.row_injOn (h : Peaceful S) : Set.InjOn Prod.fst S :=
  fun _ hp _ hq heq => h.eq_of_attacks hp hq (.inl heq)

/-- A placement has a queen in every row: as many queens as rows, no two in one. -/
theorem Placement.row (P : Placement n) (r : Fin n) : ∃ c, (r, c) ∈ P.cells := by
  have himage : P.cells.image Prod.fst = Finset.univ := by
    refine Finset.eq_univ_of_card _ ?_
    rw [Finset.card_image_of_injOn P.peaceful.row_injOn, P.card_eq, Fintype.card_fin]
  obtain ⟨⟨_, c⟩, hc, rfl⟩ := Finset.mem_image.mp (himage ▸ Finset.mem_univ r)
  exact ⟨c, hc⟩

/-- A peaceful set with a queen in every row is a placement. -/
def Peaceful.placement (T : Finset (Cell n)) (h : Peaceful (T : Set (Cell n)))
    (hrow : ∀ r : Fin n, ∃ c, (r, c) ∈ T) : Placement n where
  cells := T
  card_eq := by
    have himage : T.image Prod.fst = Finset.univ := by
      refine Finset.eq_univ_of_forall fun r => ?_
      obtain ⟨c, hc⟩ := hrow r
      exact Finset.mem_image.mpr ⟨(r, c), hc, rfl⟩
    rw [← Finset.card_image_of_injOn h.row_injOn, himage, Finset.card_univ, Fintype.card_fin]
  peaceful := h

end InpLabs.Lib
