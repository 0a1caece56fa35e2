/-
  File:      InpLabs/Queen/Correct.lean
  Subject:   **The solver finds a placement exactly when there is one.**

  * `Board.Fair`: cells that are `.` or `Q`, queens that do not attack each other, and flags that
    mark exactly their rows and columns. `markQueens_fair`: `main` hands over such a board;
  * `checkqueen_iff`: the scan finds the queens on the two diagonals of a cell, wherever they are;
  * `solveNQueen_fair`, `solveNQueen_complete`: a call that succeeds leaves such a board again, and
    after one that fails no placement contains the queens given;
  * `solveNQueen_correct`: both, for a call on the whole board.
-/
import InpLabs.Queen.Solver

namespace InpLabs.Queen

open InpLabs.Lib

/-! ## 1. Queens on a table -/

/-- The cells that hold a queen. -/
def Table.queens (t : Table) : Finset (Cell maxN) :=
  Finset.univ.filter fun p => t.at p.1 p.2 = queen

/-- The board holds queens that do not attack each other, and its flags say where. -/
structure Board.Fair (b : Board) : Prop where
  cells : ∀ x y, b.table.at x y = dot ∨ b.table.at x y = queen
  rows : ∀ x, b.rowQueen.get x = true ↔ ∃ y, b.table.at x y = queen
  cols : ∀ y, b.colQueen.get y = true ↔ ∃ x, b.table.at x y = queen
  peaceful : Peaceful (b.table.queens : Set (Cell maxN))

section Tables

variable {t : Table} {b : Board} {row col x y : Fin maxN}

@[simp] theorem mem_queens {p : Cell maxN} : p ∈ t.queens ↔ t.at p.1 p.2 = queen := by
  simp [Table.queens]

theorem Board.Fair.blank (hb : b.Fair) : b.Blank := by
  intro x hx y
  refine (hb.cells x y).resolve_right fun hq => ?_
  rw [(hb.rows x).mpr ⟨y, hq⟩] at hx
  cases hx

theorem queens_put :
    (b.put row col queen true).table.queens = insert (row, col) b.table.queens := by
  ext p
  simp only [mem_queens, at_put, Finset.mem_insert]
  by_cases hp : (row, col) = p
  · simp [hp]
  · simp [hp, Ne.symm hp]

/-- The scan sees a queen on the board at the offset it reads. -/
theorem queenAt_iff {x y : Int} : queenAt t x y = true ↔
    ∃ p ∈ t.queens, (p.1.val : Int) = x ∧ (p.2.val : Int) = y := by
  unfold queenAt
  split
  · rename_i h
    rw [beq_iff_eq]
    constructor
    · intro hq
      exact ⟨(⟨x.toNat, by omega⟩, ⟨y.toNat, by omega⟩), mem_queens.mpr hq,
        Int.toNat_of_nonneg h.1.1, Int.toNat_of_nonneg h.2.1⟩
    · intro hqueen
      obtain ⟨p, hp, rfl, rfl⟩ := hqueen
      exact mem_queens.mp hp
  · rename_i h
    simp only [Bool.false_eq_true, false_iff]
    intro hqueen
    obtain ⟨p, -, rfl, rfl⟩ := hqueen
    have h1 := p.1.isLt
    have h2 := p.2.isLt
    omega

/-- **The scan of a cell** looks at both of its diagonals. -/
theorem checkqueen_iff : checkqueen x y t maxN = true ↔
    ∀ p ∈ t.queens, ¬ OnDiagonal (x, y) p := by
  simp only [checkqueen, List.all_eq_true, List.mem_range, Bool.and_eq_true, Bool.not_eq_true',
    Bool.eq_false_iff, ne_eq, queenAt_iff]
  constructor
  · intro h p hp hdiag
    have hx := x.isLt
    have hpx := p.1.isLt
    -- the offset at which the scan meets the queen
    obtain ⟨⟨⟨h1, h2⟩, h3⟩, h4⟩ := h (x.val - p.1.val + (p.1.val - x.val)) (by omega)
    simp only [OnDiagonal] at hdiag
    rcases hdiag with hd | hd
    · by_cases hle : x.val ≤ p.1.val
      · exact h1 ⟨p, hp, by omega, by omega⟩
      · exact h2 ⟨p, hp, by omega, by omega⟩
    · by_cases hle : x.val ≤ p.1.val
      · exact h3 ⟨p, hp, by omega, by omega⟩
      · exact h4 ⟨p, hp, by omega, by omega⟩
  · intro h i _
    refine ⟨⟨⟨?_, ?_⟩, ?_⟩, ?_⟩
    · intro hqueen
      obtain ⟨p, hp, h1, h2⟩ := hqueen
      exact h p hp (.inl (by simp only; omega))
    · intro hqueen
      obtain ⟨p, hp, h1, h2⟩ := hqueen
      exact h p hp (.inl (by simp only; omega))
    · intro hqueen
      obtain ⟨p, hp, h1, h2⟩ := hqueen
      exact h p hp (.inr (by simp only; omega))
    · intro hqueen
      obtain ⟨p, hp, h1, h2⟩ := hqueen
      exact h p hp (.inr (by simp only; omega))

end Tables

/-! ## 2. A new queen -/

section Search

variable {b : Board} {row col : Fin maxN} {cols : List (Fin maxN)} {next : Board → Bool × Board}

/-- A queen in a row and a column without one, on diagonals without one. -/
theorem Board.Fair.put (hb : b.Fair) (hrow : b.rowQueen.get row = false)
    (hcol : b.colQueen.get col = false) (hcheck : checkqueen row col b.table maxN = true) :
    (b.put row col queen true).Fair where
  cells x y := by
    rw [at_put]
    split
    · exact .inr rfl
    · exact hb.cells x y
  rows x := by
    rw [rowQueen_put]
    by_cases hx : row = x
    · subst hx
      simp only [if_true, true_iff]
      exact ⟨col, by simp⟩
    · simp only [hb.rows x, at_put, Prod.mk.injEq, hx, false_and, if_false]
  cols y := by
    rw [colQueen_put]
    by_cases hy : col = y
    · subst hy
      simp only [if_true, true_iff]
      exact ⟨row, by simp⟩
    · simp only [hb.cols y, at_put, Prod.mk.injEq, hy, and_false, if_false]
  peaceful := by
    rw [queens_put, Finset.coe_insert]
    refine hb.peaceful.insert fun p hp _ hattack => ?_
    have hq := mem_queens.mp (Finset.mem_coe.mp hp)
    rcases hattack with h | h | h
    · obtain rfl : row = p.1 := h
      exact Bool.false_ne_true (hrow.symm.trans ((hb.rows p.1).mpr ⟨p.2, hq⟩))
    · obtain rfl : col = p.2 := h
      exact Bool.false_ne_true (hcol.symm.trans ((hb.cols p.2).mpr ⟨p.1, hq⟩))
    · exact checkqueen_iff.mp hcheck p hp h

/-- A call that succeeds on a fair board leaves a fair board. -/
theorem solveNQueen_fair (row : Nat) : ∀ b : Board, b.Fair → (solveNQueen b row).1 = true →
    (solveNQueen b row).2.Fair := by
  by_cases hrow : row < maxN
  · intro b hb h
    have ih := solveNQueen_fair (row + 1)
    unfold solveNQueen at h ⊢
    rw [dif_pos hrow] at h ⊢
    split_ifs at h ⊢ with hmark
    · exact ih b hb h
    · have hfree := Bool.not_eq_true _ ▸ hmark
      obtain ⟨col, -, hcol, hcheck, hok, heq⟩ :=
        tryColumns_true (solveNQueen_restores (row + 1)) hb.blank hfree h
      rw [heq]
      exact ih _ (hb.put hfree hcol hcheck) hok
  · intro b hb _
    unfold solveNQueen
    rw [dif_neg hrow]
    exact hb
termination_by maxN - row

/-! ## 3. Nothing is missed -/

/-- A cell in a column with a queen, or on a diagonal with one, is in no placement that contains
    the queens of the board. -/
theorem excluded (hb : b.Fair) (hrow : b.rowQueen.get row = false) {P : Placement maxN}
    (hP : b.table.queens ⊆ P.cells)
    (hcell : b.colQueen.get col = true ∨ checkqueen row col b.table maxN = false) :
    (row, col) ∉ P.cells := by
  intro hmem
  -- a queen of the board that attacks the cell would be the cell, whose row has none
  have hno : ∀ p ∈ b.table.queens, ¬ Attacks (row, col) p := by
    intro p hp hattack
    obtain rfl := P.peaceful.eq_of_attacks hmem (hP hp) hattack
    exact Bool.false_ne_true (hrow.symm.trans ((hb.rows row).mpr ⟨col, mem_queens.mp hp⟩))
  rcases hcell with hcol | hcheck
  · obtain ⟨x, hx⟩ := (hb.cols col).mp hcol
    exact hno (x, col) (mem_queens.mpr hx) (.inr (.inl rfl))
  · refine Bool.false_ne_true (hcheck.symm.trans (checkqueen_iff.mpr fun p hp hd => ?_))
    exact hno p hp (.inr (.inr hd))

/-- When the loop fails, the columns it tried are in no placement that contains the queens. -/
theorem tryColumns_complete
    (hrest : ∀ b : Board, b.Blank → (next b).1 = false → (next b).2 = b)
    (hnext : ∀ b : Board, b.Fair → (next b).1 = false → ∀ P : Placement maxN,
      ¬ b.table.queens ⊆ P.cells)
    (hb : b.Fair) (hrow : b.rowQueen.get row = false)
    (h : (tryColumns row next cols b).1 = false) {P : Placement maxN}
    (hP : b.table.queens ⊆ P.cells) : ∀ col ∈ cols, (row, col) ∉ P.cells := by
  induction cols with
  | nil => exact fun _ hc => absurd hc List.not_mem_nil
  | cons col cols ih =>
    unfold tryColumns at h
    split_ifs at h with hcol hcheck
    · exact List.forall_mem_cons.mpr ⟨excluded hb hrow hP (.inl hcol), ih h⟩
    · split at h
      · cases h
      · rename_i b' hb'
        have hfree := Bool.not_eq_true _ ▸ hcol
        rw [undo_failed hrest hb.blank hrow hfree hb'] at h
        refine List.forall_mem_cons.mpr ⟨fun hmem => ?_, ih h⟩
        -- with the queen on this cell the rest of the rows had no placement either
        refine hnext _ (hb.put hrow hfree hcheck) (congrArg Prod.fst hb') P ?_
        rw [queens_put]
        exact Finset.insert_subset hmem hP
    · exact List.forall_mem_cons.mpr
        ⟨excluded hb hrow hP (.inr (Bool.not_eq_true _ ▸ hcheck)), ih h⟩

/-- A call that fails on a fair board: no placement contains its queens. -/
theorem solveNQueen_complete (row : Nat) : ∀ b : Board, b.Fair →
    (solveNQueen b row).1 = false → ∀ P : Placement maxN, ¬ b.table.queens ⊆ P.cells := by
  by_cases hrow : row < maxN
  · intro b hb h P hP
    have ih := solveNQueen_complete (row + 1)
    unfold solveNQueen at h
    rw [dif_pos hrow] at h
    split_ifs at h with hmark
    · exact ih b hb h P hP
    · obtain ⟨col, hcol⟩ := P.row ⟨row, hrow⟩
      exact tryColumns_complete (solveNQueen_restores (row + 1)) ih hb
        (Bool.not_eq_true _ ▸ hmark) h hP col (List.mem_finRange col) hcol
  · intro b _ h
    unfold solveNQueen at h
    rw [dif_neg hrow] at h
    cases h
termination_by maxN - row

end Search

/-! ## 4. The flags of `main` -/

section Mark

variable {b : Board} {t : Table}

@[simp] theorem mark_table (b : Board) (x y : Fin maxN) : (b.mark x y).table = b.table := by
  unfold Board.mark
  split <;> rfl

theorem mark_rowQueen {x y r : Fin maxN} : (b.mark x y).rowQueen.get r = true ↔
    b.rowQueen.get r = true ∨ b.table.at x y = queen ∧ x = r := by
  unfold Board.mark
  split_ifs with h
  · rw [get_set]
    by_cases hx : x = r
    · simp [h, ← hx]
    · simp [hx]
  · simp [h]

theorem mark_colQueen {x y c : Fin maxN} : (b.mark x y).colQueen.get c = true ↔
    b.colQueen.get c = true ∨ b.table.at x y = queen ∧ y = c := by
  unfold Board.mark
  split_ifs with h
  · rw [get_set]
    by_cases hy : y = c
    · simp [h, ← hy]
    · simp [hy]
  · simp [h]

/-- The loop over a list of cells marks the rows and the columns of its queens. -/
theorem foldl_mark (ps : List (Cell maxN)) (b : Board) :
    (ps.foldl (fun b p => b.mark p.1 p.2) b).table = b.table ∧
    (∀ r, (ps.foldl (fun b p => b.mark p.1 p.2) b).rowQueen.get r = true ↔
      b.rowQueen.get r = true ∨ ∃ p ∈ ps, b.table.at p.1 p.2 = queen ∧ p.1 = r) ∧
    ∀ c, (ps.foldl (fun b p => b.mark p.1 p.2) b).colQueen.get c = true ↔
      b.colQueen.get c = true ∨ ∃ p ∈ ps, b.table.at p.1 p.2 = queen ∧ p.2 = c := by
  induction ps generalizing b with
  | nil => simp
  | cons p ps ih =>
    obtain ⟨htable, hrows, hcols⟩ := ih (b.mark p.1 p.2)
    simp only [mark_table] at htable hrows hcols
    refine ⟨htable, fun r => ?_, fun c => ?_⟩
    · rw [List.foldl_cons, hrows r, mark_rowQueen, or_assoc, List.exists_mem_cons_iff]
    · rw [List.foldl_cons, hcols c, mark_colQueen, or_assoc, List.exists_mem_cons_iff]

/-- **`main` hands `solveNQueen` a fair board** when the queens given do not attack each other. -/
theorem markQueens_fair (hcells : ∀ x y, t.at x y = dot ∨ t.at x y = queen)
    (hpeace : Peaceful (t.queens : Set (Cell maxN))) :
    (markQueens t).Fair ∧ (markQueens t).table = t := by
  obtain ⟨htable, hrows, hcols⟩ := foldl_mark ((List.finRange maxN).product (List.finRange maxN))
    ⟨t, Vector.replicate maxN false, Vector.replicate maxN false⟩
  have hall : ∀ p : Cell maxN, p ∈ (List.finRange maxN).product (List.finRange maxN) := fun p =>
    List.mem_product.mpr ⟨List.mem_finRange p.1, List.mem_finRange p.2⟩
  have hblank : ∀ i : Fin maxN, (Vector.replicate maxN false).get i = false := fun i => by
    simp [Vector.get_eq_getElem]
  refine ⟨⟨?_, fun x => ?_, fun y => ?_, ?_⟩, htable⟩
  · intro x y
    rw [show (markQueens t).table = t from htable]
    exact hcells x y
  · rw [show (markQueens t).table = t from htable, markQueens, hrows x, hblank]
    constructor
    · intro hrow
      rcases hrow with h | ⟨p, -, hq, rfl⟩
      · cases h
      · exact ⟨p.2, hq⟩
    · intro hrow
      obtain ⟨y, hq⟩ := hrow
      exact .inr ⟨(x, y), hall _, hq, rfl⟩
  · rw [show (markQueens t).table = t from htable, markQueens, hcols y, hblank]
    constructor
    · intro hcol
      rcases hcol with h | ⟨p, -, hq, rfl⟩
      · cases h
      · exact ⟨p.1, hq⟩
    · intro hcol
      obtain ⟨x, hq⟩ := hcol
      exact .inr ⟨(x, y), hall _, hq, rfl⟩
  · rw [show (markQueens t).table = t from htable]
    exact hpeace

end Mark

/-! ## 5. The whole board -/

/-- The board holds a placement with the queens of `t` in it, and every flag is set. -/
structure Solved (t : Table) (b : Board) : Prop where
  cells : ∀ x y, b.table.at x y = dot ∨ b.table.at x y = queen
  placement : ∃ P : Placement maxN, P.cells = b.table.queens
  given : t.queens ⊆ b.table.queens
  rows : ∀ x, b.rowQueen.get x = true
  cols : ∀ y, b.colQueen.get y = true

/-- A fair board whose rows are all marked is solved. -/
theorem Board.Fair.solved {b : Board} (hb : b.Fair) (hrows : ∀ x, b.rowQueen.get x = true)
    {t : Table} (ht : t.queens ⊆ b.table.queens) : Solved t b where
  cells := hb.cells
  placement := by
    refine ⟨hb.peaceful.placement b.table.queens fun x => ?_, rfl⟩
    obtain ⟨y, hy⟩ := (hb.rows x).mp (hrows x)
    exact ⟨y, mem_queens.mpr hy⟩
  given := ht
  rows := hrows
  cols y := by
    -- as many queens as columns, no two in one
    have hinj : Set.InjOn Prod.snd (b.table.queens : Set (Cell maxN)) := fun p hp q hq heq =>
      hb.peaceful.eq_of_attacks hp hq (.inr (.inl heq))
    have hrow : ∀ x : Fin maxN, ∃ y, (x, y) ∈ b.table.queens := fun x => by
      obtain ⟨y, hy⟩ := (hb.rows x).mp (hrows x)
      exact ⟨y, mem_queens.mpr hy⟩
    have himage : b.table.queens.image Prod.snd = Finset.univ := by
      refine Finset.eq_univ_of_card _ ?_
      rw [Finset.card_image_of_injOn hinj, Fintype.card_fin]
      exact (hb.peaceful.placement b.table.queens hrow).card_eq
    obtain ⟨⟨x, _⟩, hx, rfl⟩ := Finset.mem_image.mp (himage ▸ Finset.mem_univ y)
    exact (hb.cols _).mpr ⟨x, mem_queens.mp hx⟩

/-- **Soundness and completeness of `solveNQueen(table, row_Queen, col_Queen, 0)`**: it returns true
    exactly when some placement contains the queens given, and then the board is solved. -/
theorem solveNQueen_correct (b : Board) (hb : b.Fair) :
    ((solveNQueen b 0).1 = true ↔ ∃ P : Placement maxN, b.table.queens ⊆ P.cells) ∧
      ((solveNQueen b 0).1 = true → Solved b.table (solveNQueen b 0).2) := by
  have hsolved : (solveNQueen b 0).1 = true → Solved b.table (solveNQueen b 0).2 := by
    intro h
    obtain ⟨hkeep, hrows⟩ := solveNQueen_keeps 0 b hb.blank h
    refine (solveNQueen_fair 0 b hb h).solved (fun x => hrows x (Nat.zero_le _)) fun p hp => ?_
    exact mem_queens.mpr (hkeep.queens p.1 p.2 (mem_queens.mp hp))
  refine ⟨⟨fun h => ?_, fun ⟨P, hP⟩ => ?_⟩, hsolved⟩
  · obtain ⟨P, hP⟩ := (hsolved h).placement
    exact ⟨P, hP ▸ (hsolved h).given⟩
  · by_contra hfail
    exact solveNQueen_complete 0 b hb (Bool.not_eq_true _ ▸ hfail) P hP

/-- Knight's moves: the odd columns in the upper half of the board, the even ones in the lower. -/
def stairs (p : Cell maxN) : Prop :=
  p.2.val = if p.1.val < 15 then 2 * p.1.val + 1 else 2 * p.1.val - 30

instance (p : Cell maxN) : Decidable (stairs p) := inferInstanceAs (Decidable (_ = _))

theorem stairs_peaceful : Peaceful ((Finset.univ.filter stairs : Finset (Cell maxN)) :
    Set (Cell maxN)) := by
  intro p hp q hq hne hattack
  have hp : stairs p := (Finset.mem_filter.mp (Finset.mem_coe.mp hp)).2
  have hq : stairs q := (Finset.mem_filter.mp (Finset.mem_coe.mp hq)).2
  have hple : p.1.val < 30 := p.1.isLt
  have hqle : q.1.val < 30 := q.1.isLt
  unfold stairs at hp hq
  simp only [Attacks, OnDiagonal, Fin.ext_iff, ne_eq, Prod.ext_iff] at hattack hne
  split_ifs at hp hq <;> omega

/-- A placement on the board. -/
def stairsPlacement : Placement maxN :=
  stairs_peaceful.placement _ fun x => by
    have hx : x.val < 30 := x.isLt
    refine ⟨⟨if x.val < 15 then 2 * x.val + 1 else 2 * x.val - 30, ?_⟩, ?_⟩
    · show _ < 30
      split <;> omega
    · exact Finset.mem_filter.mpr ⟨Finset.mem_univ _, rfl⟩

/-- A queen in the first row and one in the last. -/
def twoGiven : Table :=
  .ofFn fun x => .ofFn fun y =>
    if (x.val = 0 ∧ y.val = 1) ∨ (x.val = 29 ∧ y.val = 28) then queen else dot

theorem twoGiven_at (x y : Fin maxN) : twoGiven.at x y =
    if (x.val = 0 ∧ y.val = 1) ∨ (x.val = 29 ∧ y.val = 28) then queen else dot := by
  simp [twoGiven, Table.at, Vector.get_eq_getElem]

/-- Both are in the placement. -/
theorem twoGiven_queens : twoGiven.queens ⊆ stairsPlacement.cells := by
  intro p hp
  rw [mem_queens, twoGiven_at] at hp
  refine Finset.mem_filter.mpr ⟨Finset.mem_univ p, ?_⟩
  split at hp
  · rename_i hgiven
    unfold stairs
    rcases hgiven with ⟨hrow, hcol⟩ | ⟨hrow, hcol⟩ <;> rw [hrow, hcol] <;> rfl
  · cases hp

theorem solveNQueen_correct_twoGiven : (solveNQueen (markQueens twoGiven) 0).1 = true ∧
    Solved twoGiven (solveNQueen (markQueens twoGiven) 0).2 := by
  have hcells : ∀ x y, twoGiven.at x y = dot ∨ twoGiven.at x y = queen := by
    intro x y
    rw [twoGiven_at]
    split
    · exact .inr rfl
    · exact .inl rfl
  have hpeace : Peaceful (twoGiven.queens : Set (Cell maxN)) :=
    stairs_peaceful.mono (Finset.coe_subset.mpr twoGiven_queens)
  obtain ⟨hfair, htable⟩ := markQueens_fair hcells hpeace
  obtain ⟨hiff, hsolved⟩ := solveNQueen_correct (markQueens twoGiven) hfair
  rw [htable] at hiff hsolved
  have hok := hiff.mpr ⟨stairsPlacement, twoGiven_queens⟩
  exact ⟨hok, hsolved hok⟩

end InpLabs.Queen
