/-
  File:      InpLabs/Queen/Solver.lean
  Subject:   The N-Queen solver (lab7: solver.cpp, `checkqueen`, `solveNQueen` and the loops of
             `main` that set the flags).

  * `Board`: the table and the two marker vectors, which `solveNQueen` changes through references.
    A table is `maxN` rows of `maxN` characters, so an index that passes the bounds check is valid;
  * `checkqueen`, `tryColumns`, `solveNQueen`: the functions of the source. Each returns its answer
    with the board it leaves; the counter behind "Still solving..." is left out;
  * `Board.put`: the three assignments that place a queen, and those that take it back;
  * `solveNQueen_restores`, `solveNQueen_keeps`: what a call leaves of the board it was given;
    `solveNQueen_backtracks` states both.
-/
import InpLabs.Lib.Queens

namespace InpLabs.Queen

open InpLabs.Lib

/-! ## 1. The board -/

/-- `MAX_N`. -/
def maxN : Nat := 30

/-- The character `Q`. -/
def queen : UInt8 := 81

/-- The character `.`. -/
def dot : UInt8 := 46

/-- `std::vector<std::string>`, with `maxN` strings of `maxN` characters. -/
abbrev Table := Vector (Vector UInt8 maxN) maxN

@[ext]
structure Board where
  table : Table
  rowQueen : Vector Bool maxN
  colQueen : Vector Bool maxN
  deriving DecidableEq

/-- `table[x][y]`. -/
def Table.at (table : Table) (x y : Fin maxN) : UInt8 := (table.get x).get y

/-- `table[x][y] == 'Q'` behind its bounds check. -/
def queenAt (table : Table) (x y : Int) : Bool :=
  if h : (0 ≤ x ∧ x < maxN) ∧ (0 ≤ y ∧ y < maxN) then
    table.at ⟨x.toNat, by omega⟩ ⟨y.toNat, by omega⟩ == queen
  else false

/-- No queen stands on a diagonal of the cell, itself included. -/
def checkqueen (x y : Int) (table : Table) (n : Nat) : Bool :=
  (List.range n).all fun i =>
    !queenAt table (x + i) (y + i) && !queenAt table (x - i) (y - i) &&
      !queenAt table (x + i) (y - i) && !queenAt table (x - i) (y + i)

/-- `row_Queen[row] = flag; col_Queen[col] = flag; table[row][col] = c;` -/
def Board.put (b : Board) (row col : Fin maxN) (c : UInt8) (flag : Bool) : Board where
  table := b.table.set row ((b.table.get row).set col c)
  rowQueen := b.rowQueen.set row flag
  colQueen := b.colQueen.set col flag

/-- The `for` loop of `solveNQueen` over the columns that are left; `next` is the recursive call. -/
def tryColumns (row : Fin maxN) (next : Board → Bool × Board) :
    List (Fin maxN) → Board → Bool × Board
  | [], b => (false, b)
  | col :: cols, b =>
    if b.colQueen.get col = true then tryColumns row next cols b
    else if checkqueen row col b.table maxN = true then
      match next (b.put row col queen true) with
      | (true, b') => (true, b')
      | (false, b') => tryColumns row next cols (b'.put row col dot false)
    else tryColumns row next cols b

/-- `solveNQueen(table, row_Queen, col_Queen, row)` for a row up to `maxN`. -/
def solveNQueen (b : Board) (row : Nat) : Bool × Board :=
  if h : row < maxN then
    if b.rowQueen.get ⟨row, h⟩ = true then solveNQueen b (row + 1)
    else tryColumns ⟨row, h⟩ (fun b' => solveNQueen b' (row + 1)) (List.finRange maxN) b
  else (true, b)
termination_by maxN - row

/-- What `main` does for one cell: a queen marks its row and its column. -/
def Board.mark (b : Board) (row col : Fin maxN) : Board :=
  if b.table.at row col = queen then
    { b with rowQueen := b.rowQueen.set row true, colQueen := b.colQueen.set col true }
  else b

/-- The flags `main` sets before it solves: two loops over the cells. -/
def markQueens (table : Table) : Board :=
  ((List.finRange maxN).product (List.finRange maxN)).foldl (fun b p => b.mark p.1 p.2)
    ⟨table, Vector.replicate maxN false, Vector.replicate maxN false⟩

/-! ## 2. Reading after writing -/

section Put

variable {b : Board} {row col x y : Fin maxN} {c : UInt8} {flag : Bool}

theorem get_set {α : Type} {n : Nat} (v : Vector α n) (i j : Fin n) (a : α) :
    (v.set i a).get j = if i = j then a else v.get j := by
  simp only [Vector.get_eq_getElem, Vector.getElem_set, Fin.ext_iff]

theorem vector_ext {α : Type} {n : Nat} {v w : Vector α n} (h : ∀ i, v.get i = w.get i) : v = w :=
  Vector.ext fun i hi => h ⟨i, hi⟩

theorem table_ext {s t : Table} (h : ∀ x y, s.at x y = t.at x y) : s = t :=
  vector_ext fun x => vector_ext (h x)

@[simp] theorem at_put :
    (b.put row col c flag).table.at x y = if (row, col) = (x, y) then c else b.table.at x y := by
  simp only [Table.at, Board.put, get_set, Prod.mk.injEq]
  by_cases hx : row = x
  · subst hx
    simp [get_set]
  · simp [hx]

@[simp] theorem rowQueen_put : (b.put row col c flag).rowQueen.get x =
    if row = x then flag else b.rowQueen.get x := get_set _ _ _ _

@[simp] theorem colQueen_put : (b.put row col c flag).colQueen.get y =
    if col = y then flag else b.colQueen.get y := get_set _ _ _ _

/-- The second three assignments undo the first where they write what was there. -/
theorem put_put (hcell : b.table.at row col = dot) (hrow : b.rowQueen.get row = false)
    (hcol : b.colQueen.get col = false) :
    (b.put row col queen true).put row col dot false = b := by
  refine Board.ext (table_ext fun x y => ?_) (vector_ext fun x => ?_) (vector_ext fun y => ?_)
  · simp only [at_put]
    split
    · rename_i h
      cases h
      exact hcell.symm
    · rfl
  · simp only [rowQueen_put]
    split
    · rename_i h
      exact h ▸ hrow.symm
    · rfl
  · simp only [colQueen_put]
    split
    · rename_i h
      exact h ▸ hcol.symm
    · rfl

end Put

/-! ## 3. What a call leaves of its board -/

/-- The unmarked rows hold no queen. -/
def Board.Blank (b : Board) : Prop :=
  ∀ x, b.rowQueen.get x = false → ∀ y, b.table.at x y = dot

/-- Queens and marked rows stay. -/
structure Board.Keeps (b b' : Board) : Prop where
  queens : ∀ x y, b.table.at x y = queen → b'.table.at x y = queen
  rows : ∀ x, b.rowQueen.get x = true → b'.rowQueen.get x = true

section Frame

variable {b b' b'' : Board} {row col : Fin maxN} {cols : List (Fin maxN)}
  {next : Board → Bool × Board}

theorem Board.Keeps.refl (b : Board) : b.Keeps b := ⟨fun _ _ h => h, fun _ h => h⟩

theorem Board.Keeps.trans (h : b.Keeps b') (h' : b'.Keeps b'') : b.Keeps b'' :=
  ⟨fun x y hq => h'.queens x y (h.queens x y hq), fun x hr => h'.rows x (h.rows x hr)⟩

/-- A queen in an unmarked row. -/
theorem Board.Blank.put (hb : b.Blank) : (b.put row col queen true).Blank := by
  intro x hx y
  rw [rowQueen_put] at hx
  split at hx
  · cases hx
  · rename_i hne
    rw [at_put, if_neg fun e => hne (Prod.mk.inj e).1]
    exact hb x hx y

theorem keeps_put : b.Keeps (b.put row col queen true) := by
  refine ⟨fun x y hq => ?_, fun x hx => ?_⟩
  · rw [at_put]
    split
    · rfl
    · exact hq
  · rw [rowQueen_put]
    split
    · rfl
    · exact hx

/-- A failed call gives back the board with the queen on it, and taking the queen off gives back the
    board before. -/
theorem undo_failed (hnext : ∀ b : Board, b.Blank → (next b).1 = false → (next b).2 = b)
    (hb : b.Blank) (hrow : b.rowQueen.get row = false) (hcol : b.colQueen.get col = false)
    (h : next (b.put row col queen true) = (false, b')) : b'.put row col dot false = b := by
  have hback : b' = b.put row col queen true := by
    have hrest := hnext _ hb.put (congrArg Prod.fst h)
    rwa [h] at hrest
  rw [hback]
  exact put_put (hb row hrow col) hrow hcol

/-- The loop leaves the board as it was when every column fails. -/
theorem tryColumns_restores
    (hnext : ∀ b : Board, b.Blank → (next b).1 = false → (next b).2 = b) (hb : b.Blank)
    (hrow : b.rowQueen.get row = false) (h : (tryColumns row next cols b).1 = false) :
    (tryColumns row next cols b).2 = b := by
  induction cols with
  | nil => rfl
  | cons col cols ih =>
    unfold tryColumns at h ⊢
    split_ifs at h ⊢ with hcol hcheck
    · exact ih h
    · split at h
      · cases h
      · rename_i b' hb'
        rw [undo_failed hnext hb hrow (Bool.not_eq_true _ ▸ hcol) hb'] at h ⊢
        exact ih h
    · exact ih h

/-- A call that fails has restored the board. -/
theorem solveNQueen_restores (row : Nat) : ∀ b : Board, b.Blank →
    (solveNQueen b row).1 = false → (solveNQueen b row).2 = b := by
  by_cases hrow : row < maxN
  · intro b hb h
    have ih := solveNQueen_restores (row + 1)
    unfold solveNQueen at h ⊢
    rw [dif_pos hrow] at h ⊢
    split_ifs at h ⊢ with hmark
    · exact ih b hb h
    · exact tryColumns_restores ih hb (Bool.not_eq_true _ ▸ hmark) h
  · intro b _ h
    unfold solveNQueen at h
    rw [dif_neg hrow] at h
    cases h
termination_by maxN - row

/-- A loop that succeeds has put a queen on a free column, and the call with it has succeeded. -/
theorem tryColumns_true
    (hnext : ∀ b : Board, b.Blank → (next b).1 = false → (next b).2 = b) (hb : b.Blank)
    (hrow : b.rowQueen.get row = false) (h : (tryColumns row next cols b).1 = true) :
    ∃ col ∈ cols, b.colQueen.get col = false ∧ checkqueen row col b.table maxN = true ∧
      (next (b.put row col queen true)).1 = true ∧
      (tryColumns row next cols b).2 = (next (b.put row col queen true)).2 := by
  induction cols with
  | nil => cases h
  | cons col cols ih =>
    unfold tryColumns at h ⊢
    split_ifs at h ⊢ with hcol hcheck
    · obtain ⟨c, hc, hrest⟩ := ih h
      exact ⟨c, List.mem_cons_of_mem _ hc, hrest⟩
    · split at h
      · rename_i b' hb'
        exact ⟨col, List.mem_cons_self, Bool.not_eq_true _ ▸ hcol, hcheck, congrArg Prod.fst hb',
          (congrArg Prod.snd hb').symm⟩
      · rename_i b' hb'
        rw [undo_failed hnext hb hrow (Bool.not_eq_true _ ▸ hcol) hb'] at h ⊢
        obtain ⟨c, hc, hrest⟩ := ih h
        exact ⟨c, List.mem_cons_of_mem _ hc, hrest⟩
    · obtain ⟨c, hc, hrest⟩ := ih h
      exact ⟨c, List.mem_cons_of_mem _ hc, hrest⟩

/-- A call that succeeds has kept the queens and marked every row from its own on. -/
theorem solveNQueen_keeps (row : Nat) : ∀ b : Board, b.Blank → (solveNQueen b row).1 = true →
    b.Keeps (solveNQueen b row).2 ∧
      ∀ x : Fin maxN, row ≤ x.val → (solveNQueen b row).2.rowQueen.get x = true := by
  by_cases hrow : row < maxN
  · intro b hb h
    have ih := solveNQueen_keeps (row + 1)
    -- the row itself is marked before the call for the next, and stays marked
    have hfrom : ∀ b' : Board, b'.rowQueen.get ⟨row, hrow⟩ = true → b'.Blank →
        (solveNQueen b' (row + 1)).1 = true → b'.Keeps (solveNQueen b' (row + 1)).2 ∧
          ∀ x : Fin maxN, row ≤ x.val →
            (solveNQueen b' (row + 1)).2.rowQueen.get x = true := by
      intro b' hmark hb' h'
      obtain ⟨hkeep, hrows⟩ := ih b' hb' h'
      refine ⟨hkeep, fun x hx => ?_⟩
      rcases Nat.lt_or_eq_of_le hx with hlt | heq
      · exact hrows x hlt
      · exact hkeep.rows x (by rwa [show x = ⟨row, hrow⟩ from Fin.ext heq.symm])
    unfold solveNQueen at h ⊢
    rw [dif_pos hrow] at h ⊢
    split_ifs at h ⊢ with hmark
    · exact hfrom b hmark hb h
    · obtain ⟨col, -, -, -, hok, heq⟩ := tryColumns_true (solveNQueen_restores (row + 1)) hb
        (Bool.not_eq_true _ ▸ hmark) h
      rw [heq]
      obtain ⟨hkeep, hrows⟩ := hfrom _ (by simp) hb.put hok
      exact ⟨keeps_put.trans hkeep, hrows⟩
  · intro b _ _
    unfold solveNQueen
    rw [dif_neg hrow]
    exact ⟨.refl b, fun x hx => absurd (Nat.lt_of_le_of_lt hx x.isLt) hrow⟩
termination_by maxN - row

end Frame

/-! ## 4. Backtracking -/

/-- **A call of `solveNQueen`** on a board whose unmarked rows are blank: a call that fails leaves
    the table and both vectors as they were; a call that succeeds has kept every queen, and has
    marked every row from its own on. What else the marked rows hold, and which columns are marked,
    plays no part. -/
theorem solveNQueen_backtracks (b : Board)
    (hblank : ∀ x, b.rowQueen.get x = false → ∀ y, b.table.at x y = dot) {row : Nat}
    (_ : row ≤ maxN) :
    ((solveNQueen b row).1 = false → (solveNQueen b row).2 = b) ∧
      ((solveNQueen b row).1 = true →
        (∀ x y, b.table.at x y = queen → (solveNQueen b row).2.table.at x y = queen) ∧
          ∀ x : Fin maxN, row ≤ x.val → (solveNQueen b row).2.rowQueen.get x = true) := by
  refine ⟨solveNQueen_restores row b hblank, fun h => ?_⟩
  obtain ⟨hkeep, hrows⟩ := solveNQueen_keeps row b hblank h
  exact ⟨hkeep.queens, hrows⟩

/-- The last two rows are left, and the first two columns: two queens there share a diagonal. -/
def twoColumns : Board where
  table := .replicate maxN (.replicate maxN dot)
  rowQueen := .ofFn fun x => x.val < 28
  colQueen := .ofFn fun y => 2 ≤ y.val

/-- Both columns are tried for the first of the rows, and nothing is left of it. -/
theorem solveNQueen_backtracks_twoColumns : (solveNQueen twoColumns 28).2 = twoColumns := by
  have hblank : ∀ x, twoColumns.rowQueen.get x = false → ∀ y, twoColumns.table.at x y = dot := by
    intro x _ y
    simp [twoColumns, Table.at, Vector.get_eq_getElem]
  have hfails : (solveNQueen twoColumns 28).1 = false := by decide +kernel
  exact (solveNQueen_backtracks twoColumns hblank (by decide)).1 hfails

end InpLabs.Queen
