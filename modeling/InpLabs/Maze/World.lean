/-
  File:      InpLabs/Maze/World.lean
  Subject:   A maze, and a server that shows the cells around the player (lab3: what lab3_4.py
             relies on).

  * `World`, `walk`, `HasExit`: a maze of any size, and where moves lead in it;
  * `view`, `Shows`, `Honest`: the window of seven rows and eleven columns, as a text;
  * `mazeParser_shows`, `placeView_view`: what the client reads and copies is what is shown;
  * `serverOf_honest`, `serverOf_announces`: there is such a server for every maze.
-/
import InpLabs.Maze.Client
import InpLabs.Maze.Exploration

namespace InpLabs.Maze.Explore

open InpLabs.Lib Python

/-! ## 1. A maze and its server -/

/-- What stands where; outside of the maze there are blanks. -/
abbrev World := Pos → Char

/-- A cell one may walk over. -/
def Plain (c : Char) : Prop := c ≠ '#' ∧ c ≠ ' ' ∧ c ≠ 'E'

instance (c : Char) : Decidable (Plain c) := inferInstanceAs (Decidable (_ ∧ _ ∧ _))

/-- Where the player is after some moves, if they lead over plain cells. -/
def walk (world : World) (p : Pos) (path : List Char) : Option Pos :=
  follow target (fun q => Plain (world q)) p path

/-- The moves lead to the exit, and not before the last one. -/
def LeadsOut (world : World) (start : Pos) (path : List Char) : Prop :=
  ∃ front move p q, path = front ++ [move] ∧ walk world start front = some p ∧
    target p move = some q ∧ world q = 'E'

/-- The cells one can walk to. -/
def Walkable (world : World) : Pos → Pos → Prop :=
  Relation.ReflTransGen fun p q => Beside p q ∧ Plain (world q)

/-- There is a way to the exit. -/
def HasExit (world : World) (start : Pos) : Prop :=
  ∃ p q, Walkable world start p ∧ Beside p q ∧ world q = 'E'

/-- What a server shows at `q` when the player is at `p`. -/
def shown (world : World) (p q : Pos) : Char := if q = p then '*' else world q

/-- The seven rows and eleven columns around the player. -/
def view (world : World) (p : Pos) : Grid :=
  (List.range 7).map fun i => (List.range 11).map fun j =>
    shown world p (p.1 - 3 + (i : Nat), p.2 - 5 + (j : Nat))

/-- A line with a row of the window: seven characters with the number of the row go before it. -/
def ShowsRow (line row : List Char) : Prop :=
  ∃ label rest, line = label ++ row ++ rest ∧ [' ', ' '] <+: label ∧ label.length = 7 ∧
    row.length = 11 ∧ 'a' ∉ row

/-- A reply that shows the window. -/
def Shows (reply : List Char) (small : Grid) : Prop :=
  ∃ before rows after, reply.splitOn '\n' = before ++ rows ++ after ∧
    (∀ line ∈ before, ¬ [' ', ' '] <+: line) ∧ List.Forall₂ ShowsRow rows small

/-- A reply that says that the exit has been reached, in a line that has come in full. -/
def Announces (reply : List Char) : Prop := ∃ line ∈ complete '\n' reply, "BINGO!".toList <:+: line

/-- How `main` ends when it has sent a way out: the server has to say that it is one. -/
def Answered (server : MazeServer) (sent : List (List Char)) (e : End) : Prop :=
  (Announces (server sent) → e = .found sent) ∧ (¬ Announces (server sent) → e = .waits sent)

/-- Before the player is at the exit, the server shows where he is. -/
def Honest (world : World) (start : Pos) (server : MazeServer) : Prop :=
  ∀ lines p, walk world start lines.flatten = some p → Shows (server lines) (view world p)

/-- The window stays inside of the client's grid, and the maze is walled. -/
def Roomy (world : World) (start : Pos) : Prop :=
  ∀ p, Walkable world start p → (4 ≤ p.1 ∧ p.1 ≤ 196 ∧ 6 ≤ p.2 ∧ p.2 ≤ 194) ∧
    ∀ q, Beside p q → world q ≠ ' '

/-! ## 2. What is read -/

section Walks

variable {world : World} {p q : Pos} {path : List Char}

theorem walkable_of_walk (h : walk world p path = some q) : Walkable world p q :=
  reachable_of_follow (fun _ _ _ => beside_of_target) h

theorem plain_of_walkable (hp : Plain (world p)) (h : Walkable world p q) : Plain (world q) :=
  @allowed_of_reachable _ _ _ Beside (fun q => Plain (world q)) h hp

end Walks

section Replies

variable {l row : List Char} {ls before after : List (List Char)} {small done maze : Grid}
  {j n : Nat}

theorem rowData_of_prefix (h : row <+: l.drop j) (ha : 'a' ∉ row) (acc : List Char) :
    rowData l (List.range' j row.length) acc = .ok (acc ++ row) := by
  induction row generalizing j acc with
  | nil => exact congrArg _ (List.append_nil acc).symm
  | cons c row ih =>
    obtain ⟨rest, hrest⟩ := h
    rw [List.mem_cons, not_or] at ha
    have hget : l[(j : Int).toNat]? = some c := by
      rw [Int.toNat_natCast, ← Nat.add_zero j, ← List.getElem?_drop, ← hrest]
      rfl
    have htail : row <+: l.drop (j + 1) := by
      rw [← List.tail_drop, ← hrest]
      exact ⟨rest, rfl⟩
    rw [List.length_cons, List.range'_succ, rowData, index_of_get? (Int.natCast_nonneg j) hget,
      ok_bind, if_neg (Ne.symm ha.1), ih htail ha.2, List.append_assoc]
    rfl

theorem rowData_of_shows (h : ShowsRow l row) :
    [' ', ' '] <+: l ∧ row ≠ [] ∧ rowData l (List.range' 7 11) [] = .ok row := by
  obtain ⟨label, rest, rfl, hblank, hlabel, hlength, ha⟩ := h
  refine ⟨?_, List.ne_nil_of_length_pos (by omega), ?_⟩
  · rw [List.append_assoc]
    exact hblank.trans (List.prefix_append _ _)
  · rw [← hlength]
    refine rowData_of_prefix ?_ ha []
    rw [List.append_assoc, List.drop_left' hlabel]
    exact List.prefix_append _ _

theorem parseLines_before (h : ∀ l ∈ before, ¬ [' ', ' '] <+: l) (i : Nat) (maze : Grid) :
    parseLines (before ++ ls) i maze = parseLines ls i maze := by
  induction before with
  | nil => rfl
  | cons l before ih =>
    obtain ⟨hl, hbefore⟩ := List.forall_mem_cons.mp h
    rw [List.cons_append, parseLines, if_pos (by simpa using hl), ih hbefore]

/-- A row of the window is put into its place. -/
theorem parseLines_row (h : ShowsRow l row) :
    parseLines (l :: ls) done.length (done ++ [] :: maze) =
      if done.length + 1 = 7 then .ok (done ++ row :: maze)
      else parseLines ls (done.length + 1) (done ++ row :: maze) := by
  obtain ⟨hblank, hne, hrow⟩ := rowData_of_shows h
  have hindex : index (done ++ [] :: maze) done.length = .ok [] :=
    index_of_get? (Int.natCast_nonneg _) (by simp)
  have hset : setIndex (done ++ [] :: maze) done.length row = .ok (done ++ row :: maze) := by
    rw [setIndex_of_lt (Int.natCast_nonneg _) (by simp), Int.toNat_natCast,
      List.set_append_right _ _ (Nat.le_refl _), Nat.sub_self]
    rfl
  rw [parseLines, if_neg (by simpa using hblank), hrow, ok_bind, if_neg hne, hindex, ok_bind,
    List.nil_append, hset, ok_bind]
  rfl

/-- All rows are, and what follows the last one is not read. -/
theorem parseLines_rows (h : List.Forall₂ ShowsRow ls small) (hne : small ≠ [])
    (hlen : done.length + small.length = 7) :
    parseLines (ls ++ after) done.length (done ++ List.replicate small.length []) =
      .ok (done ++ small) := by
  induction h generalizing done with
  | nil => exact absurd rfl hne
  | @cons l row ls small hrow hrows ih =>
    rw [List.cons_append, List.length_cons, List.replicate_succ, parseLines_row hrow]
    by_cases hnil : small = []
    · subst hnil
      exact if_pos hlen
    · have hpos := List.length_pos_of_ne_nil hnil
      rw [List.length_cons] at hlen
      have hlength : (done ++ [row]).length = done.length + 1 := by simp
      have hrest : parseLines (ls ++ after) (done ++ [row]).length
          ((done ++ [row]) ++ List.replicate small.length []) = .ok ((done ++ [row]) ++ small) :=
        ih hnil (by omega)
      rw [hlength, List.append_assoc, List.append_assoc] at hrest
      rw [if_neg (by omega)]
      exact hrest

theorem recvlineContains_isSome {reply : List Char} :
    (recvlineContains "BINGO!".toList reply).isSome = true ↔ Announces reply := by
  unfold recvlineContains Announces
  simp only [List.find?_isSome, decide_eq_true_eq]

theorem mazeParser_shows {reply : List Char} (h : Shows reply small) (hlen : small.length = 7) :
    mazeParser reply = .ok small := by
  obtain ⟨before, rows, after, hsplit, hbefore, hrows⟩ := h
  have hread : parseLines (rows ++ after) ([] : Grid).length
      ([] ++ List.replicate small.length []) = .ok ([] ++ small) :=
    parseLines_rows hrows (List.ne_nil_of_length_pos (by omega)) (by rw [hlen]; rfl)
  rw [hlen] at hread
  rw [mazeParser, hsplit, List.append_assoc, parseLines_before hbefore]
  exact hread

end Replies

/-! ## 3. What is placed -/

/-- The window around the player. -/
def Near (p q : Pos) : Prop :=
  (p.1 - 3 ≤ q.1 ∧ q.1 ≤ p.1 + 3) ∧ p.2 - 5 ≤ q.2 ∧ q.2 ≤ p.2 + 5

instance (p q : Pos) : Decidable (Near p q) := inferInstanceAs (Decidable (_ ∧ _))

section View

variable {world : World} {maze : Grid} {width : Nat} {p q : Pos}

theorem view_length (world : World) (p : Pos) : (view world p).length = 7 := by simp [view]

theorem index2_view {k : Nat × Nat} (hi : k.1 < 7) (hj : k.2 < 11) :
    index2 (view world p) k.1 k.2 = .ok (shown world p (p.1 - 3 + k.1, p.2 - 5 + k.2)) := by
  have hrow : (view world p)[k.1]? = some ((List.range 11).map fun j =>
      shown world p (p.1 - 3 + (k.1 : Nat), p.2 - 5 + (j : Nat))) := by
    rw [view, List.getElem?_map, List.getElem?_range hi]
    rfl
  refine index2_of_entry (p := ((k.1 : Int), (k.2 : Int))) (entry_eq_some.mpr
    ⟨Int.natCast_nonneg _, Int.natCast_nonneg _, _, hrow, ?_⟩)
  rw [Int.toNat_natCast, List.getElem?_map, List.getElem?_range hj]
  rfl

/-- **The window is copied** to where the player is, if it lies inside of the grid. -/
theorem placeView_view (hrect : Rectangular maze width)
    (hrows : 3 ≤ p.1 ∧ p.1 + 3 < maze.length) (hcols : 5 ≤ p.2 ∧ p.2 + 5 < width) :
    ∃ maze', placeView maze (view world p) p.1 p.2 = .ok maze' ∧
      (∀ q, entry maze' q = if Near p q then some (shown world p q) else entry maze q) ∧
      maze'.map List.length = maze.map List.length := by
  have hfirst : index (view world p) 0 = .ok ((List.range 11).map fun j =>
      shown world p (p.1 - 3 + (0 : Nat), p.2 - 5 + (j : Nat))) :=
    index_of_get? (Int.le_refl 0) (by simp [view])
  have hmem : ∀ k : Nat × Nat, k ∈ (List.range 7).product (List.range 11) ↔ k.1 < 7 ∧ k.2 < 11 := by
    rintro ⟨i, j⟩
    exact List.pair_mem_product.trans (and_congr List.mem_range List.mem_range)
  let pos : Nat × Nat → Pos := fun k => (p.1 - 3 + k.1, p.2 - 5 + k.2)
  have hval : ∀ k ∈ (List.range 7).product (List.range 11),
      index2 (view world p) k.1 k.2 = .ok (shown world p (pos k)) := fun k hk =>
    index2_view ((hmem k).mp hk).1 ((hmem k).mp hk).2
  have hin : ∀ k ∈ (List.range 7).product (List.range 11), ∃ b, entry maze (pos k) = some b := by
    intro k hk
    obtain ⟨hi, hj⟩ := (hmem k).mp hk
    refine (exists_entry hrect).mpr ?_
    show (0 ≤ p.1 - 3 + k.1 ∧ p.1 - 3 + k.1 < maze.length) ∧
      0 ≤ p.2 - 5 + k.2 ∧ p.2 - 5 + k.2 < width
    omega
  obtain ⟨maze', hfold, hentry, hshape⟩ := foldlM_setIndex2 hval hin
  refine ⟨maze', ?_, fun q => ?_, hshape⟩
  · unfold placeView
    rw [hfirst, ok_bind, view_length]
    simpa using hfold
  · rw [hentry]
    refine if_ctx_congr ?_ (fun _ => rfl) fun _ => rfl
    rw [List.mem_map]
    constructor
    · rintro ⟨k, hk, rfl⟩
      obtain ⟨hi, hj⟩ := (hmem k).mp hk
      unfold Near
      dsimp only [pos]
      omega
    · intro ⟨⟨h1, h2⟩, h3, h4⟩
      refine ⟨((q.1 - (p.1 - 3)).toNat, (q.2 - (p.2 - 5)).toNat), (hmem _).mpr ⟨?_, ?_⟩, ?_⟩
      · dsimp only
        omega
      · dsimp only
        omega
      · exact Prod.ext (by dsimp only [pos]; omega) (by dsimp only [pos]; omega)

end View

/-! ## 4. A server for every maze -/

/-- The window, with the numbers of the rows left out, and the prompt. -/
def render (small : Grid) : List Char :=
  ['\n'].intercalate
    (small.map ("     : ".toList ++ ·) ++ ["Enter your move(s)>".toList])

/-- Where moves end that lead to the exit, but for the last over plain cells. -/
def exitAt (world : World) (start : Pos) (path : List Char) : Option Pos :=
  ((walk world start path.dropLast).bind fun p => path.getLast?.bind (target p)).filter
    fun q => world q = 'E'

/-- It shows where the player is, and says so at the exit. What it says to moves that lead elsewhere
does not matter. -/
def serverOf (world : World) (start : Pos) : MazeServer := fun lines =>
  match walk world start lines.flatten with
  | some p => render (view world p)
  | none => if (exitAt world start lines.flatten).isSome then "BINGO!\n".toList else []

/-- **There is such a server** for every maze whose cells do not end a row. -/
theorem serverOf_honest (world : World) (start : Pos)
    (h : ∀ q, world q ≠ 'a' ∧ world q ≠ '\n') : Honest world start (serverOf world start) := by
  intro ls p hp
  have hshown : ∀ q, shown world p q ≠ 'a' ∧ shown world p q ≠ '\n' := by
    intro q
    unfold shown
    split_ifs
    · decide
    · exact h q
  have hrows : ∀ row ∈ view world p, row.length = 11 ∧ 'a' ∉ row ∧ '\n' ∉ row := by
    intro row hrow
    obtain ⟨i, -, rfl⟩ := List.mem_map.mp hrow
    refine ⟨by simp, fun hmem => ?_, fun hmem => ?_⟩
    · obtain ⟨j, -, hj⟩ := List.mem_map.mp hmem
      exact (hshown _).1 hj
    · obtain ⟨j, -, hj⟩ := List.mem_map.mp hmem
      exact (hshown _).2 hj
  rw [serverOf, hp]
  refine ⟨[], (view world p).map ("     : ".toList ++ ·), ["Enter your move(s)>".toList], ?_,
    fun l hl => absurd hl List.not_mem_nil, ?_⟩
  · dsimp only
    rw [render, List.splitOn_intercalate _ (fun l hl => ?_) (by simp), List.nil_append]
    rcases List.mem_append.mp hl with hl | hl
    · obtain ⟨row, hrow, rfl⟩ := List.mem_map.mp hl
      rw [List.mem_append, not_or]
      exact ⟨by decide, (hrows row hrow).2.2⟩
    · obtain rfl := List.mem_singleton.mp hl
      decide
  · refine List.forall₂_map_left_iff.mpr (List.forall₂_same.mpr fun row hrow => ?_)
    exact ⟨"     : ".toList, [], (List.append_nil _).symm, ⟨"   : ".toList, rfl⟩, rfl,
      (hrows row hrow).1, (hrows row hrow).2.1⟩

theorem serverOf_announces {world : World} {start : Pos} {lines : List (List Char)}
    (h : LeadsOut world start lines.flatten) : Announces (serverOf world start lines) := by
  obtain ⟨front, move, p, q, hpath, hfront, htarget, hE⟩ := h
  have hnone : walk world start lines.flatten = none := by
    cases hwalk : walk world start lines.flatten with
    | none => rfl
    | some r =>
      rw [hpath] at hwalk
      obtain ⟨q', ht, hplain, -⟩ := follow_cons_iff.mp ((follow_append hfront).symm.trans hwalk)
      obtain rfl : q = q' := Option.some.inj (htarget.symm.trans ht)
      exact absurd hE hplain.2.2
  have hexit : exitAt world start lines.flatten = some q := by
    rw [hpath, exitAt, List.dropLast_concat, List.getLast?_concat, hfront, Option.bind_some,
      Option.bind_some, htarget, Option.filter_some, if_pos (decide_eq_true hE)]
  rw [serverOf, hnone]
  dsimp only
  rw [hexit, if_pos Option.isSome_some]
  exact ⟨"BINGO!".toList, by decide, List.infix_rfl⟩

end InpLabs.Maze.Explore
