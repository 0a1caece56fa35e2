/-
  File:      InpLabs/Maze/Solver.lean
  Subject:   The A* maze solver (lab3: MazeSolver.py).

  * `Grid`: the rows of a maze. A position is a pair (x, y), as in the source: the column first;
  * `Search`: the variables of the search. `cost` and `parent` are dictionaries; the heap is the
    list of its entries, and `heappop` takes the least of them as Python orders pairs;
  * `solveMazeWithAStar`: the function. Its two `while` loops go round `limit` times at most; `none`
    says that this was not enough. A subscript that fails is an error.
-/
import InpLabs.Lib.Python

namespace InpLabs.Maze

open InpLabs.Lib Python

/-- The rows of a maze. -/
abbrev Grid := List (List Char)

/-- A position (x, y). -/
abbrev Pos := Int × Int

/-! ## 1. The moves of a path -/

/-- What `path_to_moves` adds for two positions that follow each other. -/
def moveChar (p q : Pos) : List Char :=
  if q.1 > p.1 then ['D']
  else if q.1 < p.1 then ['A']
  else if q.2 > p.2 then ['S']
  else if q.2 < p.2 then ['W']
  else []

/-- The loop of `path_to_moves`. -/
def movesOf : List Pos → List Char
  | p :: q :: path => moveChar p q ++ movesOf (q :: path)
  | _ => []

def pathToMoves (path : List Pos) : List Char := movesOf path ++ ['\n']

/-! ## 2. The maze -/

/-- `heuristic(position, exit)`. -/
def heuristic (exit position : Pos) : Nat :=
  (position.1 - exit.1).natAbs + (position.2 - exit.2).natAbs

def offsets : List (Int × Int) := [(0, 1), (0, -1), (1, 0), (-1, 0)]

/-- What one pass of the loop of `get_neighbors` appends. -/
def neighborAt (maze : Grid) (width height : Nat) (position d : Int × Int) :
    Except Error (List Pos) := do
  let newX := position.1 + d.1
  let newY := position.2 + d.2
  if 0 ≤ newX ∧ newX < width ∧ 0 ≤ newY ∧ newY < height then
    let row ← index maze newY
    let c ← index row newX
    return if c ≠ '#' then [(newX, newY)] else []
  else return []

def getNeighbors (maze : Grid) (width height : Nat) (position : Pos) :
    Except Error (List Pos) := do
  return (← offsets.mapM (neighborAt maze width height position)).flatten

/-- One pass of the loops that look for the start and the exit; `q` is (y, x). -/
def findMark (maze : Grid) (marks : Option Pos × Option Pos) (q : Nat × Nat) :
    Except Error (Option Pos × Option Pos) := do
  let row ← index maze q.1
  let c ← index row q.2
  return if c = '*' then (some (q.2, q.1), marks.2)
    else if c = 'E' then (marks.1, some (q.2, q.1))
    else marks

/-- The start and the exit; where there are several, the last of each. -/
def findMarks (maze : Grid) (width height : Nat) : Except Error (Option Pos × Option Pos) :=
  ((List.range height).product (List.range width)).foldlM (findMark maze) (none, none)

/-! ## 3. The heap -/

/-- `a < b` for pairs of a priority and a position. -/
def before (a b : Nat × Pos) : Bool :=
  a.1 < b.1 ∨ a.1 = b.1 ∧ (a.2.1 < b.2.1 ∨ a.2.1 = b.2.1 ∧ a.2.2 < b.2.2)

/-- The least of some entries. -/
def least (e : Nat × Pos) (entries : List (Nat × Pos)) : Nat × Pos :=
  entries.foldl (fun m x => if before x m then x else m) e

/-- `heapq.heappop`, unless the heap is empty. -/
def heappop : List (Nat × Pos) → Option ((Nat × Pos) × List (Nat × Pos))
  | [] => none
  | e :: entries => some (least e entries, (e :: entries).erase (least e entries))

def heappush (entries : List (Nat × Pos)) (e : Nat × Pos) : List (Nat × Pos) := e :: entries

/-! ## 4. The search -/

structure Search where
  openList : List (Nat × Pos)
  closedList : Finset Pos
  parent : Pos → Option Pos
  cost : Pos → Option Nat

/-- What the search returns: a string, or the empty list. -/
inductive Answer where
  | moves (s : List Char)
  | nothing
  deriving DecidableEq

/-- The search before the loop. -/
def Search.start (start : Pos) : Search where
  openList := [(0, start)]
  closedList := ∅
  parent _ := none
  cost v := if v = start then some 0 else none

/-- The body of the inner `if`. -/
def Search.push (s : Search) (exit current neighbor : Pos) (newCost : Nat) : Search where
  openList := heappush s.openList (newCost + heuristic exit neighbor, neighbor)
  closedList := s.closedList
  parent := Function.update s.parent neighbor (some current)
  cost := Function.update s.cost neighbor (some newCost)

/-- One pass of the loop over the neighbours. -/
def Search.relax (exit current : Pos) (s : Search) (neighbor : Pos) : Except Error Search := do
  if neighbor ∈ s.closedList then return s
  let newCost := (← lookup s.cost current) + 1
  if neighbor ∉ s.openList.map Prod.snd then return s.push exit current neighbor newCost
  if newCost < (← lookup s.cost neighbor) then return s.push exit current neighbor newCost
  return s

/-- The loop that walks back to the start: the path is kept with its last entry first, which is the
    order it has after `path.reverse()`. -/
def tracePath (start : Pos) (parent : Pos → Option Pos) :
    Nat → List Pos → Except Error (Option (List Pos))
  | _, [] => .error .indexError
  | limit, v :: path =>
    if v = start then .ok (some (v :: path))
    else match limit with
      | 0 => .ok none
      | limit + 1 => do
        let u ← lookup parent v
        tracePath start parent limit (u :: v :: path)

/-- `closed_list.add(current_position)` and the loop over its neighbours. -/
def Search.expand (maze : Grid) (width height : Nat) (exit current : Pos) (s : Search) :
    Except Error Search := do
  let neighbors ← getNeighbors maze width height current
  neighbors.foldlM (Search.relax exit current)
    { s with closedList := insert current s.closedList }

/-- The main loop. -/
def Search.loop (maze : Grid) (width height : Nat) (start exit : Pos) (limit : Nat) :
    Nat → Search → Except Error (Option Answer)
  | 0, _ => .ok none
  | fuel + 1, s =>
    match heappop s.openList with
    | none => .ok (some .nothing)
    | some ((_, current), rest) =>
      if current = exit then do
        let path ← tracePath start s.parent limit [current]
        return path.map fun path => .moves (pathToMoves path)
      else do
        let s ← { s with openList := rest }.expand maze width height exit current
        s.loop maze width height start exit limit fuel

def solveMazeWithAStar (limit : Nat) (maze : Grid) : Except Error (Option Answer) := do
  let width := (← index maze 0).length
  let height := maze.length
  match ← findMarks maze width height with
  | (some start, some exit) =>
    (Search.start start).loop maze width height start exit limit limit
  | _ => return some .nothing

/-- The start beside a wall, the exit behind it. -/
example : (solveMazeWithAStar 20 ["*#E".toList, "...".toList]).toOption =
    some (some (.moves "SDDW\n".toList)) := by decide +kernel

end InpLabs.Maze
