/-
  File:      InpLabs/Maze/Explorer.lean
  Subject:   The search of the exploring maze client (lab3: lab3_4.py, `getPath`).

  * a position is a pair (x, y) with the row first, as in this program; `' '` is a cell the server
    has not shown yet;
  * `Entry`, `Explorer`: an entry of the stack, whose top is the head of the list, and the variables
    of the search. The grid is changed in place and is part of what the function leaves;
  * `look`: the loop over the four moves with its two early returns; `pass`: one round of the main
    loop; `getPath`: the function. Its loop goes round `limit` times at most; `none` says that this
    was not enough. A subscript that fails is an error.
-/
import InpLabs.Maze.Solver

namespace InpLabs.Maze.Explore

open InpLabs.Lib Python

/-- An entry of the stack. -/
structure Entry where
  x : Int
  y : Int
  path : List Char
  findExit : Bool

structure Explorer where
  maze : Grid
  visited : List (List Bool)
  stack : List Entry

/-- What the function returns. -/
structure Found where
  path : Option (List Char)
  x : Int
  y : Int
  findExit : Bool
  deriving DecidableEq

def moves : List (Int × Int) := [(-1, 0), (0, -1), (1, 0), (0, 1)]

def moveSymbols : List Char := ['W', 'A', 'S', 'D']

/-- The last condition of the loop over the moves. -/
def fresh (s : Explorer) (newX newY : Int) : Except Error Bool := do
  if ¬ (0 ≤ newX ∧ newX < s.maze.length) then return false
  if ¬ (0 ≤ newY ∧ newY < (← index s.maze 0).length) then return false
  if (← index2 s.maze newX newY) = '#' then return false
  return !(← index2 s.visited newX newY)

/-- The loop over the moves from the entry `e`. -/
def look (e : Entry) : List ((Int × Int) × Char) → Explorer →
    Except Error ((Found × Grid) ⊕ Explorer)
  | [], s => .ok (.inr s)
  | (d, symbol) :: rest, s => do
    let newX := e.x + d.1
    let newY := e.y + d.2
    let c ← index2 s.maze newX newY
    if c = ' ' then return .inl (⟨some e.path, e.x, e.y, false⟩, s.maze)
    if c = 'E' then return .inl (⟨some (e.path ++ [symbol]), newX, newY, true⟩, s.maze)
    if ← fresh s newX newY then
      let visited ← setIndex2 s.visited newX newY true
      let new : Entry := ⟨newX, newY, e.path ++ [symbol], e.findExit⟩
      look e rest { s with visited := visited, stack := new :: s.stack }
    else look e rest s

/-- A star that is reached becomes a dot. -/
def mark (maze : Grid) (x y : Int) : Except Error Grid := do
  if (← index2 maze x y) = '*' then setIndex2 maze x y '.' else return maze

/-- One round of the main loop, for the entry `e` that has been popped. -/
def pass (e : Entry) (s : Explorer) : Except Error ((Found × Grid) ⊕ Explorer) := do
  if (← index2 s.maze e.x e.y) = 'E' then
    return .inl (⟨some e.path, e.x, e.y, true⟩, s.maze)
  let maze ← mark s.maze e.x e.y
  look e (moves.zip moveSymbols) { s with maze := maze }

/-- The main loop. `last` is the entry popped last, whose parts are left in the variables. -/
def loop : Nat → Entry → Explorer → Except Error (Option (Found × Grid))
  | 0, _, _ => .ok none
  | limit + 1, last, s =>
    match s.stack with
    | [] => .ok (some (⟨none, last.x, last.y, last.findExit⟩, s.maze))
    | e :: stack => do
      match ← pass e { s with stack := stack } with
      | .inl found => return some found
      | .inr s => loop limit e s

/-- `getPath(maze, start_x, start_y)`, and the grid it leaves. -/
def getPath (limit : Nat) (maze : Grid) (startX startY : Int) :
    Except Error (Option (Found × Grid)) := do
  let visited ← maze.mapM fun _ => do
    return List.replicate (← index maze 0).length false
  let start : Entry := ⟨startX, startY, [], false⟩
  loop limit start ⟨maze, visited, [start]⟩

/-- The unknown cell is three steps away, and the search stops beside it. -/
example : (getPath 20 ["#####".toList, "#*#.#".toList, "#..##".toList, "## ##".toList] 1 1).toOption
    = some (some (⟨some "SD".toList, 2, 2, false⟩,
      ["#####".toList, "#.#.#".toList, "#..##".toList, "## ##".toList])) := by decide +kernel

end InpLabs.Maze.Explore
