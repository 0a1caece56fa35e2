/-
  File:      InpLabs/Maze/Client.lean
  Subject:   The exploring maze client (lab3: lab3_4.py, around `getPath`).

  * `mazeParser`: the window of the maze in a reply; `placeView`: the loops that copy it into the
    grid, as `main` and `updateMaze` do; `recvlineContains`: the line it waits for at the exit;
  * `Client`: the variables of `main`, and the lines sent so far; `turn`, `rounds`: its loop;
  * `main`: the program, against any server. A limit bounds its loops, and those of `getPath`;
    `none` says that this was not enough.
-/
import InpLabs.Lib.Lines
import InpLabs.Maze.Explorer

namespace InpLabs.Maze.Explore

open InpLabs.Lib Python

/-! ## 1. The replies -/

/-- The loop over the columns of a line. -/
def rowData (line : List Char) : List Nat → List Char → Except Error (List Char)
  | [], row => .ok row
  | j :: js, row => do
    let c ← index line j
    if c = 'a' then return row
    rowData line js (row ++ [c])

/-- The loop over the lines. -/
def parseLines : List (List Char) → Nat → Grid → Except Error Grid
  | [], _, maze => .ok maze
  | line :: lines, i, maze =>
    if ¬ [' ', ' '].isPrefixOf line then parseLines lines i maze
    else do
      let row ← rowData line (List.range' 7 11) []
      if row = [] then parseLines lines i maze
      else
        let maze ← setIndex maze i ((← index maze i) ++ row)
        if i + 1 = 7 then return maze else parseLines lines (i + 1) maze

def mazeParser (mazeData : List Char) : Except Error Grid :=
  parseLines (mazeData.splitOn '\n') 0 (List.replicate 7 [])

/-- The two loops that copy the window to where the player is. -/
def placeView (maze small : Grid) (currentX currentY : Int) : Except Error Grid := do
  let width := (← index small 0).length
  ((List.range small.length).product (List.range width)).foldlM (fun maze q => do
    setIndex2 maze (currentX - small.length / 2 + q.1) (currentY - width / 2 + q.2)
      (← index2 small q.1 q.2)) maze

/-- `r.recvline_contains`: the first of the lines that have come in full with this in it. -/
def recvlineContains (item reply : List Char) : Option (List Char) :=
  (complete '\n' reply).find? fun line => item <:+: line

/-! ## 2. The program -/

/-- What the server says, up to its prompt, after the lines it was sent, or at the exit, where it
prompts no more. -/
abbrev MazeServer := List (List Char) → List Char

structure Client where
  maze : Grid
  x : Int
  y : Int
  sent : List (List Char)

/-- How `main` ends: the server has been sent the way to the exit and has said so; it has been sent
it, and `main` waits for that; or the path is `None`, which cannot be joined. -/
inductive End where
  | found (sent : List (List Char))
  | waits (sent : List (List Char))
  | typeError
  deriving DecidableEq

/-- `updateMaze`, with the grid that `getPath` leaves. -/
def updateMaze (server : MazeServer) (sent : List (List Char)) (found : Found) (maze : Grid) :
    Except Error (Client ⊕ End) :=
  match found.path with
  | none => .ok (.inr .typeError)
  | some path => do
    let sent := sent ++ [path]
    if found.findExit then
      return .inr (if (recvlineContains "BINGO!".toList (server sent)).isSome then .found sent
        else .waits sent)
    let small ← mazeParser (server sent)
    return .inl ⟨← placeView maze small found.x found.y, found.x, found.y, sent⟩

/-- One round of the loop of `main`. -/
def turn (limit : Nat) (server : MazeServer) (c : Client) :
    Except Error (Option (Client ⊕ End)) :=
  if c.maze.any (·.contains '*') then do
    match ← getPath limit c.maze c.x c.y with
    | none => return none
    | some (found, maze) => return some (← updateMaze server c.sent found maze)
  else .ok (some (.inl c))

def rounds (limit : Nat) (server : MazeServer) : Nat → Client → Except Error (Option End)
  | 0, _ => .ok none
  | n + 1, c => do
    match ← turn limit server c with
    | none => return none
    | some (.inl c) => rounds limit server n c
    | some (.inr e) => return some e

def mazeSize : Nat := 201

/-- The grid before anything is known. -/
def unknown : Grid := List.replicate mazeSize (List.replicate mazeSize ' ')

def main (limit : Nat) (server : MazeServer) : Except Error (Option End) := do
  let small ← mazeParser (server [])
  rounds limit server limit ⟨← placeView unknown small 100 100, 100, 100, []⟩

end InpLabs.Maze.Explore
