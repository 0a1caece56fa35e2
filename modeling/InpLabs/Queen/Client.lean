/-
  File:      InpLabs/Queen/Client.lean
  Subject:   **The N-Queen client plays a game to its end** (lab7: solver.cpp, `main`): it asks for
             the board, marks its queens and has them checked.

  * `QueenServer`: what is to be read after the commands sent so far;
  * `main`, `markLoop`: the program. `none` says that `limit` was not enough for `recvMsg`, or that
    the board is not the size the program's subscripts are good for;
  * `Shows`: a text from which `main` reads a table; `mark`, `play`: what the commands do to the
    server's table;
  * `main_plays`: against a server that shows the table in one piece, the queens that are marked
    make a placement, if there is one that contains those given.
-/
import InpLabs.Lib.Lines
import InpLabs.Queen.Correct
import InpLabs.Queen.Reply

namespace InpLabs.Queen

open InpLabs.Lib

/-! ## 1. The program -/

/-- What is to be read, after each of the commands. -/
abbrev QueenServer := List Bytes → Socket

/-- `std::vector<std::string>` as a table, where it has `maxN` strings of `maxN` characters. -/
def tableOf (rows : List Bytes) : Option Table :=
  if rows.length = maxN ∧ ∀ row ∈ rows, row.length = maxN then
    some (.ofFn fun x => .ofFn fun y => (rows.getD x []).getD y 0)
  else none

/-- The cells in the order of the two loops of `main`. -/
def allCells : List (Cell maxN) := (List.finRange maxN).product (List.finRange maxN)

/-- `"M %d %d\n"`. -/
def markMsg (p : Cell maxN) : Bytes :=
  ascii "M " ++ ascii (toString p.1.val) ++ ascii " " ++ ascii (toString p.2.val) ++ ascii "\n"

/-- The loop that sends the queens, with the commands sent so far. `sprintf` writes into the buffer
    that the reply is then read into. -/
def markLoop (limit : Nat) (server : QueenServer) (table : Table) :
    List (Cell maxN) → List Bytes → Bytes → Option (List Bytes × Bytes)
  | [], sent, buf => some (sent, buf)
  | p :: ps, sent, buf =>
    if table.at p.1 p.2 = queen then do
      let sent := sent ++ [markMsg p]
      let (buf, _) ← recvMsg limit (server sent) (fill buf (markMsg p))
      markLoop limit server table ps sent buf
    else markLoop limit server table ps sent buf

/-- The commands it sends; `buf` is what `malloc` has left in the buffer. -/
def main (limit : Nat) (server : QueenServer) (buf : Bytes) : Option (List Bytes) := do
  let sent := [ascii "P\n"]
  let (buf, _) ← recvMsg limit (server sent) buf
  let table ← tableOf (parseBoard buf)
  let solved := (solveNQueen (markQueens table) 0).2.table
  let (sent, buf) ← markLoop limit server solved allCells sent buf
  let sent := sent ++ [ascii "C\n"]
  let _ ← recvMsg limit (server sent) buf
  return sent

/-! ## 2. The game -/

/-- The rows of a table. -/
def Table.rows (t : Table) : List Bytes := t.toList.map Vector.toList

/-- The rows, a line each, with spaces anywhere. -/
def Shows (text : Bytes) (t : Table) : Prop := text.filter (· ≠ 32) = unlines 10 t.rows

/-- The server falls silent after each reply. It shows the table in one piece; what else it says may
    come as it likes. -/
structure Serves (t : Table) (server : QueenServer) : Prop where
  silent : ∀ sent, (server sent).ending = .timeout
  pieces : ∀ sent, ∀ c ∈ (server sent).chunks, c.length < maxMsg
  shows : ∃ text, (server [ascii "P\n"]).chunks = [text] ∧ Shows text t

/-- The command `M` places a queen on an empty cell. -/
def mark (t : Table) (p : Cell maxN) : Table :=
  if t.at p.1 p.2 = dot then t.set p.1 ((t.get p.1).set p.2 queen) else t

/-- The server's table after some of these commands. -/
def play (t : Table) (ps : List (Cell maxN)) : Table := ps.foldl mark t

section Game

variable {t : Table} {ps : List (Cell maxN)} {p : Cell maxN}

theorem mark_at (x y : Fin maxN) : (mark t p).at x y =
    if p = (x, y) ∧ t.at x y = dot then queen else t.at x y := by
  obtain ⟨r, c⟩ := p
  unfold mark
  by_cases hdot : t.at r c = dot
  · rw [if_pos hdot]
    simp only [Table.at, get_set, Prod.mk.injEq]
    by_cases hr : r = x
    · subst hr
      by_cases hc : c = y
      · subst hc
        have hdot' : (t.get r).get c = dot := hdot
        simp [get_set, hdot']
      · simp [get_set, hc]
    · simp [hr]
  · rw [if_neg hdot, if_neg]
    intro h
    cases h.1
    exact hdot h.2

/-- The queens after a game: those before and those marked. -/
theorem play_queens (hcells : ∀ x y, t.at x y = dot ∨ t.at x y = queen) :
    (play t ps).queens = t.queens ∪ ps.toFinset := by
  induction ps generalizing t with
  | nil => exact (Finset.union_empty _).symm
  | cons p ps ih =>
    have hmark : ∀ x y, (mark t p).at x y = dot ∨ (mark t p).at x y = queen := by
      intro x y
      rw [mark_at]
      split
      · exact .inr rfl
      · exact hcells x y
    have hqueens : (mark t p).queens = insert p t.queens := by
      ext q
      rw [Finset.mem_insert, mem_queens, mem_queens, mark_at]
      rcases hcells q.1 q.2 with h | h
      · by_cases hp : q = p
        · simp [hp, hp ▸ h]
        · have hp' : ¬ p = (q.1, q.2) := fun e => hp e.symm
          simp [hp, hp', h]
      · have hne : queen ≠ dot := by decide
        simp [h, hne]
    show (play (mark t p) ps).queens = _
    rw [ih hmark, hqueens, List.toFinset_cons, Finset.insert_union, Finset.union_insert]

end Game

/-! ## 3. The board that is read -/

section Board

variable {t : Table} {text buf : Bytes} {rows : List Bytes} {st : List Bytes × Bytes}

theorem foldl_filter (text : Bytes) (st : List Bytes × Bytes) :
    (text.filter (· ≠ 32)).foldl readByte st = text.foldl readByte st := by
  induction text generalizing st with
  | nil => rfl
  | cons c text ih =>
    by_cases hc : c = 32
    · subst hc
      exact ih st
    · rw [List.filter_cons_of_pos (by simpa using hc)]
      exact ih _

/-- A row, up to its newline. -/
theorem foldl_row {row : Bytes} (hrow : ∀ c ∈ row, c ≠ 10 ∧ c ≠ 32) (done : List Bytes)
    (start : Bytes) : (row ++ 10 :: text).foldl readByte (done, start) =
      text.foldl readByte (done ++ [start ++ row], []) := by
  induction row generalizing start with
  | nil =>
    rw [List.append_nil]
    rfl
  | cons c row ih =>
    obtain ⟨⟨h10, h32⟩, hrow⟩ := List.forall_mem_cons.mp hrow
    have hread : readByte (done, start) c = (done, start ++ [c]) := by
      unfold readByte
      rw [if_neg h10, if_neg h32]
    rw [List.cons_append, List.foldl_cons, hread, ih hrow, List.append_assoc]
    rfl

theorem foldl_rows (hrows : ∀ row ∈ rows, ∀ c ∈ row, c ≠ 10 ∧ c ≠ 32) (done : List Bytes) :
    (unlines 10 rows).foldl readByte (done, []) = (done ++ rows, []) := by
  induction rows generalizing done with
  | nil => simp [unlines]
  | cons row rows ih =>
    obtain ⟨hrow, hrows⟩ := List.forall_mem_cons.mp hrows
    rw [unlines_cons, foldl_row hrow, ih hrows, List.append_assoc]
    rfl

theorem mem_rows {row : Bytes} (h : row ∈ t.rows) : ∃ x, row = (t.get x).toList := by
  obtain ⟨v, hv, rfl⟩ := List.mem_map.mp h
  obtain ⟨i, hi, rfl⟩ := List.mem_iff_getElem.mp hv
  exact ⟨⟨i, by simpa using hi⟩, rfl⟩

theorem mem_row {x : Fin maxN} {c : UInt8} (h : c ∈ (t.get x).toList) : ∃ y, c = t.at x y := by
  obtain ⟨i, hi, rfl⟩ := List.mem_iff_getElem.mp h
  exact ⟨⟨i, by simpa using hi⟩, rfl⟩

/-- **The rows are read back** from a text that shows the table. -/
theorem parseBoard_shows (hcells : ∀ x y, t.at x y = dot ∨ t.at x y = queen) (h : Shows text t)
    (hbuf : text ++ [0] <+: buf) : parseBoard buf = t.rows := by
  have hcell : ∀ row ∈ t.rows, ∀ c ∈ row, c = dot ∨ c = queen := by
    intro row hrow c hc
    obtain ⟨x, rfl⟩ := mem_rows hrow
    obtain ⟨y, rfl⟩ := mem_row hc
    exact hcells x y
  have hrows : ∀ row ∈ t.rows, ∀ c ∈ row, c ≠ 10 ∧ c ≠ 32 := by
    intro row hrow c hc
    rcases hcell row hrow c hc with rfl | rfl <;> decide
  have hplain : 0 ∉ text := by
    intro h0
    have hmem : (0 : UInt8) ∈ unlines 10 t.rows := by
      unfold Shows at h
      rw [← h]
      exact List.mem_filter.mpr ⟨h0, by decide⟩
    obtain ⟨row, hrow, hmem⟩ := List.mem_flatMap.mp hmem
    rcases List.mem_append.mp hmem with hmem | hmem
    · rcases hcell row hrow 0 hmem with h | h <;> cases h
    · cases List.mem_singleton.mp hmem
  have htext : cString text = text := List.takeWhile_eq_self_iff.mpr fun c hc => by
    have hne : c ≠ 0 := fun e => hplain (e ▸ hc)
    simpa using hne
  unfold parseBoard
  rw [cString_terminated hbuf, htext, ← foldl_filter, h, foldl_rows hrows]
  rfl

theorem tableOf_rows (t : Table) : tableOf t.rows = some t := by
  have h : t.rows.length = maxN ∧ ∀ row ∈ t.rows, row.length = maxN := by
    refine ⟨by simp [Table.rows], fun row hrow => ?_⟩
    obtain ⟨x, rfl⟩ := mem_rows hrow
    exact Vector.length_toList
  unfold tableOf
  rw [if_pos h]
  refine congrArg some (table_ext fun x y => ?_)
  simp [Table.at, Table.rows, Vector.get_eq_getElem]

end Board

/-! ## 4. The run -/

section Run

variable {t : Table} {server : QueenServer} {ps : List (Cell maxN)} {sent : List Bytes}
  {buf : Bytes}

/-- A reply that ends in silence is read to its end. -/
theorem recvMsg_silent (hserver : Serves t server) (hbuf : buf.length = maxMsg) {limit : Nat}
    (hlimit : (server sent).chunks.length < limit) :
    ∃ buf' s, recvMsg limit (server sent) buf = some (buf', s) ∧ buf'.length = maxMsg ∧
      ∀ text, (server sent).chunks = [text] → text ++ [0] <+: buf' := by
  have hpieces := hserver.pieces sent
  have hsilent := hserver.silent sent
  generalize server sent = s at hpieces hsilent hlimit ⊢
  obtain ⟨chunks, ending⟩ := s
  obtain rfl : ending = .timeout := hsilent
  refine ⟨_, _, recvMsg_timeout hpieces hlimit buf, foldl_fill_length hpieces hbuf, ?_⟩
  intro text htext
  obtain rfl : chunks = [text] := htext
  exact fill_prefix (hbuf ▸ hpieces text List.mem_cons_self)

theorem decimal_length : ∀ k : Fin maxN, (ascii (toString k.val)).length ≤ 2 := by decide +kernel

theorem markMsg_length (p : Cell maxN) : (markMsg p).length < maxMsg := by
  have hrow := decimal_length p.1
  have hcol := decimal_length p.2
  have hm : (ascii "M ").length = 2 := rfl
  have hblank : (ascii " ").length = 1 := rfl
  have hend : (ascii "\n").length = 1 := rfl
  unfold markMsg maxMsg
  simp only [List.length_append]
  omega

/-- The loop sends a command for each queen. -/
theorem markLoop_sends (hserver : Serves t server) (table : Table) (ps : List (Cell maxN))
    (sent : List Bytes) : ∃ N, ∀ limit, N ≤ limit → ∀ buf, buf.length = maxMsg →
      ∃ buf', buf'.length = maxMsg ∧ markLoop limit server table ps sent buf =
        some (sent ++ (ps.filter fun p => table.at p.1 p.2 = queen).map markMsg, buf') := by
  induction ps generalizing sent with
  | nil =>
    refine ⟨0, fun limit _ buf hbuf => ⟨buf, hbuf, ?_⟩⟩
    rw [markLoop, List.filter_nil, List.map_nil, List.append_nil]
  | cons p ps ih =>
    by_cases hq : table.at p.1 p.2 = queen
    · obtain ⟨N, hN⟩ := ih (sent ++ [markMsg p])
      refine ⟨max N ((server (sent ++ [markMsg p])).chunks.length + 1), ?_⟩
      intro limit hlimit buf hbuf
      have hfill : (fill buf (markMsg p)).length = maxMsg :=
        (fill_length (hbuf ▸ markMsg_length p)).trans hbuf
      obtain ⟨buf₁, s, hrecv, hbuf₁, -⟩ := recvMsg_silent hserver hfill
        (Nat.lt_of_succ_le ((le_max_right _ _).trans hlimit))
      obtain ⟨buf', hbuf', hrest⟩ := hN limit ((le_max_left _ _).trans hlimit) buf₁ hbuf₁
      refine ⟨buf', hbuf', ?_⟩
      rw [markLoop, if_pos hq, List.filter_cons_of_pos (by simpa using hq), List.map_cons]
      simp only [hrecv, Option.bind_eq_bind, Option.bind_some, hrest, List.append_assoc,
        List.singleton_append]
    · obtain ⟨N, hN⟩ := ih sent
      refine ⟨N, fun limit hlimit buf hbuf => ?_⟩
      rw [markLoop, if_neg hq, List.filter_cons_of_neg (by simpa using hq)]
      exact hN limit hlimit buf hbuf

/-- The cells of the queens, in the order in which they are sent. -/
def queenCells (table : Table) : List (Cell maxN) :=
  allCells.filter fun p => table.at p.1 p.2 = queen

theorem queenCells_toFinset (table : Table) : (queenCells table).toFinset = table.queens := by
  ext p
  have hall : p ∈ allCells :=
    List.mem_product.mpr ⟨List.mem_finRange p.1, List.mem_finRange p.2⟩
  rw [List.mem_toFinset, mem_queens]
  unfold queenCells
  simp [hall]

theorem queenCells_nodup (table : Table) : (queenCells table).Nodup :=
  ((List.nodup_finRange maxN).product (List.nodup_finRange maxN)).filter _

/-- What is sent: the queens of the board that `solveNQueen` leaves. -/
theorem main_sends (hserver : Serves t server)
    (hcells : ∀ x y, t.at x y = dot ∨ t.at x y = queen) :
    ∃ N, ∀ limit, N ≤ limit → ∀ buf, buf.length = maxMsg → main limit server buf =
      some ([ascii "P\n"] ++
        (queenCells (solveNQueen (markQueens t) 0).2.table).map markMsg ++ [ascii "C\n"]) := by
  generalize htable : (solveNQueen (markQueens t) 0).2.table = table
  obtain ⟨N, hN⟩ := markLoop_sends hserver table allCells [ascii "P\n"]
  let sent := [ascii "P\n"] ++ (queenCells table).map markMsg ++ [ascii "C\n"]
  obtain ⟨text, htext, hshows⟩ := hserver.shows
  refine ⟨max N (max 2 ((server sent).chunks.length + 1)), fun limit hlimit buf hbuf => ?_⟩
  have hprint : (server [ascii "P\n"]).chunks.length < limit := by
    rw [htext, List.length_singleton]
    omega
  have hcheck : (server sent).chunks.length < limit := by omega
  obtain ⟨buf₁, s₁, hrecv₁, hbuf₁, hread⟩ := recvMsg_silent hserver hbuf hprint
  have hboard : tableOf (parseBoard buf₁) = some t := by
    rw [parseBoard_shows hcells hshows (hread text htext), tableOf_rows]
  obtain ⟨buf₂, hbuf₂, hloop⟩ := hN limit (by omega) buf₁ hbuf₁
  obtain ⟨buf₃, s₃, hrecv₃, -, -⟩ := recvMsg_silent hserver hbuf₂ hcheck
  unfold main
  refine Option.bind_eq_some_iff.mpr ⟨_, hrecv₁, ?_⟩
  refine Option.bind_eq_some_iff.mpr ⟨_, hboard, ?_⟩
  rw [htable]
  refine Option.bind_eq_some_iff.mpr ⟨_, hloop, ?_⟩
  exact Option.bind_eq_some_iff.mpr ⟨_, hrecv₃, rfl⟩

/-- What `solveNQueen` leaves when it succeeds. -/
theorem solved_placement (hfair : (markQueens t).Fair) (htable : (markQueens t).table = t)
    (hok : (solveNQueen (markQueens t) 0).1 = true) : ∃ P : Placement maxN,
      P.cells = (solveNQueen (markQueens t) 0).2.table.queens ∧ t.queens ⊆ P.cells := by
  obtain ⟨hkeep, hrows⟩ := solveNQueen_keeps 0 _ hfair.blank hok
  have hgiven : t.queens ⊆ (solveNQueen (markQueens t) 0).2.table.queens := fun p hp =>
    mem_queens.mpr (hkeep.queens p.1 p.2 (htable.symm ▸ mem_queens.mp hp))
  have hfair' := solveNQueen_fair 0 _ hfair hok
  obtain ⟨P, hP⟩ := (hfair'.solved (fun x => hrows x (Nat.zero_le _)) hgiven).placement
  exact ⟨P, hP, hP ▸ hgiven⟩

/-- **A game against a server that shows its table**: each queen of the solved board is marked,
    once, and then all is checked. If a placement contains the queens given, those marked are one.
    If none does, the queens given are marked where they are, and the table keeps its queens. -/
theorem main_plays (hserver : Serves t server)
    (hcells : ∀ x y, t.at x y = dot ∨ t.at x y = queen)
    (hpeace : Peaceful (t.queens : Set (Cell maxN))) :
    ∃ N cells, cells.Nodup ∧
      (∀ limit, N ≤ limit → ∀ buf, buf.length = maxMsg → main limit server buf =
        some ([ascii "P\n"] ++ cells.map markMsg ++ [ascii "C\n"])) ∧
      ((∃ P : Placement maxN, t.queens ⊆ P.cells) → ∃ P : Placement maxN, t.queens ⊆ P.cells ∧
        cells.toFinset = P.cells ∧ (play t cells).queens = P.cells) ∧
      ((¬ ∃ P : Placement maxN, t.queens ⊆ P.cells) →
        cells.toFinset = t.queens ∧ (play t cells).queens = t.queens) := by
  obtain ⟨hfair, htable⟩ := markQueens_fair hcells hpeace
  obtain ⟨N, hsends⟩ := main_sends hserver hcells
  refine ⟨N, _, queenCells_nodup _, hsends, ?_, ?_⟩
  · intro ⟨P, hP⟩
    have hok : (solveNQueen (markQueens t) 0).1 = true := by
      by_contra hfail
      rw [← htable] at hP
      exact solveNQueen_complete 0 _ hfair (Bool.not_eq_true _ ▸ hfail) P hP
    obtain ⟨Q, hQ, hgiven⟩ := solved_placement hfair htable hok
    refine ⟨Q, hgiven, by rw [queenCells_toFinset, hQ], ?_⟩
    rw [play_queens hcells, queenCells_toFinset, ← hQ, Finset.union_eq_right]
    exact hgiven
  · intro hnone
    have hfail : (solveNQueen (markQueens t) 0).1 = false := by
      rw [← Bool.not_eq_true]
      intro hok
      obtain ⟨Q, -, hgiven⟩ := solved_placement hfair htable hok
      exact hnone ⟨Q, hgiven⟩
    rw [play_queens hcells, queenCells_toFinset, solveNQueen_restores 0 _ hfair.blank hfail, htable]
    exact ⟨rfl, Finset.union_self _⟩

/-- No queens yet. -/
def noneGiven : Table := .replicate maxN (.replicate maxN dot)

/-- A server that answers each command with that table. -/
def echo : QueenServer := fun _ => ⟨[unlines 10 noneGiven.rows], .timeout⟩

theorem noneGiven_at (x y : Fin maxN) : noneGiven.at x y = dot := by
  simp [noneGiven, Table.at, Vector.get_eq_getElem]

theorem echo_serves : Serves noneGiven echo where
  silent _ := rfl
  pieces sent c hc := by
    obtain rfl : c = unlines 10 noneGiven.rows := List.mem_singleton.mp hc
    decide +kernel
  shows := ⟨_, rfl, by unfold Shows; decide +kernel⟩

theorem main_plays_noneGiven : ∃ (N : Nat) (cells : List (Cell maxN)) (P : Placement maxN),
    cells.Nodup ∧ cells.toFinset = P.cells ∧ main N echo (List.replicate maxMsg 0) =
      some ([ascii "P\n"] ++ cells.map markMsg ++ [ascii "C\n"]) := by
  have hcells : ∀ x y, noneGiven.at x y = dot ∨ noneGiven.at x y = queen := fun x y =>
    .inl (noneGiven_at x y)
  have hnone : noneGiven.queens = ∅ := Finset.eq_empty_of_forall_notMem fun p hp => by
    rw [mem_queens, noneGiven_at] at hp
    cases hp
  have hpeace : Peaceful (noneGiven.queens : Set (Cell maxN)) := by
    rw [hnone, Finset.coe_empty]
    exact Set.pairwise_empty _
  obtain ⟨N, cells, hnodup, hrun, hplaced, -⟩ := main_plays echo_serves hcells hpeace
  obtain ⟨P, -, hcells, -⟩ := hplaced ⟨stairsPlacement, hnone ▸ Finset.empty_subset _⟩
  exact ⟨N, cells, P, hnodup, hcells, hrun N le_rfl _ List.length_replicate⟩

end Run

end InpLabs.Queen
