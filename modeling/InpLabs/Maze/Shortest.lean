/-
  File:      InpLabs/Maze/Shortest.lean
  Subject:   **A* finds a shortest way out, or says that there is none.**

  * `cell`, `Free`, `Adj`: what a maze says about a position, and the steps it allows;
  * `replay`: a string of moves, from a position on; the specification, apart from the search;
  * `Search.Inv`: the invariant of the main loop, as a `Frontier`;
  * `Search.loop_returns`: the loop ends, after enough passes, with an answer that is right;
  * `solveMazeWithAStar_correct`: so does the function, on every rectangular maze.
-/
import InpLabs.Lib.BestFirst
import InpLabs.Lib.Follow
import InpLabs.Maze.Solver

namespace InpLabs.Maze

open InpLabs.Lib Python

/-! ## 1. Mazes and moves -/

/-- The character at a position of the maze. -/
def cell (maze : Grid) (p : Pos) : Option Char :=
  if 0 ≤ p.1 ∧ 0 ≤ p.2 then (maze[p.2.toNat]?).bind (·[p.1.toNat]?) else none

/-- In the maze and no wall. -/
def Free (maze : Grid) (p : Pos) : Prop := ∃ c, cell maze p = some c ∧ c ≠ '#'

/-- One step up, down, left or right, to a free position. -/
def Adj (maze : Grid) (p q : Pos) : Prop :=
  (p.1 - q.1).natAbs + (p.2 - q.2).natAbs = 1 ∧ Free maze q

/-- The position a move leads to. -/
def target (p : Pos) (move : Char) : Option Pos :=
  if move = 'W' then some (p.1, p.2 - 1)
  else if move = 'S' then some (p.1, p.2 + 1)
  else if move = 'A' then some (p.1 - 1, p.2)
  else if move = 'D' then some (p.1 + 1, p.2)
  else none

instance (maze : Grid) (p : Pos) : Decidable (Free maze p) :=
  match h : cell maze p with
  | some c => decidable_of_iff (c ≠ '#') (by simp [Free, h])
  | none => isFalse (by simp [Free, h])

/-- The position after a string of moves, if each of them leads to a free one. -/
def replay (maze : Grid) (p : Pos) (moves : List Char) : Option Pos :=
  follow target (Free maze) p moves

section Grid

variable {maze : Grid} {width : Nat} {p q v : Pos} {moves : List Char}

theorem cell_isSome (hrect : Rectangular maze width) :
    (∃ c, cell maze p = some c) ↔ (0 ≤ p.1 ∧ p.1 < width) ∧ 0 ≤ p.2 ∧ p.2 < maze.length := by
  unfold cell
  constructor
  · intro hcell
    obtain ⟨c, hc⟩ := hcell
    split_ifs at hc with h0
    obtain ⟨row, hrow, hc⟩ := Option.bind_eq_some_iff.mp hc
    obtain ⟨hy, rfl⟩ := List.getElem?_eq_some_iff.mp hrow
    obtain ⟨hx, -⟩ := List.getElem?_eq_some_iff.mp hc
    have hlen := hrect _ (List.getElem_mem hy)
    omega
  · intro ⟨hx, hy⟩
    have hrow : p.2.toNat < maze.length := by omega
    have hlen := hrect _ (List.getElem_mem hrow)
    have hcol : p.1.toNat < maze[p.2.toNat].length := by omega
    refine ⟨maze[p.2.toNat][p.1.toNat], ?_⟩
    rw [if_pos ⟨hx.1, hy.1⟩, List.getElem?_eq_getElem hrow, Option.bind_some,
      List.getElem?_eq_getElem hcol]

/-- Two subscripts read a cell. -/
theorem read_cell {c : Char} (hc : cell maze p = some c) :
    ∃ row, index maze p.2 = .ok row ∧ index row p.1 = .ok c := by
  unfold cell at hc
  split_ifs at hc with h0
  obtain ⟨row, hrow, hc⟩ := Option.bind_eq_some_iff.mp hc
  exact ⟨row, index_of_get? h0.2 hrow, index_of_get? h0.1 hc⟩

theorem Adj.moveChar (h : Adj maze p q) :
    ∃ c, moveChar p q = [c] ∧ target p c = some q ∧ c ∈ ['W', 'A', 'S', 'D'] := by
  obtain ⟨hd, -⟩ := h
  obtain ⟨x, y⟩ := p
  obtain ⟨x', y'⟩ := q
  simp only at hd
  have hcases : (x' = x + 1 ∧ y' = y) ∨ (x' = x - 1 ∧ y' = y) ∨ (x' = x ∧ y' = y + 1) ∨
      (x' = x ∧ y' = y - 1) := by omega
  rcases hcases with ⟨rfl, rfl⟩ | ⟨rfl, rfl⟩ | ⟨rfl, rfl⟩ | ⟨rfl, rfl⟩
  · exact ⟨'D', by simp [Maze.moveChar], by simp [target], by decide⟩
  · exact ⟨'A', by simp [Maze.moveChar], by simp [target], by decide⟩
  · exact ⟨'S', by simp [Maze.moveChar], by simp [target], by decide⟩
  · exact ⟨'W', by simp [Maze.moveChar], by simp [target], by decide⟩

theorem adj_of_target {c : Char} (h : target p c = some q) (hq : Free maze q) : Adj maze p q := by
  refine ⟨?_, hq⟩
  unfold target at h
  split_ifs at h <;> cases h <;> simp only <;> omega

/-- What is replayed is a walk. -/
theorem walk_of_replay {start : Pos} {n : Nat} (hw : Walk (Adj maze) start n p)
    (h : replay maze p moves = some q) : Walk (Adj maze) start (n + moves.length) q := by
  induction moves generalizing n p with
  | nil =>
    cases h
    exact hw
  | cons c moves ih =>
    obtain ⟨v, ht, hfree, h⟩ := follow_cons_iff.mp h
    have hadj := adj_of_target ht hfree
    rw [List.length_cons, Nat.add_comm moves.length, ← Nat.add_assoc]
    exact ih (hw.snoc hadj) h

/-- The moves of a path of steps lead from its first position to its last. -/
theorem replay_movesOf {path : List Pos} (hchain : (p :: path).IsChain (Adj maze))
    (hlast : (p :: path).getLast? = some q) :
    replay maze p (movesOf (p :: path)) = some q ∧
      (movesOf (p :: path)).length = path.length ∧
      ∀ c ∈ movesOf (p :: path), c ∈ ['W', 'A', 'S', 'D'] := by
  induction path generalizing p with
  | nil =>
    cases hlast
    exact ⟨rfl, rfl, fun _ h => absurd h List.not_mem_nil⟩
  | cons v path ih =>
    obtain ⟨hadj, hrest⟩ := List.isChain_cons_cons.mp hchain
    rw [List.getLast?_cons_cons] at hlast
    obtain ⟨hreplay, hlen, hmem⟩ := ih hrest hlast
    obtain ⟨c, hc, ht, hw⟩ := hadj.moveChar
    have hmoves : movesOf (p :: v :: path) = c :: movesOf (v :: path) := by
      rw [movesOf, hc]
      rfl
    rw [hmoves]
    refine ⟨(follow_cons ht hadj.2).trans hreplay, congrArg Nat.succ hlen, ?_⟩
    exact List.forall_mem_cons.mpr ⟨hw, hmem⟩

/-- The Manhattan distance changes by one at most along a step. -/
theorem heuristic_consistent (exit : Pos) : Consistent (Adj maze) (heuristic exit) := by
  intro u v ⟨hd, _⟩
  unfold heuristic
  omega

end Grid

/-! ## 2. Neighbours -/

section Neighbors

variable {maze : Grid} {width : Nat} {p q : Pos}

theorem neighborAt_ok (hrect : Rectangular maze width) (d : Int × Int) :
    ∃ ns, neighborAt maze width maze.length p d = .ok ns ∧
      ∀ q, q ∈ ns ↔ q = (p.1 + d.1, p.2 + d.2) ∧ Free maze q := by
  unfold neighborAt
  by_cases hin : 0 ≤ p.1 + d.1 ∧ p.1 + d.1 < width ∧ 0 ≤ p.2 + d.2 ∧ p.2 + d.2 < maze.length
  · obtain ⟨c, hc⟩ := (cell_isSome hrect (p := (p.1 + d.1, p.2 + d.2))).mpr
      ⟨⟨hin.1, hin.2.1⟩, hin.2.2⟩
    obtain ⟨row, hrow, hcol⟩ := read_cell hc
    refine ⟨if c ≠ '#' then [(p.1 + d.1, p.2 + d.2)] else [], ?_, fun q => ?_⟩
    · simp only at hrow hcol
      simp only [if_pos hin, hrow, ok_bind, hcol, pure_eq_ok]
    split_ifs with hwall
    · rw [List.mem_singleton]
      exact ⟨fun h => ⟨h, h ▸ ⟨c, hc, hwall⟩⟩, And.left⟩
    · refine ⟨fun h => absurd h List.not_mem_nil, ?_⟩
      intro hadj
      obtain ⟨rfl, c', hc', hne⟩ := hadj
      rw [hc] at hc'
      cases hc'
      exact absurd hne hwall
  · refine ⟨[], by simp only [if_neg hin]; rfl, fun q => ?_⟩
    refine ⟨fun h => absurd h List.not_mem_nil, ?_⟩
    intro hadj
    obtain ⟨rfl, c, hc, -⟩ := hadj
    obtain ⟨hx, hy⟩ := (cell_isSome hrect).mp ⟨c, hc⟩
    exact absurd ⟨hx.1, hx.2, hy⟩ hin

/-- `get_neighbors` returns the positions one step away. -/
theorem getNeighbors_ok (hrect : Rectangular maze width) (p : Pos) :
    ∃ ns, getNeighbors maze width maze.length p = .ok ns ∧ ∀ q, q ∈ ns ↔ Adj maze p q := by
  obtain ⟨n1, h1, m1⟩ := neighborAt_ok hrect (p := p) (0, 1)
  obtain ⟨n2, h2, m2⟩ := neighborAt_ok hrect (p := p) (0, -1)
  obtain ⟨n3, h3, m3⟩ := neighborAt_ok hrect (p := p) (1, 0)
  obtain ⟨n4, h4, m4⟩ := neighborAt_ok hrect (p := p) (-1, 0)
  refine ⟨n1 ++ (n2 ++ (n3 ++ n4)), ?_, fun q => ?_⟩
  · simp only [getNeighbors, offsets, List.mapM_cons, List.mapM_nil, h1, h2, h3, h4]
    simp only [ok_bind, pure_eq_ok, List.flatten_cons, List.flatten_nil, List.append_nil]
  · simp only [List.mem_append, m1, m2, m3, m4, Adj, ← or_and_right, Prod.ext_iff]
    refine and_congr_left fun _ => ?_
    omega

end Neighbors

/-! ## 3. The heap -/

section Heap

variable {e m : Nat × Pos} {entries rest : List (Nat × Pos)}

theorem priority_le_of_before (h : before e m = true) : e.1 ≤ m.1 := by
  have := of_decide_eq_true h
  omega

theorem priority_le_of_not_before (h : ¬ before e m = true) : m.1 ≤ e.1 := by
  unfold before at h
  rw [decide_eq_true_eq] at h
  omega

theorem least_spec (e : Nat × Pos) (entries : List (Nat × Pos)) :
    least e entries ∈ e :: entries ∧ ∀ x ∈ e :: entries, (least e entries).1 ≤ x.1 := by
  induction entries generalizing e with
  | nil =>
    refine ⟨List.mem_cons_self, fun x hx => ?_⟩
    rw [List.mem_singleton.mp hx]
    exact Nat.le_refl _
  | cons x entries ih =>
    have hcons : least e (x :: entries) = least (if before x e then x else e) entries := rfl
    rw [hcons]
    obtain ⟨hmem, hmin⟩ := ih (if before x e then x else e)
    obtain ⟨hhead, htail⟩ := List.forall_mem_cons.mp hmin
    by_cases hb : before x e = true
    · rw [if_pos hb] at hmem hhead htail ⊢
      have he := Nat.le_trans hhead (priority_le_of_before hb)
      exact ⟨List.mem_cons_of_mem _ hmem,
        List.forall_mem_cons.mpr ⟨he, List.forall_mem_cons.mpr ⟨hhead, htail⟩⟩⟩
    · rw [if_neg hb] at hmem hhead htail ⊢
      have hx := Nat.le_trans hhead (priority_le_of_not_before hb)
      refine ⟨?_, List.forall_mem_cons.mpr ⟨hhead, List.forall_mem_cons.mpr ⟨hx, htail⟩⟩⟩
      rcases List.mem_cons.mp hmem with hm | hm
      · rw [hm]
        exact List.mem_cons_self
      · exact List.mem_cons_of_mem _ (List.mem_cons_of_mem _ hm)

/-- `heappop` takes out one entry, of least priority. -/
theorem heappop_spec (h : heappop entries = some (e, rest)) :
    e ∈ entries ∧ (∀ x ∈ entries, e.1 ≤ x.1) ∧ rest = entries.erase e := by
  cases entries with
  | nil => cases h
  | cons x entries =>
    cases h
    obtain ⟨hmem, hmin⟩ := least_spec x entries
    exact ⟨hmem, hmin, rfl⟩

theorem heappop_none (h : heappop entries = none) : entries = [] := by
  cases entries with
  | nil => rfl
  | cons x entries => cases h

end Heap

/-! ## 4. The search -/

/-- The invariant of the main loop. -/
def Search.Inv (maze : Grid) (start exit : Pos) (todo : Pos → Pos → Prop) (s : Search) : Prop :=
  Frontier (Adj maze) (heuristic exit) start todo {e | e ∈ s.openList} s.closedList s.cost s.parent

section Search

variable {maze : Grid} {width : Nat} {start exit current v : Pos} {s : Search}
  {todo : Pos → Pos → Prop}

theorem start_inv : (Search.start start).Inv maze start exit (fun _ _ => False) := by
  have hinit : Frontier (Adj maze) (heuristic exit) start _ _ _ _ _ :=
    Frontier.init (fun _ _ => False) start (Nat.zero_le (heuristic exit start))
  unfold Search.Inv Search.start
  simpa only [List.mem_singleton, Finset.coe_empty, Set.ofPred_eq_eq_singleton] using hinit

/-- A vertex with a cost is closed or in the open list. -/
theorem Search.Inv.queued (hs : s.Inv maze start exit todo) {g : Nat} (hg : s.cost v = some g)
    (hv : v ∉ s.closedList) : v ∈ s.openList.map Prod.snd := by
  obtain ⟨p, -, hmem⟩ := (Frontier.queued hs v g hg).resolve_left hv
  exact List.mem_map.mpr ⟨(p, v), hmem, rfl⟩

/-- One pass of the loop over the neighbours keeps the invariant and is done with its edge. -/
theorem relax_inv (hs : s.Inv maze start exit todo) (hc : current ∈ s.closedList)
    (hadj : Adj maze current v) {todo' : Pos → Pos → Prop}
    (htodo : ∀ u w, todo u w → todo' u w ∨ (u = current ∧ w = v)) :
    ∃ t, s.relax exit current v = .ok t ∧ t.Inv maze start exit todo' ∧
      t.closedList = s.closedList := by
  obtain ⟨g, hg⟩ := hs.closed_cost current hc
  unfold Search.relax
  by_cases hv : v ∈ s.closedList
  · rw [if_pos hv]
    exact ⟨s, rfl, hs.skip hc hg htodo (hs.closed_no_better hg hadj hv), rfl⟩
  have hpush : (∀ g', s.cost v = some g' → g + 1 < g') →
      (s.push exit current v (g + 1)).Inv maze start exit todo' := fun hbetter => by
    have himp := hs.improve hc hg htodo hadj hv hbetter
    unfold Search.Inv Search.push heappush
    simpa only [List.mem_cons, Set.insert_def, Set.mem_ofPred_eq] using himp
  simp only [if_neg hv, lookup_of_some hg, ok_bind]
  by_cases hopen : v ∉ s.openList.map Prod.snd
  · -- neither closed nor open: seen for the first time
    rw [if_pos hopen]
    exact ⟨_, rfl, hpush fun g' hg' => absurd (hs.queued hg' hv) hopen, rfl⟩
  · rw [if_neg hopen]
    obtain ⟨e, he, rfl⟩ := List.mem_map.mp (not_not.mp hopen)
    obtain ⟨g', hg', -⟩ := hs.entry e.1 e.2 he
    simp only [lookup_of_some hg', ok_bind]
    by_cases hlt : g + 1 < g'
    · rw [if_pos hlt]
      refine ⟨_, rfl, hpush fun g'' hg'' => ?_, rfl⟩
      rw [hg'] at hg''
      cases hg''
      exact hlt
    · rw [if_neg hlt]
      exact ⟨s, rfl, hs.skip hc hg htodo ⟨g', hg', Nat.not_lt.mp hlt⟩, rfl⟩

/-- A vertex whose edges have been looked at changes nothing when it is looked at again. -/
theorem relax_again (hs : s.Inv maze start exit (fun _ _ => False)) (hc : current ∈ s.closedList)
    (hadj : Adj maze current v) : s.relax exit current v = .ok s := by
  obtain ⟨g, hg⟩ := hs.closed_cost current hc
  obtain ⟨g', hg', hle⟩ := hs.relaxed current hc v hadj not_false g hg
  unfold Search.relax
  by_cases hv : v ∈ s.closedList
  · rw [if_pos hv]
    rfl
  · have hopen : ¬ v ∉ s.openList.map Prod.snd := not_not.mpr (hs.queued hg' hv)
    simp only [if_neg hv, lookup_of_some hg, ok_bind, if_neg hopen, lookup_of_some hg',
      if_neg (Nat.not_lt.mpr hle), pure_eq_ok]

/-- The loop over the neighbours, of which `ns` are left. -/
theorem relax_all {ns : List Pos} (hs : s.Inv maze start exit fun u w => u = current ∧ w ∈ ns)
    (hc : current ∈ s.closedList) (hns : ∀ w ∈ ns, Adj maze current w) :
    ∃ t, ns.foldlM (Search.relax exit current) s = .ok t ∧
      t.Inv maze start exit (fun _ _ => False) ∧ t.closedList = s.closedList := by
  induction ns generalizing s with
  | nil => exact ⟨s, rfl, hs.mono fun _ _ _ _ h => List.not_mem_nil h.2, rfl⟩
  | cons w ns ih =>
    obtain ⟨hadj, hns⟩ := List.forall_mem_cons.mp hns
    have hrest : ∀ u w', u = current ∧ w' ∈ w :: ns →
        (u = current ∧ w' ∈ ns) ∨ (u = current ∧ w' = w) := by
      intro u w' huw
      obtain ⟨hu, hw⟩ := huw
      rcases List.mem_cons.mp hw with rfl | hw
      · exact .inr ⟨hu, rfl⟩
      · exact .inl ⟨hu, hw⟩
    obtain ⟨t, ht, hinv, hclosed⟩ := relax_inv hs hc hadj hrest
    obtain ⟨r, hr, hinv', hclosed'⟩ := ih hinv (hclosed ▸ hc) hns
    refine ⟨r, ?_, hinv', hclosed'.trans hclosed⟩
    rw [List.foldlM_cons, ht, ok_bind]
    exact hr

/-- Taking out a least entry, closing its vertex and looking at its neighbours. A vertex that was
    closed before puts nothing into the open list. -/
theorem expand_inv (hrect : Rectangular maze width) (hs : s.Inv maze start exit fun _ _ => False)
    {p : Nat} {rest : List (Nat × Pos)} (hpop : heappop s.openList = some ((p, current), rest)) :
    ∃ t, Search.expand maze width maze.length exit current { s with openList := rest } = .ok t ∧
      t.Inv maze start exit (fun _ _ => False) ∧ t.closedList = insert current s.closedList ∧
      (current ∈ s.closedList → t.openList = rest) := by
  obtain ⟨hmem, hmin, rfl⟩ := heappop_spec hpop
  obtain ⟨ns, hns, hadj⟩ := getNeighbors_ok hrect current
  have hsub : {e | e ∈ s.openList.erase (p, current)} ⊆ {e | e ∈ s.openList} := fun _ =>
    List.mem_of_mem_erase
  have hkeep : ∀ e ∈ s.openList, e.2 ≠ current → e ∈ s.openList.erase (p, current) :=
    fun e he hne => (List.mem_erase_of_ne fun heq => hne (congrArg Prod.snd heq)).mpr he
  unfold Search.expand
  rw [hns, ok_bind]
  by_cases hc : current ∈ s.closedList
  · have hinv : Search.Inv maze start exit (fun _ _ => False)
        { s with openList := s.openList.erase (p, current) } := hs.drop hc hsub hkeep
    have hfold : ∀ l : List Pos, (∀ w ∈ l, Adj maze current w) →
        l.foldlM (Search.relax exit current) { s with openList := s.openList.erase (p, current) } =
          .ok { s with openList := s.openList.erase (p, current) } := by
      intro l hl
      induction l with
      | nil => rfl
      | cons w l ih =>
        obtain ⟨hw, hl⟩ := List.forall_mem_cons.mp hl
        rw [List.foldlM_cons, relax_again hinv hc hw, ok_bind, ih hl]
    refine ⟨{ s with openList := s.openList.erase (p, current) }, ?_, hinv,
      (Finset.insert_eq_of_mem hc).symm, fun _ => rfl⟩
    rw [Finset.insert_eq_of_mem hc]
    exact hfold ns fun w hw => (hadj w).mp hw
  · have hinv : Search.Inv maze start exit (fun u w => u = current ∧ w ∈ ns)
        { s with
          openList := s.openList.erase (p, current)
          closedList := insert current s.closedList } := by
      have hset := hs.settle (heuristic_consistent exit) hmem hmin hsub hkeep
      unfold Search.Inv
      rw [Finset.coe_insert]
      exact hset.mono fun u _ v hv hu => ⟨hu, (hadj v).mpr (hu ▸ hv)⟩
    obtain ⟨t, ht, hinv', hclosed⟩ := relax_all hinv (Finset.mem_insert_self _ _)
      fun w hw => (hadj w).mp hw
    exact ⟨t, ht, hinv', hclosed, fun h => absurd h hc⟩

/-- The walk back from a vertex with a cost reaches the start, after as many steps as it costs. -/
theorem tracePath_ok (hs : s.Inv maze start exit todo) {g : Nat} (hg : s.cost v = some g) :
    ∃ path, (start :: path).IsChain (Adj maze) ∧ (start :: path).getLast? = some v ∧
      path.length = g ∧ ∀ limit rest, g ≤ limit →
        tracePath start s.parent limit (v :: rest) = .ok (some (start :: path ++ rest)) := by
  induction g generalizing v with
  | zero =>
    rcases hs.back v 0 hg with ⟨rfl, -⟩ | ⟨u, g', -, -, -, -, hg'⟩
    · refine ⟨[], List.isChain_singleton _, rfl, rfl, fun limit rest _ => ?_⟩
      cases limit <;> exact if_pos rfl
    · cases hg'
  | succ g ih =>
    rcases hs.back v (g + 1) hg with ⟨-, h0⟩ | ⟨u, g', hpar, -, hu, hadj, hg'⟩
    · cases h0
    · cases hg'
      obtain ⟨path, hchain, hlast, hlen, htrace⟩ := ih hu
      have hne : v ≠ start := by
        intro heq
        subst heq
        rw [hs.start_cost] at hg
        cases hg
      refine ⟨path ++ [v], ?_, ?_, ?_, fun limit rest hlimit => ?_⟩
      · rw [← List.cons_append, List.isChain_append]
        refine ⟨hchain, List.isChain_singleton _, fun x hx y hy => ?_⟩
        rw [hlast] at hx
        cases hx
        cases hy
        exact hadj
      · rw [← List.cons_append, List.getLast?_append]
        rfl
      · rw [List.length_append, hlen]
        rfl
      · obtain ⟨l, rfl⟩ := Nat.exists_eq_add_of_le' (Nat.le_trans (Nat.le_add_left 1 g) hlimit)
        have hstep : tracePath start s.parent (l + 1) (v :: rest) =
            tracePath start s.parent l (u :: v :: rest) := by
          rw [tracePath, if_neg hne, lookup_of_some hpar, ok_bind]
        rw [hstep, htrace l (v :: rest) (Nat.le_of_succ_le_succ hlimit), List.cons_append,
          List.cons_append, List.append_assoc]
        rfl

end Search

/-! ## 5. The start and the exit -/

section Marks

variable {maze : Grid} {width : Nat} {start exit : Pos}

/-- The position a pass of the loops looks at. -/
def posOf (q : Nat × Nat) : Pos := (q.2, q.1)

theorem findMark_ok (hrect : Rectangular maze width)
    (hstart : ∀ p, cell maze p = some '*' ↔ p = start)
    (hexit : ∀ p, cell maze p = some 'E' ↔ p = exit) (marks : Option Pos × Option Pos)
    {q : Nat × Nat} (hq : q.1 < maze.length ∧ q.2 < width) :
    findMark maze marks q = .ok (if posOf q = start then some start else marks.1,
      if posOf q = exit then some exit else marks.2) := by
  obtain ⟨c, hc⟩ := (cell_isSome hrect (p := posOf q)).mpr (by simp only [posOf]; omega)
  obtain ⟨row, hrow, hcol⟩ := read_cell hc
  unfold findMark
  simp only [posOf] at hrow hcol
  simp only [hrow, hcol, ok_bind, pure_eq_ok, ← hstart (posOf q), ← hexit (posOf q), hc,
    Option.some.injEq]
  by_cases h1 : c = '*'
  · have h2 : c ≠ 'E' := by
      rw [h1]
      decide
    have hs : posOf q = start := (hstart _).mp (h1 ▸ hc)
    simp only [if_pos h1, if_neg h2, ← hs, posOf]
  · by_cases h2 : c = 'E'
    · have he : posOf q = exit := (hexit _).mp (h2 ▸ hc)
      simp only [if_neg h1, if_pos h2, ← he, posOf]
    · simp only [if_neg h1, if_neg h2]

theorem foldlM_findMark (hrect : Rectangular maze width)
    (hstart : ∀ p, cell maze p = some '*' ↔ p = start)
    (hexit : ∀ p, cell maze p = some 'E' ↔ p = exit) (marks : Option Pos × Option Pos)
    {qs : List (Nat × Nat)} (hqs : ∀ q ∈ qs, q.1 < maze.length ∧ q.2 < width) :
    qs.foldlM (findMark maze) marks = .ok (if start ∈ qs.map posOf then some start else marks.1,
      if exit ∈ qs.map posOf then some exit else marks.2) := by
  induction qs generalizing marks with
  | nil => rfl
  | cons q qs ih =>
    obtain ⟨hq, hqs⟩ := List.forall_mem_cons.mp hqs
    rw [List.foldlM_cons, findMark_ok hrect hstart hexit marks hq, ok_bind, ih _ hqs]
    simp only [List.map_cons, List.mem_cons, eq_comm (a := posOf q)]
    congr 2
    · by_cases h : start ∈ qs.map posOf <;> simp [h]
    · by_cases h : exit ∈ qs.map posOf <;> simp [h]

/-- In a rectangular maze with one `*` and one `E` the loops find them. -/
theorem findMarks_ok (hrect : Rectangular maze width)
    (hstart : ∀ p, cell maze p = some '*' ↔ p = start)
    (hexit : ∀ p, cell maze p = some 'E' ↔ p = exit) :
    findMarks maze width maze.length = .ok (some start, some exit) := by
  have hmem : ∀ p, (∃ c, cell maze p = some c) →
      p ∈ ((List.range maze.length).product (List.range width)).map posOf := by
    intro p hp
    obtain ⟨hx, hy⟩ := (cell_isSome hrect).mp hp
    refine List.mem_map.mpr ⟨(p.2.toNat, p.1.toNat), List.mem_product.mpr ?_, ?_⟩
    · exact ⟨List.mem_range.mpr (by omega), List.mem_range.mpr (by omega)⟩
    · exact Prod.ext (Int.toNat_of_nonneg hx.1) (Int.toNat_of_nonneg hy.1)
  have hqs : ∀ q ∈ (List.range maze.length).product (List.range width),
      q.1 < maze.length ∧ q.2 < width := by
    intro q hq
    obtain ⟨hy, hx⟩ := List.mem_product.mp hq
    exact ⟨List.mem_range.mp hy, List.mem_range.mp hx⟩
  unfold findMarks
  rw [foldlM_findMark hrect hstart hexit _ hqs, if_pos (hmem start ⟨_, (hstart start).mpr rfl⟩),
    if_pos (hmem exit ⟨_, (hexit exit).mpr rfl⟩)]

end Marks

/-! ## 6. The answer -/

/-- The answer is a shortest string of moves to the exit, and a newline; or there is no way. -/
structure Shortest (maze : Grid) (start exit : Pos) (a : Answer) : Prop where
  reached : Relation.ReflTransGen (Adj maze) start exit →
    ∃ ms, a = .moves (ms ++ ['\n']) ∧ (∀ c ∈ ms, c ∈ ['W', 'A', 'S', 'D']) ∧
      replay maze start ms = some exit ∧
      ∀ ms', replay maze start ms' = some exit → ms.length ≤ ms'.length
  blocked : ¬ Relation.ReflTransGen (Adj maze) start exit → a = .nothing

/-- The positions of the maze. -/
def cells (maze : Grid) (width : Nat) : Finset Pos :=
  (Finset.range maze.length ×ˢ Finset.range width).image posOf

section Loop

variable {maze : Grid} {width : Nat} {start exit : Pos}

theorem mem_cells (hrect : Rectangular maze width) {p : Pos} (hp : ∃ c, cell maze p = some c) :
    p ∈ cells maze width := by
  obtain ⟨hx, hy⟩ := (cell_isSome hrect).mp hp
  refine Finset.mem_image.mpr ⟨(p.2.toNat, p.1.toNat), Finset.mem_product.mpr ?_, ?_⟩
  · exact ⟨Finset.mem_range.mpr (by omega), Finset.mem_range.mpr (by omega)⟩
  · exact Prod.ext (Int.toNat_of_nonneg hx.1) (Int.toNat_of_nonneg hy.1)

theorem free_of_walk (hstart : Free maze start) {n : Nat} {p : Pos}
    (hw : Walk (Adj maze) start n p) : Free maze p := by
  cases hw with
  | nil => exact hstart
  | snoc _ hadj => exact hadj.2

/-- When the exit has a least entry, the way back is a shortest one. -/
theorem exit_shortest {s : Search} (hs : s.Inv maze start exit fun _ _ => False) {p : Nat}
    (hmem : (p, exit) ∈ s.openList) (hmin : ∀ e ∈ s.openList, p ≤ e.1) :
    ∃ N a, Shortest maze start exit a ∧ ∀ limit, N ≤ limit →
      tracePath start s.parent limit [exit] >>= (fun path =>
        pure (path.map fun path => Answer.moves (pathToMoves path))) = .ok (some a) := by
  obtain ⟨g, hg, -⟩ := hs.entry p exit hmem
  obtain ⟨path, hchain, hlast, hlen, htrace⟩ := tracePath_ok hs hg
  obtain ⟨hreplay, hmoves, hchars⟩ := replay_movesOf hchain hlast
  refine ⟨g, .moves (pathToMoves (start :: path)), ⟨fun _ => ?_, fun hno => ?_⟩, ?_⟩
  · refine ⟨movesOf (start :: path), rfl, hchars, hreplay, fun ms' h => ?_⟩
    have hw := walk_of_replay .nil h
    rw [Nat.zero_add] at hw
    rw [hmoves, hlen]
    exact hs.least_optimal (heuristic_consistent exit) hmem hmin hg hw
  · exact absurd (hs.walk hg).reflTransGen hno
  · intro limit hlimit
    rw [htrace limit [] hlimit, List.append_nil]
    rfl

/-- **The loop ends** with an answer that is right. In each pass a vertex is closed for the first
    time, or the open list gets shorter. -/
theorem Search.loop_returns (hrect : Rectangular maze width) (hfree : Free maze start) :
    ∀ (n k : Nat) (s : Search), (cells maze width \ s.closedList).card = n →
      s.openList.length = k → s.Inv maze start exit (fun _ _ => False) → exit ∉ s.closedList →
      ∃ N a, Shortest maze start exit a ∧ ∀ limit fuel, N ≤ limit → N ≤ fuel →
        s.loop maze width maze.length start exit limit fuel = .ok (some a) := by
  intro n
  induction n using Nat.strong_induction_on with
  | _ n ihn =>
  intro k
  induction k using Nat.strong_induction_on with
  | _ k ihk =>
  intro s hn hk hs hexit
  cases hpop : heappop s.openList with
  | none =>
    have hempty := heappop_none hpop
    refine ⟨1, .nothing, ⟨fun hreach => ?_, fun _ => rfl⟩, fun limit fuel _ hfuel => ?_⟩
    · obtain ⟨m, hw⟩ := Walk.of_reflTransGen hreach
      have hall : Frontier (Adj maze) (heuristic exit) start (fun _ _ => False) ∅ s.closedList
          s.cost s.parent := by
        unfold Search.Inv at hs
        simpa only [hempty, List.not_mem_nil, Set.ofPred_false] using hs
      exact absurd (hall.all_closed hw) hexit
    · obtain ⟨f, rfl⟩ := Nat.exists_eq_add_of_le' hfuel
      rw [Search.loop, hpop]
  | some top =>
    obtain ⟨⟨p, current⟩, rest⟩ := top
    obtain ⟨hmem, hmin, hrest⟩ := heappop_spec hpop
    by_cases hcur : current = exit
    · subst hcur
      obtain ⟨N, a, ha, htrace⟩ := exit_shortest hs hmem hmin
      refine ⟨N + 1, a, ha, fun limit fuel hlimit hfuel => ?_⟩
      obtain ⟨f, rfl⟩ := Nat.exists_eq_add_of_le' (Nat.le_trans (Nat.le_add_left 1 N) hfuel)
      rw [Search.loop, hpop]
      simp only [if_true]
      exact htrace limit (Nat.le_of_succ_le hlimit)
    · obtain ⟨t, ht, hinv, hclosed, hopen⟩ := expand_inv hrect hs hpop
      have hexit' : exit ∉ t.closedList := by
        rw [hclosed, Finset.mem_insert, not_or]
        exact ⟨Ne.symm hcur, hexit⟩
      have hrec : ∃ N a, Shortest maze start exit a ∧ ∀ limit fuel, N ≤ limit → N ≤ fuel →
          t.loop maze width maze.length start exit limit fuel = .ok (some a) := by
        by_cases hc : current ∈ s.closedList
        · rw [Finset.insert_eq_of_mem hc] at hclosed
          refine ihk t.openList.length ?_ t (hclosed ▸ hn) rfl hinv hexit'
          rw [hopen hc, hrest, List.length_erase_of_mem hmem, ← hk]
          exact Nat.sub_lt (List.length_pos_of_mem hmem) Nat.one_pos
        · refine ihn _ ?_ _ t rfl rfl hinv hexit'
          -- an open vertex is the start or one step from a free one, so it is in the maze
          obtain ⟨g, hg, -⟩ := hs.entry p current hmem
          obtain ⟨c, hcell, -⟩ := free_of_walk hfree (hs.walk hg)
          have hmem := mem_cells hrect ⟨c, hcell⟩
          rw [← hn, hclosed]
          refine Finset.card_lt_card (Finset.ssubset_iff_of_subset ?_ |>.mpr ⟨current, ?_, ?_⟩)
          · exact Finset.sdiff_subset_sdiff (Finset.Subset.refl _) (Finset.subset_insert _ _)
          · exact Finset.mem_sdiff.mpr ⟨hmem, hc⟩
          · exact fun h => (Finset.mem_sdiff.mp h).2 (Finset.mem_insert_self _ _)
      obtain ⟨N, a, ha, hloop⟩ := hrec
      refine ⟨N + 1, a, ha, fun limit fuel hlimit hfuel => ?_⟩
      obtain ⟨f, rfl⟩ := Nat.exists_eq_add_of_le' (Nat.le_trans (Nat.le_add_left 1 N) hfuel)
      rw [Search.loop, hpop]
      simp only [if_neg hcur, ht, ok_bind]
      exact hloop limit f (Nat.le_of_succ_le hlimit) (Nat.le_of_succ_le_succ hfuel)

end Loop

/-- **`solveMazeWithAStar` on a rectangular maze with one `*` and one `E`** ends and returns a
    shortest string of moves from the one to the other, or the empty list when there is none. -/
theorem solveMazeWithAStar_correct (maze : Grid) (width : Nat)
    (hrect : ∀ row ∈ maze, row.length = width) (hstart : ∃! p, cell maze p = some '*')
    (hexit : ∃! p, cell maze p = some 'E') :
    ∃ N a, (∀ limit, N ≤ limit → solveMazeWithAStar limit maze = .ok (some a)) ∧
      ∀ start exit, cell maze start = some '*' → cell maze exit = some 'E' →
        Shortest maze start exit a := by
  obtain ⟨start, hs, hsu⟩ := hstart
  obtain ⟨exit, he, heu⟩ := hexit
  have hne : exit ≠ start := by
    intro heq
    subst heq
    rw [hs] at he
    cases he
  have hmarks := findMarks_ok hrect (fun p => ⟨hsu p, fun h => h ▸ hs⟩)
    fun p => ⟨heu p, fun h => h ▸ he⟩
  obtain ⟨N, a, ha, hloop⟩ := Search.loop_returns hrect ⟨'*', hs, by decide⟩ _ _
    (Search.start start) rfl rfl (start_inv : Search.Inv maze start exit _ _)
    (Finset.notMem_empty _)
  refine ⟨N, a, fun limit hlimit => ?_, fun start' exit' hs' he' => ?_⟩
  · -- the first row, whose length the source takes for the width
    obtain ⟨hx, hy⟩ := (cell_isSome hrect).mp ⟨_, hs⟩
    have hlen : 0 < maze.length := by omega
    have hfirst : index maze 0 = .ok maze[0] := index_of_get? (le_refl 0) (by simp [hlen])
    unfold solveMazeWithAStar
    simp only [hfirst, ok_bind, hrect _ (List.getElem_mem hlen), hmarks]
    exact hloop limit limit hlimit hlimit
  · rw [hsu start' hs', heu exit' he']
    exact ha

/-- The exit behind a wall, with two ways round it. -/
def twoWays : Grid := ["*.....".toList, ".#####".toList, "...E..".toList]

theorem solveMazeWithAStar_correct_twoWays :
    ∃ N a, (∀ limit, N ≤ limit → solveMazeWithAStar limit twoWays = .ok (some a)) ∧
      ∀ start exit, cell twoWays start = some '*' → cell twoWays exit = some 'E' →
        Shortest twoWays start exit a := by
  have hrect : ∀ row ∈ twoWays, row.length = 6 := by decide
  have hstar : ∀ p ∈ cells twoWays 6, cell twoWays p = some '*' → p = (0, 0) := by decide +kernel
  have hexit : ∀ p ∈ cells twoWays 6, cell twoWays p = some 'E' → p = (3, 2) := by decide +kernel
  exact solveMazeWithAStar_correct twoWays 6 hrect
    ⟨(0, 0), by decide, fun p hp => hstar p (mem_cells hrect ⟨_, hp⟩) hp⟩
    ⟨(3, 2), by decide, fun p hp => hexit p (mem_cells hrect ⟨_, hp⟩) hp⟩

end InpLabs.Maze
