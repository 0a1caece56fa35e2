/-
  File:      InpLabs/Maze/Exploration.lean
  Subject:   **The exploring client finds the way to the exit or to the edge of what it knows**, or
             says that there is none.

  * `Open`, `Beside`, `Reachable`, `replay`: the cells one may step on, and what a path does;
  * `Aged`: what the search does to the grid;
  * `Explorer.Inv`: the invariant of the search. Every vertex seen is on the stack, or all its
    neighbours are settled;
  * `loop_returns`: the loop ends, after enough rounds, with an outcome that is right;
  * `getPath_correct`: so does the function.
-/
import InpLabs.Lib.Follow
import InpLabs.Maze.Explorer

namespace InpLabs.Maze.Explore

open InpLabs.Lib Python

/-! ## 1. Cells and paths -/

/-- Known and no wall. -/
def Open (maze : Grid) (p : Pos) : Prop := ∃ c, entry maze p = some c ∧ c ≠ ' ' ∧ c ≠ '#'

instance (maze : Grid) (p : Pos) : Decidable (Open maze p) :=
  match h : entry maze p with
  | some c => decidable_of_iff (c ≠ ' ' ∧ c ≠ '#') (by simp [Open, h])
  | none => isFalse (by simp [Open, h])

/-- One step up, left, down or right. -/
def Beside (p q : Pos) : Prop := (p.1 - q.1).natAbs + (p.2 - q.2).natAbs = 1

/-- The position a move leads to. -/
def target (p : Pos) (move : Char) : Option Pos :=
  if move = 'W' then some (p.1 - 1, p.2)
  else if move = 'S' then some (p.1 + 1, p.2)
  else if move = 'A' then some (p.1, p.2 - 1)
  else if move = 'D' then some (p.1, p.2 + 1)
  else none

/-- The position after a path, if each of its moves leads to an open cell. -/
def replay (maze : Grid) (p : Pos) (path : List Char) : Option Pos :=
  follow target (Open maze) p path

/-- The positions one can walk to over open cells. -/
def Reachable (maze : Grid) : Pos → Pos → Prop :=
  Relation.ReflTransGen fun p q => Beside p q ∧ Open maze q

/-- There is an unknown cell beside it. -/
def Edge (maze : Grid) (p : Pos) : Prop := ∃ q, Beside p q ∧ entry maze q = some ' '

section Paths

variable {maze : Grid} {p q r start : Pos} {path : List Char} {move : Char}

theorem beside_of_target (h : target p move = some q) : Beside p q := by
  unfold target at h
  unfold Beside
  split_ifs at h <;> cases h <;> simp only <;> omega

/-- What is replayed is reachable. -/
theorem reachable_of_replay (h : replay maze p path = some q) : Reachable maze p q :=
  reachable_of_follow (fun _ _ _ => beside_of_target) h

/-- The moves of the source, with their symbols. -/
theorem mem_moves {m : (Int × Int) × Char} (h : m ∈ moves.zip moveSymbols) :
    target p m.2 = some (p.1 + m.1.1, p.2 + m.1.2) := by
  simp only [moves, moveSymbols, List.zip_cons_cons, List.zip_nil_right, List.mem_cons,
    List.not_mem_nil, or_false] at h
  rcases h with rfl | rfl | rfl | rfl <;> simp [target, Int.sub_eq_add_neg]

theorem exists_move (h : Beside p q) :
    ∃ m ∈ moves.zip moveSymbols, q = (p.1 + m.1.1, p.2 + m.1.2) := by
  obtain ⟨x, y⟩ := p
  obtain ⟨u, v⟩ := q
  unfold Beside at h
  simp only at h
  have hcases : (u = x - 1 ∧ v = y) ∨ (u = x ∧ v = y - 1) ∨ (u = x + 1 ∧ v = y) ∨
      (u = x ∧ v = y + 1) := by omega
  rcases hcases with ⟨rfl, rfl⟩ | ⟨rfl, rfl⟩ | ⟨rfl, rfl⟩ | ⟨rfl, rfl⟩
  · exact ⟨((-1, 0), 'W'), by decide, by simp [Int.sub_eq_add_neg]⟩
  · exact ⟨((0, -1), 'A'), by decide, by simp [Int.sub_eq_add_neg]⟩
  · exact ⟨((1, 0), 'S'), by decide, by simp⟩
  · exact ⟨((0, 1), 'D'), by decide, by simp⟩

end Paths

/-! ## 2. The grid -/

/-- The outermost rows and columns are unknown or walls. -/
def Bordered (maze : Grid) (width : Nat) : Prop :=
  ∀ p c, entry maze p = some c →
    p.1 = 0 ∨ p.1 = maze.length - 1 ∨ p.2 = 0 ∨ p.2 = width - 1 → c = ' ' ∨ c = '#'

/-- The grid has changed by turning stars into dots. -/
structure Aged (maze maze' : Grid) : Prop where
  cells : ∀ p, entry maze' p = entry maze p ∨ entry maze p = some '*' ∧ entry maze' p = some '.'
  shape : maze'.map List.length = maze.map List.length

section Grid

variable {maze maze' : Grid} {width : Nat} {p q : Pos} {c : Char}

theorem Aged.refl (maze : Grid) : Aged maze maze := ⟨fun _ => .inl rfl, rfl⟩

/-- A character the search neither looks for nor writes. -/
theorem Aged.entry_iff (h : Aged maze maze') (h1 : c ≠ '*') (h2 : c ≠ '.') :
    entry maze' p = some c ↔ entry maze p = some c := by
  rcases h.cells p with hp | ⟨hp, hp'⟩
  · rw [hp]
  · rw [hp, hp']
    simp [h1.symm, h2.symm]

/-- Where another character stands now, it did not stand before. -/
theorem Aged.entry_ne {c' : Char} (h : Aged maze maze') (hp : entry maze' p = some c')
    (hc : c' ≠ c) (h1 : c ≠ '*') (h2 : c ≠ '.') : entry maze p ≠ some c := fun hbefore =>
  hc (Option.some.inj (hp.symm.trans ((h.entry_iff h1 h2).mpr hbefore)))

theorem Aged.entry_some (h : Aged maze maze') (hp : entry maze p = some c) :
    ∃ c', entry maze' p = some c' := by
  rcases h.cells p with hp' | ⟨-, hp'⟩
  · exact ⟨c, hp'.trans hp⟩
  · exact ⟨_, hp'⟩

theorem Aged.rectangular (h : Aged maze maze') (hrect : Rectangular maze width) :
    Rectangular maze' width := by
  intro row hrow
  have hmem : row.length ∈ maze.map List.length := h.shape ▸ List.mem_map_of_mem hrow
  obtain ⟨row', hrow', hlen⟩ := List.mem_map.mp hmem
  exact hlen.symm.trans (hrect row' hrow')

theorem Aged.length_eq (h : Aged maze maze') : maze'.length = maze.length := by
  simpa using congrArg List.length h.shape

/-- A star becomes a dot, and another cell stays. -/
theorem Aged.mark (h : Aged maze maze') (hp : entry maze' p = some c) :
    ∃ maze'', mark maze' p.1 p.2 = .ok maze'' ∧ Aged maze maze'' := by
  unfold Explore.mark
  rw [index2_of_entry hp, ok_bind]
  by_cases hstar : c = '*'
  swap
  · exact ⟨maze', if_neg hstar, h⟩
  subst hstar
  obtain ⟨maze'', hset, hentry, hshape⟩ := setIndex2_of_entry hp '.'
  rw [if_pos rfl]
  refine ⟨maze'', hset, fun q => ?_, hshape.trans h.shape⟩
  rw [hentry]
  split_ifs with hq
  · subst hq
    rcases h.cells q with hc | ⟨-, hc⟩
    · exact .inr ⟨hc ▸ hp, rfl⟩
    · rw [hc] at hp
      cases hp
  · exact h.cells q

/-- An open cell is not at the border, and has four neighbours. -/
theorem entry_of_beside (hrect : Rectangular maze width) (hborder : Bordered maze width)
    (hp : Open maze p) (h : Beside p q) : ∃ c, entry maze q = some c := by
  obtain ⟨c, hc, hknown, hwall⟩ := hp
  obtain ⟨hx, hy⟩ := (exists_entry hrect).mp ⟨c, hc⟩
  have hinside : ¬ (p.1 = 0 ∨ p.1 = maze.length - 1 ∨ p.2 = 0 ∨ p.2 = width - 1) := fun hb =>
    (hborder p c hc hb).elim hknown hwall
  unfold Beside at h
  exact (exists_entry hrect).mpr (by omega)

end Grid

/-! ## 3. The invariant -/

/-- A neighbour that is neither the exit nor unknown, and seen if it is open. -/
def Settled (maze : Grid) (seen : Finset Pos) (q : Pos) : Prop :=
  entry maze q ≠ some ' ' ∧ entry maze q ≠ some 'E' ∧ (Open maze q → q ∈ seen)

/-- The state of the search, which has marked the cells `seen`. `busy` says which neighbours of
    which position are still to be looked at. -/
structure Explorer.Inv (maze : Grid) (start : Pos) (busy : Pos → Pos → Prop) (seen : Finset Pos)
    (s : Explorer) : Prop where
  aged : Aged maze s.maze
  visited : ∀ p, entry s.visited p = (entry maze p).map fun _ => decide (p ∈ seen)
  seen_open : ∀ p ∈ seen, Open maze p
  paths : ∀ e ∈ s.stack, replay maze start e.path = some (e.x, e.y)
  done : ∀ p, p = start ∨ p ∈ seen → (∃ e ∈ s.stack, (e.x, e.y) = p) ∨
    entry maze p ≠ some 'E' ∧ ∀ q, Beside p q → busy p q ∨ Settled maze seen q

/-- An answer with a path. -/
structure Leads (maze : Grid) (start : Pos) (found : Found) : Prop where
  replays : ∃ path, found.path = some path ∧ replay maze start path = some (found.x, found.y)
  exit : found.findExit = true ↔ entry maze (found.x, found.y) = some 'E'
  edge : found.findExit = false → Edge maze (found.x, found.y)

section Search

variable {maze : Grid} {width : Nat} {start p q : Pos} {busy : Pos → Pos → Prop}
  {seen : Finset Pos} {s : Explorer} {e : Entry}

theorem Settled.mono {seen' : Finset Pos} (hsub : seen ⊆ seen') (h : Settled maze seen q) :
    Settled maze seen' q := ⟨h.1, h.2.1, fun hq => hsub (h.2.2 hq)⟩

/-- The last condition of the loop over the moves, for a cell that is known. -/
theorem fresh_eq (hrect : Rectangular maze width) (hs : s.Inv maze start busy seen) {c : Char}
    (hc : entry maze q = some c) (hknown : c ≠ ' ') :
    fresh s q.1 q.2 = .ok (decide (Open maze q ∧ q ∉ seen)) := by
  obtain ⟨hx, hy⟩ := (exists_entry hrect).mp ⟨c, hc⟩
  have hlen := hs.aged.length_eq
  have hrows := hs.aged.rectangular hrect
  have hfirst : index s.maze 0 = .ok s.maze[0] :=
    index_of_get? (le_refl 0) (by simp [hlen, show 0 < maze.length by omega])
  have hwidth : s.maze[0].length = width := hrows _ (List.getElem_mem _)
  obtain ⟨c', hc'⟩ := hs.aged.entry_some hc
  have hwall : c' = '#' ↔ c = '#' := by
    have hiff := hs.aged.entry_iff (p := q) (c := '#') (by decide) (by decide)
    rw [hc, hc'] at hiff
    simpa using hiff
  have hopen : Open maze q ↔ c ≠ '#' := by
    simp [Open, hc, hknown]
  have hvisited : index2 s.visited q.1 q.2 = .ok (decide (q ∈ seen)) := by
    refine index2_of_entry ?_
    rw [hs.visited, hc]
    rfl
  have hin : ¬ ¬ (0 ≤ q.1 ∧ q.1 < s.maze.length) := by omega
  have hin' : ¬ ¬ (0 ≤ q.2 ∧ q.2 < s.maze[0].length) := by omega
  unfold fresh
  rw [if_neg hin, hfirst, ok_bind, if_neg hin', index2_of_entry hc', ok_bind]
  by_cases hw : c = '#'
  · rw [if_pos (hwall.mpr hw)]
    simp [hopen, hw]
  · rw [if_neg (mt hwall.mp hw), hvisited]
    simp [hopen, hw]

/-- A position more that is settled. -/
theorem Explorer.Inv.settle {busy' : Pos → Pos → Prop} (hs : s.Inv maze start busy seen)
    (h : ∀ p q, busy p q → busy' p q ∨ Settled maze seen q) : s.Inv maze start busy' seen where
  aged := hs.aged
  visited := hs.visited
  seen_open := hs.seen_open
  paths := hs.paths
  done p hp := (hs.done p hp).imp_right fun ⟨h1, h2⟩ =>
    ⟨h1, fun q hq => (h2 q hq).elim (h p q) .inr⟩

/-- A cell is marked and goes on the stack. -/
theorem Explorer.Inv.push (hs : s.Inv maze start busy seen) (hq : Open maze q) (path : List Char)
    (flag : Bool) (hpath : replay maze start path = some q) :
    ∃ visited, setIndex2 s.visited q.1 q.2 true = .ok visited ∧
      Explorer.Inv maze start busy (insert q seen)
        ⟨s.maze, visited, ⟨q.1, q.2, path, flag⟩ :: s.stack⟩ := by
  obtain ⟨c, hc, -⟩ := id hq
  have hmark : entry s.visited q = some (decide (q ∈ seen)) := by
    rw [hs.visited, hc]
    rfl
  obtain ⟨visited, hset, hentry, -⟩ := setIndex2_of_entry hmark true
  refine ⟨visited, hset, hs.aged, fun p => ?_, fun p hp => ?_, fun e he => ?_, fun p hp => ?_⟩
  · rw [hentry, hs.visited]
    split_ifs with hpq
    · simp [hpq, hc]
    · simp [hpq]
  · rcases Finset.mem_insert.mp hp with rfl | hp
    · exact hq
    · exact hs.seen_open p hp
  · rcases List.mem_cons.mp he with rfl | he
    · exact hpath
    · exact hs.paths e he
  · by_cases hpq : p = q
    · exact .inl ⟨_, List.mem_cons_self, hpq.symm⟩
    · have hold : p = start ∨ p ∈ seen := hp.imp_right (Finset.mem_of_mem_insert_of_ne · hpq)
      rcases hs.done p hold with ⟨e, he, hpos⟩ | ⟨h1, h2⟩
      · exact .inl ⟨e, List.mem_cons_of_mem _ he, hpos⟩
      · exact .inr ⟨h1, fun r hr => (h2 r hr).imp_right (Settled.mono (Finset.subset_insert _ _))⟩

/-- The neighbours of the entry `e` that the moves `ms` lead to. -/
def Pending (e : Entry) (ms : List ((Int × Int) × Char)) (p q : Pos) : Prop :=
  p = (e.x, e.y) ∧ ∃ m ∈ ms, q = (e.x + m.1.1, e.y + m.1.2)

/-- **The loop over the moves** returns an answer with a path, or settles the neighbours it has left
    and marks as many cells as it puts on the stack. -/
theorem look_spec (hrect : Rectangular maze width) (hborder : Bordered maze width)
    (hopen : Open maze (e.x, e.y)) (hpath : replay maze start e.path = some (e.x, e.y))
    (hexit : entry maze (e.x, e.y) ≠ some 'E') (ms : List ((Int × Int) × Char))
    (hms : ∀ m ∈ ms, m ∈ moves.zip moveSymbols) (hs : s.Inv maze start (Pending e ms) seen) :
    (∃ found, look e ms s = .ok (.inl (found, s.maze)) ∧ Leads maze start found) ∨
    ∃ s' seen', look e ms s = .ok (.inr s') ∧ s'.Inv maze start (fun _ _ => False) seen' ∧
      s'.stack.length + seen.card = s.stack.length + seen'.card := by
  induction ms generalizing s seen with
  | nil => exact .inr ⟨s, seen, rfl, hs.settle fun p q h => by simp [Pending] at h, rfl⟩
  | cons m ms ih =>
    obtain ⟨d, symbol⟩ := m
    obtain ⟨hm, hms⟩ := List.forall_mem_cons.mp hms
    have htarget : target (e.x, e.y) symbol = some (e.x + d.1, e.y + d.2) := mem_moves hm
    have hbeside := beside_of_target htarget
    obtain ⟨c, hc⟩ := entry_of_beside hrect hborder hopen hbeside
    obtain ⟨c', hc'⟩ := hs.aged.entry_some hc
    have hread := index2_of_entry hc'
    unfold look
    simp only at hread ⊢
    rw [hread, ok_bind]
    by_cases hunknown : c' = ' '
    · -- the edge of what is known
      subst hunknown
      have hedge := (hs.aged.entry_iff (by decide) (by decide)).mp hc'
      rw [if_pos rfl]
      exact .inl ⟨_, rfl, ⟨_, rfl, hpath⟩, by simp [hexit], fun _ => ⟨_, hbeside, hedge⟩⟩
    rw [if_neg hunknown]
    by_cases hfound : c' = 'E'
    · subst hfound
      have hE := (hs.aged.entry_iff (by decide) (by decide)).mp hc'
      rw [if_pos rfl]
      exact .inl ⟨_, rfl, ⟨_, rfl, follow_snoc hpath htarget ⟨_, hE, by decide, by decide⟩⟩,
        by simp [hE], nofun⟩
    rw [if_neg hfound]
    have hknown : entry maze (e.x + d.1, e.y + d.2) ≠ some ' ' :=
      hs.aged.entry_ne hc' hunknown (by decide) (by decide)
    have hno : entry maze (e.x + d.1, e.y + d.2) ≠ some 'E' :=
      hs.aged.entry_ne hc' hfound (by decide) (by decide)
    rw [fresh_eq (q := (e.x + d.1, e.y + d.2)) hrect hs hc (fun h => hknown (h ▸ hc)), ok_bind]
    have hrest : ∀ {seen'}, Settled maze seen' (e.x + d.1, e.y + d.2) → ∀ p q,
        Pending e ((d, symbol) :: ms) p q → Pending e ms p q ∨ Settled maze seen' q := by
      intro seen' hq p q hpending
      obtain ⟨rfl, m, hm, rfl⟩ := hpending
      rcases List.mem_cons.mp hm with rfl | hm
      · exact .inr hq
      · exact .inl ⟨rfl, m, hm, rfl⟩
    by_cases hnew : Open maze (e.x + d.1, e.y + d.2) ∧ (e.x + d.1, e.y + d.2) ∉ seen
    · rw [decide_eq_true hnew, if_pos rfl]
      obtain ⟨visited, hset, hinv⟩ := hs.push hnew.1 (e.path ++ [symbol]) e.findExit
        (follow_snoc hpath htarget hnew.1)
      rw [hset, ok_bind]
      have hsettled : Settled maze (insert (e.x + d.1, e.y + d.2) seen) (e.x + d.1, e.y + d.2) :=
        ⟨hknown, hno, fun _ => Finset.mem_insert_self _ _⟩
      have hih := ih hms (hinv.settle (hrest hsettled))
      refine hih.imp id ?_
      intro hrest
      obtain ⟨s', seen', hlook, hs', hcard⟩ := hrest
      rw [Finset.card_insert_of_notMem hnew.2] at hcard
      simp only [List.length_cons] at hcard
      exact ⟨s', seen', hlook, hs', by omega⟩
    · rw [decide_eq_false hnew, if_neg (by simp)]
      have hsettled : Settled maze seen (e.x + d.1, e.y + d.2) :=
        ⟨hknown, hno, fun h => not_not.mp fun hseen => hnew ⟨h, hseen⟩⟩
      exact ih hms (hs.settle (hrest hsettled))

/-- The popped entry's neighbours are those the loop over the moves is to look at. -/
theorem Explorer.Inv.pop (hs : s.Inv maze start (fun _ _ => False) seen) {rest : List Entry}
    (hstack : s.stack = e :: rest) (hexit : entry maze (e.x, e.y) ≠ some 'E') {maze' : Grid}
    (haged : Aged maze maze') : Explorer.Inv maze start (Pending e (moves.zip moveSymbols)) seen
      ⟨maze', s.visited, rest⟩ where
  aged := haged
  visited := hs.visited
  seen_open := hs.seen_open
  paths e' he' := hs.paths e' (hstack ▸ List.mem_cons_of_mem _ he')
  done p hp := by
    rcases hs.done p hp with ⟨e', he', rfl⟩ | ⟨h1, h2⟩
    · rw [hstack] at he'
      rcases List.mem_cons.mp he' with rfl | he'
      · exact .inr ⟨hexit, fun q hq => .inl ⟨rfl, exists_move hq⟩⟩
      · exact .inl ⟨e', he', rfl⟩
    · exact .inr ⟨h1, fun q hq => .inr ((h2 q hq).resolve_left id)⟩

/-- **One round** returns an answer with a path, or goes on with one entry less for the cells that
    are left. -/
theorem pass_spec (hrect : Rectangular maze width) (hborder : Bordered maze width)
    (hstart : Open maze start) (hs : s.Inv maze start (fun _ _ => False) seen) {rest : List Entry}
    (hstack : s.stack = e :: rest) :
    (∃ found maze', pass e { s with stack := rest } = .ok (.inl (found, maze')) ∧
      Leads maze start found ∧ Aged maze maze') ∨
    ∃ s' seen', pass e { s with stack := rest } = .ok (.inr s') ∧
      s'.Inv maze start (fun _ _ => False) seen' ∧
      s'.stack.length + seen.card = rest.length + seen'.card := by
  have hpath := hs.paths e (hstack ▸ List.mem_cons_self)
  have hopen := allowed_of_reachable (reachable_of_replay hpath) hstart
  obtain ⟨c, hc, -⟩ := id hopen
  obtain ⟨c', hc'⟩ := hs.aged.entry_some hc
  have hread := index2_of_entry hc'
  unfold pass
  simp only at hread ⊢
  rw [hread, ok_bind]
  by_cases hE : c' = 'E'
  · subst hE
    have hexit := (hs.aged.entry_iff (by decide) (by decide)).mp hc'
    rw [if_pos rfl]
    exact .inl ⟨_, _, rfl, ⟨⟨_, rfl, hpath⟩, by simp [hexit], nofun⟩, hs.aged⟩
  have hexit : entry maze (e.x, e.y) ≠ some 'E' :=
    hs.aged.entry_ne hc' hE (by decide) (by decide)
  obtain ⟨maze', hmark, haged⟩ := hs.aged.mark hc'
  simp only at hmark
  rw [if_neg hE, hmark, ok_bind]
  refine (look_spec hrect hborder hopen hpath hexit _ (fun _ h => h)
    (hs.pop hstack hexit haged)).imp ?_ id
  intro hfound
  obtain ⟨found, hlook, hleads⟩ := hfound
  exact ⟨found, maze', hlook, hleads, haged⟩

end Search

/-! ## 4. The loop -/

/-- What the function promises of its answer and of the grid it leaves. -/
structure Outcome (maze : Grid) (start : Pos) (found : Found) (maze' : Grid) : Prop where
  leads : found.path ≠ none → Leads maze start found
  nothing : found.path = none ↔
    ∀ p, Reachable maze start p → entry maze p ≠ some 'E' ∧ ¬ Edge maze p
  aged : Aged maze maze'

section Loop

variable {maze maze' : Grid} {width : Nat} {start : Pos} {seen : Finset Pos} {s : Explorer}

theorem Leads.outcome {found : Found} (h : Leads maze start found) (haged : Aged maze maze') :
    Outcome maze start found maze' := by
  obtain ⟨path, hpath, hreplay⟩ := h.replays
  refine ⟨fun _ => h, ⟨fun hnone => ?_, fun hall => ?_⟩, haged⟩
  · rw [hpath] at hnone
    cases hnone
  · obtain ⟨hno, hedge⟩ := hall _ (reachable_of_replay hreplay)
    cases hflag : found.findExit with
    | true => exact absurd (h.exit.mp hflag) hno
    | false => exact absurd (h.edge hflag) hedge

/-- With nothing left on the stack, the cells marked are all there is to reach. -/
theorem Explorer.Inv.outcome (hs : s.Inv maze start (fun _ _ => False) seen) (hstack : s.stack = [])
    (last : Entry) : Outcome maze start ⟨none, last.x, last.y, last.findExit⟩ s.maze := by
  have hdone : ∀ p, p = start ∨ p ∈ seen →
      entry maze p ≠ some 'E' ∧ ∀ q, Beside p q → Settled maze seen q := by
    intro p hp
    rcases hs.done p hp with ⟨e, he, -⟩ | ⟨h1, h2⟩
    · rw [hstack] at he
      cases he
    · exact ⟨h1, fun q hq => (h2 q hq).resolve_left id⟩
  have hreach : ∀ p, Reachable maze start p → p = start ∨ p ∈ seen := by
    intro p hp
    induction hp with
    | refl => exact .inl rfl
    | tail _ hstep ih => exact .inr (((hdone _ ih).2 _ hstep.1).2.2 hstep.2)
  refine ⟨fun h => absurd rfl h, ⟨fun _ p hp => ?_, fun _ => rfl⟩, hs.aged⟩
  obtain ⟨hno, hsettled⟩ := hdone p (hreach p hp)
  exact ⟨hno, fun ⟨q, hq, hunknown⟩ => (hsettled q hq).1 hunknown⟩

/-- The positions of a rectangle. -/
noncomputable def cells (maze : Grid) (width : Nat) : Finset Pos :=
  Finset.Ico 0 (maze.length : Int) ×ˢ Finset.Ico 0 (width : Int)

theorem Explorer.Inv.card_le {busy : Pos → Pos → Prop} (hrect : Rectangular maze width)
    (hs : s.Inv maze start busy seen) : seen.card ≤ (cells maze width).card := by
  refine Finset.card_le_card fun p hp => ?_
  obtain ⟨c, hc, -⟩ := hs.seen_open p hp
  obtain ⟨hx, hy⟩ := (exists_entry hrect).mp ⟨c, hc⟩
  exact Finset.mem_product.mpr ⟨Finset.mem_Ico.mpr hx, Finset.mem_Ico.mpr hy⟩

/-- One round: the search is over, -/
theorem loop_found {last : Entry} {rest : List Entry} {found : Found × Grid}
    (hstack : s.stack = e :: rest) (hpass : pass e { s with stack := rest } = .ok (.inl found))
    (limit : Nat) : loop (limit + 1) last s = .ok (some found) := by
  rw [loop, hstack]
  dsimp only
  rw [hpass]
  rfl

/-- or it goes on. -/
theorem loop_on {last : Entry} {rest : List Entry} {s' : Explorer}
    (hstack : s.stack = e :: rest) (hpass : pass e { s with stack := rest } = .ok (.inr s'))
    (limit : Nat) : loop (limit + 1) last s = loop limit e s' := by
  rw [loop, hstack]
  dsimp only
  rw [hpass]
  rfl

/-- **The loop ends**, after one round for every entry on the stack and every cell not marked, and
    one more, with an answer that is right. -/
theorem loop_returns (hrect : Rectangular maze width) (hborder : Bordered maze width)
    (hstart : Open maze start) (n : Nat) (last : Entry)
    (hs : s.Inv maze start (fun _ _ => False) seen)
    (hn : s.stack.length + ((cells maze width).card - seen.card) ≤ n) :
    ∃ found maze', (∀ limit, n < limit → loop limit last s = .ok (some (found, maze'))) ∧
      Outcome maze start found maze' := by
  induction n generalizing last s seen with
  | zero =>
    have hstack : s.stack = [] := List.length_eq_zero_iff.mp (by omega)
    refine ⟨_, _, fun limit hlimit => ?_, hs.outcome hstack last⟩
    obtain ⟨limit, rfl⟩ := Nat.exists_eq_add_of_lt hlimit
    rw [loop, hstack]
  | succ n ih =>
    cases hstack : s.stack with
    | nil =>
      refine ⟨_, _, fun limit hlimit => ?_, hs.outcome hstack last⟩
      obtain ⟨limit, rfl⟩ := Nat.exists_eq_add_of_lt hlimit
      rw [loop, hstack]
    | cons e rest =>
      rcases pass_spec hrect hborder hstart hs hstack with
        ⟨found, maze', hpass, hleads, haged⟩ | ⟨s', seen', hpass, hs', hcard⟩
      · refine ⟨found, maze', fun limit hlimit => ?_, hleads.outcome haged⟩
        obtain ⟨limit, rfl⟩ := Nat.exists_eq_add_of_lt hlimit
        exact loop_found hstack hpass _
      · have hle := hs.card_le hrect
        have hle' := hs'.card_le hrect
        rw [hstack, List.length_cons] at hn
        obtain ⟨found, maze', hloop, hout⟩ := ih e hs' (by omega)
        refine ⟨found, maze', fun limit hlimit => ?_, hout⟩
        obtain ⟨limit, rfl⟩ := Nat.exists_eq_add_of_lt hlimit
        rw [loop_on hstack hpass]
        exact hloop _ (by omega)

/-! ## 5. The function -/

/-- A comprehension with one value in every place. -/
theorem mapM_replicate {α β : Type} {f : α → Except Error β} {b : β} (xs : List α)
    (h : ∀ a ∈ xs, f a = .ok b) : xs.mapM f = .ok (List.replicate xs.length b) := by
  induction xs with
  | nil => rfl
  | cons a xs ih =>
    obtain ⟨ha, hxs⟩ := List.forall_mem_cons.mp h
    rw [List.mapM_cons, ha, ok_bind, ih hxs, ok_bind]
    rfl

/-- Nothing is marked at first. -/
theorem entry_unmarked (hrect : Rectangular maze width) (p : Pos) :
    entry (List.replicate maze.length (List.replicate width false)) p =
      (entry maze p).map fun _ => false := by
  have hunmarked : ∀ row ∈ List.replicate maze.length (List.replicate width false),
      row.length = width := by
    intro row hrow
    rw [List.eq_of_mem_replicate hrow, List.length_replicate]
  have hiff := exists_entry (p := p) hunmarked
  rw [List.length_replicate, ← exists_entry hrect] at hiff
  cases hp : entry maze p with
  | none =>
    refine Option.eq_none_iff_forall_ne_some.mpr fun b hb => ?_
    obtain ⟨c, hc⟩ := hiff.mp ⟨b, hb⟩
    rw [hp] at hc
    cases hc
  | some c =>
    obtain ⟨b, hb⟩ := hiff.mpr ⟨c, hp⟩
    obtain ⟨-, -, row, hrow, hget⟩ := entry_eq_some.mp hb
    have hrow' := List.eq_of_mem_replicate (List.mem_of_getElem? hrow)
    subst hrow'
    rw [hb, List.eq_of_mem_replicate (List.mem_of_getElem? hget)]
    rfl

theorem start_inv (hrect : Rectangular maze width) (x y : Int) :
    Explorer.Inv maze (x, y) (fun _ _ => False) ∅
      ⟨maze, List.replicate maze.length (List.replicate width false), [⟨x, y, [], false⟩]⟩ where
  aged := .refl maze
  visited p := by simpa using entry_unmarked hrect p
  seen_open p hp := absurd hp (Finset.notMem_empty p)
  paths e he := by
    obtain rfl := List.mem_singleton.mp he
    rfl
  done p hp := .inl ⟨_, List.mem_singleton_self _, (hp.resolve_right (Finset.notMem_empty p)).symm⟩

/-- `getPath` is its loop, with nothing marked. -/
theorem getPath_eq_loop (hrect : Rectangular maze width) (hlen : 0 < maze.length) (limit : Nat)
    (x y : Int) : getPath limit maze x y = loop limit ⟨x, y, [], false⟩
      ⟨maze, List.replicate maze.length (List.replicate width false), [⟨x, y, [], false⟩]⟩ := by
  have hfirst : index maze 0 = .ok maze[0] := index_of_get? (Int.le_refl 0) (by simp [hlen])
  have hvisited : (maze.mapM fun _ => do
      return List.replicate (← index maze 0).length false) =
      .ok (List.replicate maze.length (List.replicate width false)) := by
    refine mapM_replicate maze fun _ _ => ?_
    rw [hfirst, ok_bind, hrect _ (List.getElem_mem hlen)]
    rfl
  unfold getPath
  rw [hvisited, ok_bind]

end Loop

/-- **`getPath` on a rectangular grid with an unknown or walled border**, from a cell that is known
    and no wall, ends without a failing subscript. A path it returns leads over known cells to the
    exit, or to a cell beside an unknown one; it returns none exactly when neither can be reached;
    and the grid has changed by stars that became dots. -/
theorem getPath_correct (maze : Grid) (width : Nat) (hrect : Rectangular maze width)
    (hborder : Bordered maze width) (x y : Int) (hstart : Open maze (x, y)) :
    ∃ N found maze', (∀ limit, N < limit → getPath limit maze x y = .ok (some (found, maze'))) ∧
      Outcome maze (x, y) found maze' := by
  obtain ⟨c, hc, -⟩ := id hstart
  obtain ⟨hx, -⟩ := (exists_entry hrect).mp ⟨c, hc⟩
  have hlen : 0 < maze.length := by omega
  obtain ⟨found, maze', hloop, hout⟩ := loop_returns hrect hborder hstart
    (1 + (cells maze width).card) ⟨x, y, [], false⟩ (start_inv hrect x y) (Nat.le_refl _)
  refine ⟨1 + (cells maze width).card, found, maze', fun limit hlimit => ?_, hout⟩
  rw [getPath_eq_loop hrect hlen]
  exact hloop limit hlimit

/-- A yard whose way out is not known yet. -/
def yard : Grid := ["#####".toList, "#*#.#".toList, "#..##".toList, "## ##".toList]

theorem yard_bordered : Bordered yard 5 := by
  have hall : ∀ i < 4, ∀ j < 5, i = 0 ∨ i = 3 ∨ j = 0 ∨ j = 4 →
      entry yard ((i : Nat), (j : Nat)) = some ' ' ∨
        entry yard ((i : Nat), (j : Nat)) = some '#' := by decide +kernel
  intro ⟨x, y⟩ c hc hb
  obtain ⟨hx, hy⟩ := (exists_entry (by decide : ∀ row ∈ yard, row.length = 5)).mp ⟨c, hc⟩
  obtain ⟨i, rfl⟩ := Int.eq_ofNat_of_zero_le hx.1
  obtain ⟨j, rfl⟩ := Int.eq_ofNat_of_zero_le hy.1
  have hlen : yard.length = 4 := rfl
  simp only [hlen] at hx hy hb
  have hcell := hall i (by omega) j (by omega) (by omega)
  rw [hc] at hcell
  exact hcell.imp Option.some.inj Option.some.inj

theorem getPath_correct_yard : ∃ N found maze',
    (∀ limit, N < limit → getPath limit yard 1 1 = .ok (some (found, maze'))) ∧
      Outcome yard (1, 1) found maze' ∧ found.path ≠ none := by
  obtain ⟨N, found, maze', hrun, hout⟩ := getPath_correct yard 5 (by unfold Rectangular; decide)
    yard_bordered 1 1 (by decide +kernel)
  refine ⟨N, found, maze', hrun, hout, fun hnone => ?_⟩
  have hreach : Reachable yard (1, 1) (2, 2) :=
    reachable_of_replay (by decide +kernel : replay yard (1, 1) ['S', 'D'] = some (2, 2))
  exact (hout.nothing.mp hnone (2, 2) hreach).2
    ⟨(3, 2), by unfold Beside; decide, by decide +kernel⟩

end InpLabs.Maze.Explore
