/-
  File:      InpLabs/Maze/Walk.lean
  Subject:   **The exploring client walks to the exit** of every maze that has a way to it and fits
             into the client's grid (lab3: lab3_4.py, `main`).

  * `Knows`, `Client.Inv`: what the client knows is true, and it knows where it is;
  * `Knows.place`: the window adds what is beside the player; `turn_spec`, `rounds_spec`: every
    round the client knows more;
  * `main_finds`: the lines sent lead to the exit, and `main` ends when the server says so; where it
    cannot be reached, `main` fails.
-/
import InpLabs.Maze.Clear

namespace InpLabs.Maze.Explore

open InpLabs.Lib Python

/-! ## 1. The loop of the program -/

/-- What the client may take a cell for. -/
structure Alike (c real : Char) : Prop where
  wall : c = '#' ↔ real = '#'
  exit : c = 'E' ↔ real = 'E'
  blank : real ≠ ' '

/-- What a grid says of the maze is true, and its border is not known. -/
structure Knows (world : World) (maze : Grid) : Prop where
  rows : maze.length = mazeSize
  rectangular : Rectangular maze mazeSize
  alike : ∀ q ch, entry maze q = some ch → ch ≠ ' ' → Alike ch (world q)
  border : ∀ q ch, entry maze q = some ch →
    q.1 = 0 ∨ q.1 = 200 ∨ q.2 = 0 ∨ q.2 = 200 → ch = ' '

/-- **The invariant of the client**: what it knows is true, and it knows where it is. -/
structure Client.Inv (world : World) (start : Pos) (c : Client) : Prop
    extends Knows world c.maze where
  here : walk world start c.sent.flatten = some (c.x, c.y)
  star : entry c.maze (c.x, c.y) = some '*'

/-- The cells that are not known yet. -/
noncomputable def unseen (maze : Grid) : Finset Pos :=
  (cells maze mazeSize).filter fun q => entry maze q = some ' '

section Knows

variable {world : World} {start p q : Pos} {maze maze' : Grid}

theorem mem_unseen : q ∈ unseen maze ↔ q ∈ cells maze mazeSize ∧ entry maze q = some ' ' :=
  Finset.mem_filter

theorem shown_blank (h : shown world p q = ' ') : world q = ' ' := by
  unfold shown at h
  split_ifs at h with hq
  · cases h
  · exact h

theorem Alike.plain_iff {ch real : Char} (h : Alike ch real) (hne : ch ≠ ' ') :
    Plain ch ↔ Plain real := by
  unfold Plain
  rw [ne_eq ch '#', ne_eq ch 'E', h.wall, h.exit]
  simp [hne, h.blank]

/-- What looks plain is plain. -/
theorem Knows.plain (h : Knows world maze) (q : Pos) (hq : Plain (known maze q)) :
    Plain (world q) :=
  ((h.alike q _ (entry_of_known hq.2.1) hq.2.1).plain_iff hq.2.1).mp hq

theorem Knows.bordered (h : Knows world maze) : Bordered maze mazeSize := by
  intro q ch hq hb
  refine .inl (h.border q ch hq ?_)
  rw [h.rows] at hb
  simpa [mazeSize] using hb

/-- What the search does to the grid does not make it wrong. -/
theorem Knows.aged (h : Knows world maze) (haged : Aged maze maze') : Knows world maze' where
  rows := haged.length_eq.trans h.rows
  rectangular := haged.rectangular h.rectangular
  alike q ch hq hne := by
    rcases haged.cells q with hsame | ⟨hstar, hdot⟩
    · exact h.alike q ch (hsame ▸ hq) hne
    · obtain ⟨hwall, hexit, hblank⟩ := h.alike q '*' hstar (by decide)
      obtain rfl : ch = '.' := Option.some.inj (hq.symm.trans hdot)
      exact ⟨iff_of_false (by decide) fun hw => absurd (hwall.mpr hw) (by decide),
        iff_of_false (by decide) fun hE => absurd (hexit.mpr hE) (by decide), hblank⟩
  border q ch hq hb := by
    rcases haged.cells q with hsame | ⟨hstar, -⟩
    · exact h.border q ch (hsame ▸ hq) hb
    · exact absurd (h.border q '*' hstar hb) (by decide)

theorem unseen_aged (haged : Aged maze maze') : unseen maze' = unseen maze := by
  unfold unseen cells
  rw [haged.length_eq]
  exact Finset.filter_congr fun q _ => haged.entry_iff (by decide) (by decide)

/-- **The window is placed** around a cell one can walk to: what the grid says is still true, and
nothing that was known is forgotten. -/
theorem Knows.place (h : Knows world maze) (hroom : Roomy world start)
    (hp : Walkable world start p) (hplain : Plain (world p)) :
    ∃ maze', placeView maze (view world p) p.1 p.2 = .ok maze' ∧ Knows world maze' ∧
      entry maze' p = some '*' ∧ unseen maze' ⊆ unseen maze ∧
      ∀ q, Beside p q → q ∉ unseen maze' := by
  obtain ⟨hinside, hwalled⟩ := hroom p hp
  have hrows : 3 ≤ p.1 ∧ p.1 + 3 < maze.length := by
    rw [h.rows]
    unfold mazeSize
    omega
  have hcols : 5 ≤ p.2 ∧ p.2 + 5 < mazeSize := by
    unfold mazeSize
    omega
  obtain ⟨maze', hplace, hentry, hshape⟩ :
      ∃ maze', placeView maze (view world p) p.1 p.2 = .ok maze' ∧ _ :=
    placeView_view h.rectangular hrows hcols
  have hnear : ∀ {q ch}, Near p q → entry maze' q = some ch → ch = shown world p q := by
    intro q ch hq hch
    rw [hentry, if_pos hq] at hch
    exact (Option.some.inj hch).symm
  have hfar : ∀ {q ch}, ¬ Near p q → entry maze' q = some ch → entry maze q = some ch := by
    intro q ch hq hch
    rwa [hentry, if_neg hq] at hch
  have hshown : ∀ q, shown world p q ≠ ' ' → Alike (shown world p q) (world q) := by
    intro q hne
    unfold shown at hne ⊢
    split_ifs at hne ⊢ with hq
    · subst hq
      obtain ⟨hwall, hblank, hexit⟩ := hplain
      exact ⟨iff_of_false (by decide) hwall, iff_of_false (by decide) hexit, hblank⟩
    · exact ⟨Iff.rfl, Iff.rfl, hne⟩
  have hlength : maze'.length = maze.length := by simpa using congrArg List.length hshape
  refine ⟨maze', hplace, ⟨hlength.trans h.rows, fun row hrow => ?_, fun q ch hq hne => ?_,
    fun q ch hq hb => ?_⟩, ?_, fun q hq => ?_, fun q hq hmem => ?_⟩
  · have hmem : row.length ∈ maze.map List.length := hshape ▸ List.mem_map_of_mem hrow
    obtain ⟨row', hrow', hlen⟩ := List.mem_map.mp hmem
    exact hlen.symm.trans (h.rectangular row' hrow')
  · by_cases hin : Near p q
    · obtain rfl := hnear hin hq
      exact hshown q hne
    · exact h.alike q ch (hfar hin hq) hne
  · refine h.border q ch (hfar (fun hin => ?_) hq) hb
    unfold Near at hin
    omega
  · rw [hentry, if_pos (by unfold Near; omega), shown, if_pos rfl]
  · obtain ⟨hcell, hblank⟩ := mem_unseen.mp hq
    have hcell' : q ∈ cells maze mazeSize := by
      unfold cells at hcell ⊢
      rwa [hlength] at hcell
    refine mem_unseen.mpr ⟨hcell', ?_⟩
    by_cases hin : Near p q
    · have hworld := shown_blank (hnear hin hblank).symm
      obtain ⟨ch, hch⟩ : ∃ ch, entry maze q = some ch := by
        refine (exists_entry h.rectangular).mpr ?_
        obtain ⟨hx, hy⟩ := Finset.mem_product.mp hcell'
        exact ⟨Finset.mem_Ico.mp hx, Finset.mem_Ico.mp hy⟩
      by_contra hne
      exact (h.alike q ch hch fun hch' => hne (hch' ▸ hch)).blank hworld
    · exact hfar hin hblank
  · obtain ⟨-, hblank⟩ := mem_unseen.mp hmem
    have hin : Near p q := by
      unfold Beside at hq
      unfold Near
      omega
    exact hwalled q hq (shown_blank (hnear hin hblank).symm)

end Knows

/-! ## 2. The way out -/

section Rounds

variable {world : World} {start p q : Pos} {server : MazeServer} {c : Client} {maze : Grid}

theorem Beside.symm (h : Beside p q) : Beside q p := by
  unfold Beside at h ⊢
  omega

theorem Walkable.symm (hstart : Plain (world start)) (h : Walkable world start p) :
    Walkable world p start := by
  induction h with
  | refl => exact .refl
  | @tail q r hq hstep ih => exact .head ⟨hstep.1.symm, plain_of_walkable hstart hq⟩ ih

/-- The cells one can walk to in the maze, if there is nothing unknown beside what the client can
reach. -/
theorem Knows.reachable (h : Knows world maze) (hopen : Open maze start)
    (hedge : ∀ p, Reachable maze start p → ¬ Edge maze p) (hp : Walkable world start p) :
    Reachable maze start p ∧
      ∀ q, Beside p q → ∃ ch, entry maze q = some ch ∧ Alike ch (world q) := by
  have hbeside : ∀ {p}, Reachable maze start p → ∀ q, Beside p q →
      ∃ ch, entry maze q = some ch ∧ Alike ch (world q) ∧ ch ≠ ' ' := by
    intro p hp q hq
    obtain ⟨ch, hch⟩ :=
      entry_of_beside h.rectangular h.bordered (allowed_of_reachable hp hopen) hq
    have hne : ch ≠ ' ' := fun hblank => hedge p hp ⟨q, hq, hblank ▸ hch⟩
    exact ⟨ch, hch, h.alike q ch hch hne, hne⟩
  have hreach : Reachable maze start p := by
    induction hp with
    | refl => exact .refl
    | @tail p q _ hstep ih =>
      obtain ⟨ch, hch, halike, hne⟩ := hbeside ih q hstep.1
      exact ih.tail ⟨hstep.1, ch, hch, hne, ((halike.plain_iff hne).mpr hstep.2).1⟩
  refine ⟨hreach, fun q hq => ?_⟩
  obtain ⟨ch, hch, halike, -⟩ := hbeside hreach q hq
  exact ⟨ch, hch, halike⟩

/-- What a round comes to: the client knows more, or the way out was sent, or there is none. -/
structure Goes (world : World) (start : Pos) (c c' : Client) : Prop where
  inv : c'.Inv world start
  unseen : (unseen c'.maze).card < (unseen c.maze).card
  sent : c'.sent.length = c.sent.length + 1

/-- What `updateMaze` makes of the reply at the exit. -/
theorem updateMaze_exit (server : MazeServer) (sent : List (List Char)) : Answered server sent
    (if (recvlineContains "BINGO!".toList (server sent)).isSome then .found sent
      else .waits sent) := by
  constructor
  · exact fun h => if_pos (recvlineContains_isSome.mpr h)
  · exact fun h => if_neg fun hsome => h (recvlineContains_isSome.mp hsome)

/-- **One round of the program.** -/
theorem turn_spec (hroom : Roomy world start) (hhonest : Honest world start server)
    (hstart : Plain (world start)) (hc : c.Inv world start) : ∃ N r,
      (∀ limit, N < limit → turn limit server c = .ok (some r)) ∧
      ((∃ c', r = .inl c' ∧ Goes world start c c') ∨
        (∃ sent e, r = .inr e ∧ Answered server sent e ∧ LeadsOut world start sent.flatten ∧
          sent.length = c.sent.length + 1) ∨
        r = .inr .typeError ∧ ¬ HasExit world start) := by
  have hknown : Plain (known c.maze (c.x, c.y)) := by
    rw [known_of_entry hc.star]
    decide
  obtain ⟨N, found, maze', hrun, hout, hclear⟩ :=
    getPath_clear hc.rectangular hc.bordered hknown
  have hhas : (c.maze.any (·.contains '*')) = true := by
    obtain ⟨-, -, row, hrow, hget⟩ := entry_eq_some.mp hc.star
    exact List.any_eq_true.mpr ⟨row, List.mem_of_getElem? hrow, by
      simpa using List.mem_of_getElem? hget⟩
  have hturn : ∀ limit, N < limit → turn limit server c =
      (updateMaze server c.sent found maze' >>= fun r => .ok (some r)) := by
    intro limit hlimit
    unfold turn
    rw [if_pos hhas, hrun limit hlimit, ok_bind]
    rfl
  have hwalk := walkable_of_walk hc.here
  cases hpath : found.path with
  | none =>
    refine ⟨N, _, fun limit hlimit => ?_, .inr (.inr ⟨rfl, ?_⟩)⟩
    · rw [hturn limit hlimit, updateMaze, hpath]
      rfl
    · rintro ⟨p, q, hp, hq, hE⟩
      have hnothing := hout.nothing.mp hpath
      obtain ⟨hreach, hbeside⟩ := hc.toKnows.reachable (open_of_plain hknown)
        (fun p hp => (hnothing p hp).2) ((Walkable.symm hstart hwalk).trans hp)
      obtain ⟨ch, hch, halike⟩ := hbeside q hq
      have hchE : ch = 'E' := halike.exit.mpr hE
      subst hchE
      exact (hnothing q (hreach.tail ⟨hq, _, hch, by decide, by decide⟩)).1 hch
  | some path =>
    obtain ⟨path', hclear⟩ := hclear (by rw [hpath]; exact Option.some_ne_none path)
    obtain rfl : path = path' := Option.some.inj (hpath.symm.trans hclear.path_eq)
    have hsent : (c.sent ++ [path]).flatten = c.sent.flatten ++ path := by simp
    cases hexit : found.findExit with
    | true =>
      refine ⟨N, _, fun limit hlimit => ?_,
        .inr (.inl ⟨c.sent ++ [path], _, rfl, updateMaze_exit server _, ?_, by simp⟩)⟩
      · rw [hturn limit hlimit, updateMaze, hpath]
        simp only [hexit, if_pos]
        rfl
      · obtain ⟨front, move, p, rfl, hfront, htarget, hE⟩ := hclear.exit hexit
        have hknown : known c.maze (found.x, found.y) ≠ ' ' := by
          rw [hE]
          decide
        have hentry := entry_of_known hknown
        refine ⟨c.sent.flatten ++ front, move, p, _, ?_, ?_, htarget, ?_⟩
        · rw [hsent, List.append_assoc]
        · exact (follow_append hc.here).trans (follow_mono hc.plain hfront)
        · exact (hc.alike _ _ hentry (by rw [hE]; decide)).exit.mp hE
    | false =>
      have hhere : walk world start (c.sent ++ [path]).flatten = some (found.x, found.y) := by
        rw [hsent]
        exact (follow_append hc.here).trans (follow_mono hc.plain (hclear.edge hexit))
      have hthere := walkable_of_walk hhere
      obtain ⟨maze'', hplace, hknows, hstar, hsub, hbeside⟩ :=
        (hc.toKnows.aged hout.aged).place hroom hthere (plain_of_walkable hstart hthere)
      have hread : mazeParser (server (c.sent ++ [path])) =
          .ok (view world (found.x, found.y)) :=
        mazeParser_shows (hhonest _ _ hhere) (view_length _ _)
      refine ⟨N, _, fun limit hlimit => ?_,
        .inl ⟨⟨maze'', found.x, found.y, c.sent ++ [path]⟩, rfl, ⟨hknows, hhere, hstar⟩, ?_,
          by simp⟩⟩
      · rw [hturn limit hlimit, updateMaze, hpath]
        simp only [hexit, Bool.false_eq_true, if_false, hread, ok_bind]
        simp only at hplace
        rw [hplace]
        rfl
      · -- the unknown cell beside the end of the path is known now
        rw [unseen_aged hout.aged] at hsub
        obtain ⟨q, hq, hblank⟩ := (hout.leads (by rw [hpath]; exact Option.some_ne_none path)).edge
          hexit
        obtain ⟨hx, hy⟩ := (exists_entry hc.rectangular).mp ⟨_, hblank⟩
        refine Finset.card_lt_card ((Finset.ssubset_iff_of_subset hsub).mpr
          ⟨q, mem_unseen.mpr ⟨?_, hblank⟩, hbeside q hq⟩)
        exact Finset.mem_product.mpr ⟨Finset.mem_Ico.mpr hx, Finset.mem_Ico.mpr hy⟩

/-- **All rounds**: one for every cell that is not known, and one more. -/
theorem rounds_spec (hroom : Roomy world start) (hhonest : Honest world start server)
    (hstart : Plain (world start)) (hc : c.Inv world start) : ∃ N e,
      (∀ limit n, N < limit → N < n → rounds limit server n c = .ok (some e)) ∧
      ((∃ sent, Answered server sent e ∧ LeadsOut world start sent.flatten ∧
          sent.length ≤ c.sent.length + (unseen c.maze).card + 1) ∨
        e = .typeError ∧ ¬ HasExit world start) := by
  induction h : (unseen c.maze).card using Nat.strongRecOn generalizing c with
  | _ k ih =>
    obtain ⟨N, r, hturn, hcases⟩ := turn_spec hroom hhonest hstart hc
    have hround : ∀ limit n, N < limit → rounds limit server (n + 1) c = (match r with
        | .inl c => rounds limit server n c
        | .inr e => .ok (some e)) := by
      intro limit n hlimit
      rw [rounds, hturn limit hlimit]
      cases r <;> rfl
    rcases hcases with ⟨c', rfl, hgoes⟩ | ⟨sent, e, rfl, hend, hout, hlength⟩ | ⟨rfl, hno⟩
    · obtain ⟨M, e, hrounds, he⟩ := ih _ (h ▸ hgoes.unseen) hgoes.inv rfl
      refine ⟨max N M + 1, e, fun limit n hlimit hn => ?_, he.imp_left ?_⟩
      · obtain ⟨n, rfl⟩ := Nat.exists_eq_succ_of_ne_zero (Nat.ne_zero_of_lt hn)
        rw [hround limit n (by omega)]
        exact hrounds limit n (by omega) (by omega)
      · rintro ⟨sent, hend, hout, hlength⟩
        have hsent := hgoes.sent
        have hlt := hgoes.unseen
        exact ⟨sent, hend, hout, by omega⟩
    · refine ⟨N, _, fun limit n hlimit hn => ?_, .inl ⟨sent, hend, hout, by omega⟩⟩
      obtain ⟨n, rfl⟩ := Nat.exists_eq_succ_of_ne_zero (Nat.ne_zero_of_lt hn)
      exact hround limit n hlimit
    · refine ⟨N, _, fun limit n hlimit hn => ?_, .inr ⟨rfl, hno⟩⟩
      obtain ⟨n, rfl⟩ := Nat.exists_eq_succ_of_ne_zero (Nat.ne_zero_of_lt hn)
      exact hround limit n hlimit

theorem LeadsOut.hasExit {path : List Char} (h : LeadsOut world start path) :
    HasExit world start := by
  obtain ⟨front, move, p, q, -, hwalk, htarget, hE⟩ := h
  exact ⟨p, q, walkable_of_walk hwalk, beside_of_target htarget, hE⟩

theorem entry_unknown {ch : Char} (h : entry unknown q = some ch) : ch = ' ' := by
  obtain ⟨-, -, row, hrow, hget⟩ := entry_eq_some.mp h
  rw [List.eq_of_mem_replicate (List.mem_of_getElem? hrow)] at hget
  exact List.eq_of_mem_replicate (List.mem_of_getElem? hget)

theorem knows_unknown (world : World) : Knows world unknown where
  rows := List.length_replicate
  rectangular row hrow := by
    rw [List.eq_of_mem_replicate hrow, List.length_replicate]
  alike q ch hq hne := absurd (entry_unknown hq) hne
  border q ch hq _ := entry_unknown hq

theorem unseen_card_le (hrows : maze.length = mazeSize) :
    (unseen maze).card ≤ mazeSize * mazeSize := by
  refine (Finset.card_filter_le _ _).trans (Nat.le_of_eq ?_)
  rw [cells, Finset.card_product, Int.card_Ico, Int.card_Ico, hrows]
  simp

end Rounds

/-- **The program, against a server that shows the cells around the player**: if the maze has a way
to the exit, it is sent, after at most one line for every cell of the grid, and `main` ends if the
server then says `BINGO!` in a line, and waits for that if it does not. If there is no way, `main`
ends with the error of joining `None`. -/
theorem main_finds (world : World) (server : MazeServer) (hstart : Plain (world (100, 100)))
    (hroom : Roomy world (100, 100)) (hhonest : Honest world (100, 100) server) :
    (HasExit world (100, 100) → ∃ N sent e,
      (∀ limit, N < limit → main limit server = .ok (some e)) ∧ Answered server sent e ∧
        LeadsOut world (100, 100) sent.flatten ∧ sent.length ≤ mazeSize * mazeSize + 1) ∧
    (¬ HasExit world (100, 100) →
      ∃ N, ∀ limit, N < limit → main limit server = .ok (some .typeError)) := by
  obtain ⟨maze, hplace, hknows, hstar, -, -⟩ :=
    (knows_unknown world).place hroom .refl hstart
  have hread : mazeParser (server []) = .ok (view world (100, 100)) :=
    mazeParser_shows (hhonest [] _ rfl) (view_length _ _)
  obtain ⟨N, e, hrounds, he⟩ := rounds_spec (c := ⟨maze, 100, 100, []⟩) hroom hhonest hstart
    ⟨hknows, rfl, hstar⟩
  have hmain : ∀ limit, N < limit → main limit server = .ok (some e) := by
    intro limit hlimit
    unfold main
    simp only at hplace
    rw [hread, ok_bind, hplace, ok_bind]
    exact hrounds limit limit hlimit hlimit
  have hcard := unseen_card_le hknows.rows
  rcases he with ⟨sent, hend, hout, hlength⟩ | ⟨rfl, hno⟩
  · refine ⟨fun _ => ⟨N, sent, e, hmain, hend, hout, hlength.trans ?_⟩,
      fun hno => absurd hout.hasExit hno⟩
    simp only [List.length_nil, Nat.zero_add]
    omega
  · exact ⟨fun hexit => absurd hexit hno, fun _ => ⟨N, hmain⟩⟩

/-- A corridor with the exit at its end. -/
def corridor : World := fun q =>
  if q.1 = 100 ∧ 100 ≤ q.2 ∧ q.2 ≤ 106 then '.' else if q = (100, 107) then 'E' else '#'

theorem corridor_walkable {p : Pos} (h : Walkable corridor (100, 100) p) :
    p.1 = 100 ∧ 100 ≤ p.2 ∧ p.2 ≤ 106 := by
  induction h with
  | refl => decide
  | tail _ hstep =>
    by_contra hout
    obtain ⟨-, hwall, -, hexit⟩ := hstep
    unfold corridor at hwall hexit
    rw [if_neg hout] at hwall hexit
    split_ifs at hwall hexit
    · exact hexit rfl
    · exact hwall rfl

theorem corridor_walkable_end : Walkable corridor (100, 100) (100, 106) := by
  have hwalk : walk corridor (100, 100) "DDDDDD".toList = some (100, 106) := by decide
  exact walkable_of_walk hwalk

theorem main_finds_corridor : ∃ N sent,
    (∀ limit, N < limit →
      main limit (serverOf corridor (100, 100)) = .ok (some (.found sent))) ∧
    LeadsOut corridor (100, 100) sent.flatten ∧ sent.length ≤ mazeSize * mazeSize + 1 := by
  have hcells : ∀ q, corridor q ≠ 'a' ∧ corridor q ≠ '\n' ∧ corridor q ≠ ' ' := by
    intro q
    unfold corridor
    split_ifs <;> decide
  have hroom : Roomy corridor (100, 100) := by
    intro p hp
    have hin := corridor_walkable hp
    exact ⟨by omega, fun q _ => (hcells q).2.2⟩
  have hexit : HasExit corridor (100, 100) :=
    ⟨(100, 106), (100, 107), corridor_walkable_end, by unfold Beside; decide, by decide⟩
  obtain ⟨N, sent, e, hmain, hend, hout, hlength⟩ :=
    (main_finds corridor _ (by decide) hroom
      (serverOf_honest _ _ fun q => ⟨(hcells q).1, (hcells q).2.1⟩)).1 hexit
  rw [hend.1 (serverOf_announces hout)] at hmain
  exact ⟨N, sent, hmain, hout, hlength⟩

end InpLabs.Maze.Explore
