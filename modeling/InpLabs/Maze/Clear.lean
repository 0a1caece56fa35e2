/-
  File:      InpLabs/Maze/Clear.lean
  Subject:   A path of `getPath` does not go over the exit before its end (lab3: lab3_4.py).

  * `known`: the client's grid as a maze;
  * `Explorer.OnPaths`: every entry of the stack is where its path leads, over plain cells;
    `look_clear`, `pass_clear`, `loop_clear` keep it;
  * `getPath_clear`: what the function returns, with a path that is clear.
-/
import InpLabs.Maze.World

namespace InpLabs.Maze.Explore

open InpLabs.Lib Python

/-! ## 1. Clear paths -/

/-- The grid as a maze. -/
def known (maze : Grid) : World := fun q => (entry maze q).getD ' '

/-- A path that goes to the exit only at its end. -/
structure Clear (maze : Grid) (start : Pos) (found : Found) (path : List Char) : Prop where
  path_eq : found.path = some path
  edge : found.findExit = false → walk (known maze) start path = some (found.x, found.y)
  exit : found.findExit = true → ∃ front move p, path = front ++ [move] ∧
    walk (known maze) start front = some p ∧ target p move = some (found.x, found.y) ∧
      known maze (found.x, found.y) = 'E'

/-- The entries of the stack are where their paths lead. -/
structure Explorer.OnPaths (maze : Grid) (start : Pos) (s : Explorer) : Prop where
  aged : Aged maze s.maze
  paths : ∀ e ∈ s.stack, walk (known maze) start e.path = some (e.x, e.y)

/-- What a round of the search promises. -/
def Passed (maze : Grid) (start : Pos) : (Found × Grid) ⊕ Explorer → Prop
  | .inl r => ∃ path, Clear maze start r.1 path
  | .inr s => s.OnPaths maze start

section Clear

variable {maze maze' : Grid} {start p q : Pos} {s : Explorer} {e : Entry} {path : List Char}
  {move : Char} {world world' : World}

theorem bind_ok {ε : Type*} {α β : Type} {x : Except ε α} {f : α → Except ε β} {b : β}
    (h : (x >>= f) = .ok b) : ∃ a, x = .ok a ∧ f a = .ok b := by
  cases x with
  | error err => cases h
  | ok a => exact ⟨a, rfl, h⟩

theorem known_of_entry {c : Char} (h : entry maze q = some c) : known maze q = c := by
  rw [known, h]
  rfl

theorem entry_of_known (h : known maze q ≠ ' ') : entry maze q = some (known maze q) := by
  unfold known at h ⊢
  cases hq : entry maze q with
  | none =>
    rw [hq] at h
    exact absurd rfl h
  | some c => rfl

/-- Stars and dots are plain. -/
theorem Aged.plain_iff (h : Aged maze maze') (q : Pos) :
    Plain (known maze' q) ↔ Plain (known maze q) := by
  rcases h.cells q with hq | ⟨hq, hq'⟩
  · rw [known, hq]
    rfl
  · rw [known_of_entry hq, known_of_entry hq']
    decide

theorem entry_of_index2 {c : Char} (hx : 0 ≤ q.1 ∧ q.1 < maze.length) (hy : 0 ≤ q.2)
    (hwidth : ∀ row ∈ maze, q.2 < row.length) (h : index2 maze q.1 q.2 = .ok c) :
    entry maze q = some c := by
  have hi : q.1.toNat < maze.length := by omega
  have hj : q.2.toNat < maze[q.1.toNat].length := by
    have hlt := hwidth _ (List.getElem_mem hi)
    omega
  have hentry : entry maze q = some maze[q.1.toNat][q.2.toNat] :=
    entry_eq_some.mpr ⟨hx.1, hy, _, List.getElem?_eq_getElem hi, List.getElem?_eq_getElem hj⟩
  rw [index2_of_entry hentry] at h
  rw [hentry, Except.ok.inj h]

end Clear

/-! ## 2. The search -/

section Search

variable {maze : Grid} {width : Nat} {start q : Pos} {s : Explorer} {e : Entry}
  {r : (Found × Grid) ⊕ Explorer}

/-- A cell that is new is inside of the grid, and no wall. -/
theorem fresh_true (hrect : Rectangular s.maze width) (h : fresh s q.1 q.2 = .ok true) :
    ∃ c, entry s.maze q = some c ∧ c ≠ '#' := by
  unfold fresh at h
  split_ifs at h with hx
  · obtain ⟨row, hrow, h⟩ := bind_ok h
    split_ifs at h with hy
    · obtain ⟨c, hc, h⟩ := bind_ok h
      split_ifs at h with hwall
      · cases h
      · have hrow' : row.length = width := by
          have hfirst : index s.maze 0 = .ok s.maze[0] :=
            index_of_get? (Int.le_refl 0) (by simp [show 0 < s.maze.length by omega])
          rw [hfirst] at hrow
          exact Except.ok.inj hrow ▸ hrect _ (List.getElem_mem _)
        refine ⟨c, entry_of_index2 hx hy.1 (fun row' hmem => ?_) hc, hwall⟩
        have hlen := hrect row' hmem
        omega
    · cases h
  · cases h

theorem open_of_plain (h : Plain (known maze q)) : Open maze q :=
  ⟨_, entry_of_known h.2.1, h.2.1, h.1⟩

/-- **The loop over the moves** returns a clear path, or puts plain cells on the stack. -/
theorem look_clear (hrect : Rectangular maze width) (hborder : Bordered maze width)
    (hplain : Plain (known maze (e.x, e.y)))
    (he : walk (known maze) start e.path = some (e.x, e.y)) (ms : List ((Int × Int) × Char))
    (hms : ∀ m ∈ ms, m ∈ moves.zip moveSymbols) (hs : s.OnPaths maze start)
    (hlook : look e ms s = .ok r) : Passed maze start r := by
  induction ms generalizing s with
  | nil =>
    cases hlook
    exact hs
  | cons m ms ih =>
    obtain ⟨d, symbol⟩ := m
    obtain ⟨hm, hms⟩ := List.forall_mem_cons.mp hms
    have htarget : target (e.x, e.y) symbol = some (e.x + d.1, e.y + d.2) := mem_moves hm
    obtain ⟨b, hb⟩ :=
      entry_of_beside hrect hborder (open_of_plain hplain) (beside_of_target htarget)
    obtain ⟨c, hc⟩ := hs.aged.entry_some hb
    have hread := index2_of_entry hc
    unfold look at hlook
    simp only at hread hlook
    rw [hread, ok_bind] at hlook
    by_cases hblank : c = ' '
    · rw [if_pos hblank] at hlook
      cases hlook
      exact ⟨e.path, rfl, fun _ => he, fun h => by cases h⟩
    rw [if_neg hblank] at hlook
    by_cases hexit : c = 'E'
    · subst hexit
      rw [if_pos rfl] at hlook
      cases hlook
      have hE := known_of_entry ((hs.aged.entry_iff (by decide) (by decide)).mp hc)
      exact ⟨e.path ++ [symbol], rfl, (fun h => by cases h),
        fun _ => ⟨e.path, symbol, _, rfl, he, htarget, hE⟩⟩
    rw [if_neg hexit] at hlook
    obtain ⟨new, hnew, hlook⟩ := bind_ok hlook
    cases new with
    | false => exact ih hms hs hlook
    | true =>
      obtain ⟨visited, -, hlook⟩ := bind_ok hlook
      have hwall : c ≠ '#' := by
        obtain ⟨c', hc', hwall⟩ :=
          fresh_true (q := (e.x + d.1, e.y + d.2)) (hs.aged.rectangular hrect) hnew
        exact Option.some.inj (hc'.symm.trans hc) ▸ hwall
      have hnext : Plain (known maze (e.x + d.1, e.y + d.2)) := by
        rw [← hs.aged.plain_iff, known_of_entry hc]
        exact ⟨hwall, hblank, hexit⟩
      refine ih hms (s := ⟨s.maze, visited, _ :: s.stack⟩) ⟨hs.aged, fun e' he' => ?_⟩ hlook
      rcases List.mem_cons.mp he' with rfl | he'
      · exact follow_snoc he htarget hnext
      · exact hs.paths e' he'

/-- **One round** of the search. -/
theorem pass_clear (hrect : Rectangular maze width) (hborder : Bordered maze width)
    (hstart : Plain (known maze start)) (hs : s.OnPaths maze start) {rest : List Entry}
    (hstack : s.stack = e :: rest) (hpass : pass e { s with stack := rest } = .ok r) :
    Passed maze start r := by
  have he := hs.paths e (hstack ▸ List.mem_cons_self)
  have hplain := plain_of_walkable hstart (walkable_of_walk he)
  obtain ⟨c, hc⟩ := hs.aged.entry_some (entry_of_known hplain.2.1)
  have hread := index2_of_entry hc
  unfold pass at hpass
  simp only at hread hpass
  rw [hread, ok_bind] at hpass
  have hne : c ≠ 'E' := by
    rw [← known_of_entry hc]
    exact ((hs.aged.plain_iff _).mpr hplain).2.2
  obtain ⟨maze', hmark, haged⟩ := hs.aged.mark hc
  simp only at hmark
  rw [if_neg hne, hmark, ok_bind] at hpass
  refine look_clear hrect hborder hplain he _ (fun _ h => h) ⟨haged, fun e' he' => ?_⟩ hpass
  exact hs.paths e' (hstack ▸ List.mem_cons_of_mem _ he')

/-- **The search** returns a clear path, if it returns one. -/
theorem loop_clear (hrect : Rectangular maze width) (hborder : Bordered maze width)
    (hstart : Plain (known maze start)) {limit : Nat} {last : Entry} {found : Found} {maze' : Grid}
    (hs : s.OnPaths maze start) (hloop : loop limit last s = .ok (some (found, maze')))
    (hpath : found.path ≠ none) : ∃ path, Clear maze start found path := by
  induction limit generalizing last s with
  | zero => cases hloop
  | succ limit ih =>
    rw [loop] at hloop
    split at hloop
    · cases hloop
      exact absurd rfl hpath
    · rename_i e rest hstack
      obtain ⟨r, hpass, hloop⟩ := bind_ok hloop
      have hpassed := pass_clear hrect hborder hstart hs hstack hpass
      cases r with
      | inl r =>
        cases hloop
        exact hpassed
      | inr s' => exact ih hpassed hloop

theorem getPath_clear (hrect : Rectangular maze width) (hborder : Bordered maze width)
    (hstart : Plain (known maze start)) : ∃ N found maze',
      (∀ limit, N < limit → getPath limit maze start.1 start.2 = .ok (some (found, maze'))) ∧
      Outcome maze start found maze' ∧
      (found.path ≠ none → ∃ path, Clear maze start found path) := by
  have hentry := entry_of_known hstart.2.1
  have hlen : 0 < maze.length := by
    obtain ⟨hx, -⟩ := (exists_entry hrect).mp ⟨_, hentry⟩
    omega
  obtain ⟨found, maze', hloop, hout⟩ := loop_returns hrect hborder (open_of_plain hstart)
    (1 + (cells maze width).card) ⟨start.1, start.2, [], false⟩
    (start_inv hrect start.1 start.2) (Nat.le_refl _)
  refine ⟨1 + (cells maze width).card, found, maze', fun limit hlimit => ?_, hout, fun hpath => ?_⟩
  · rw [getPath_eq_loop hrect hlen]
    exact hloop limit hlimit
  · refine loop_clear hrect hborder hstart ⟨.refl maze, fun e he => ?_⟩
      (hloop _ (Nat.lt_succ_self _)) hpath
    obtain rfl := List.mem_singleton.mp he
    rfl

end Search

end InpLabs.Maze.Explore
