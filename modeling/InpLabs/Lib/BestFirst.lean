/-
  File:      InpLabs/Lib/BestFirst.lean
  Subject:   Best-first search on a graph whose edges all cost one: the invariant of A* with a
             consistent estimate, when closed vertices are not opened again.

  * `Walk`: the walks of a given length from a vertex; `Consistent`: an estimate that drops by one
    at most along an edge;
  * `Frontier`: the queue, the closed vertices, the costs and the parents found so far. The queue
    may hold an entry of a vertex more than once, with what its cost was when the entry was made.
    `todo` are the edges still to be looked at;
  * `Frontier.least_optimal`: the cost of a vertex with a least entry is its distance;
  * `Frontier.settle`, `skip`, `improve`: closing a vertex and looking at one of its edges;
  * `Frontier.all_closed`: with an empty queue every vertex that can be reached is closed.
-/
import Mathlib

namespace InpLabs.Lib

variable {V : Type*}

/-! ## 1. Walks -/

/-- The vertices at the end of a walk of `n` edges from `u`. -/
inductive Walk (Adj : V → V → Prop) (u : V) : Nat → V → Prop where
  | nil : Walk Adj u 0 u
  | snoc {n : Nat} {v w : V} (h : Walk Adj u n v) (hvw : Adj v w) : Walk Adj u (n + 1) w

theorem Walk.of_reflTransGen {Adj : V → V → Prop} {u v : V} (h : Relation.ReflTransGen Adj u v) :
    ∃ n, Walk Adj u n v := by
  induction h with
  | refl => exact ⟨0, .nil⟩
  | tail _ hvw ih =>
    obtain ⟨n, hn⟩ := ih
    exact ⟨n + 1, hn.snoc hvw⟩

theorem Walk.reflTransGen {Adj : V → V → Prop} {u v : V} {n : Nat} (h : Walk Adj u n v) :
    Relation.ReflTransGen Adj u v := by
  induction h with
  | nil => exact .refl
  | snoc _ hvw ih => exact ih.tail hvw

/-- The estimate is one more at most than at a neighbour. -/
def Consistent (Adj : V → V → Prop) (h : V → Nat) : Prop := ∀ u v, Adj u v → h u ≤ h v + 1

/-! ## 2. The invariant -/

/-- A search from `start`: `opened` are the entries of the queue, each a priority and a vertex. -/
structure Frontier (Adj : V → V → Prop) (h : V → Nat) (start : V) (todo : V → V → Prop)
    (opened : Set (Nat × V)) (closed : Set V) (cost : V → Option Nat) (parent : V → Option V) :
    Prop where
  start_cost : cost start = some 0
  /-- An entry was made when the cost of its vertex was no less than it is now. -/
  entry : ∀ p v, (p, v) ∈ opened → ∃ g, cost v = some g ∧ (v = start ∨ g + h v ≤ p)
  /-- A vertex with a cost is closed, or has an entry for that cost. -/
  queued : ∀ v g, cost v = some g → v ∈ closed ∨ ∃ p, p ≤ g + h v ∧ (p, v) ∈ opened
  closed_cost : ∀ u ∈ closed, ∃ g, cost u = some g
  /-- The costs of the closed vertices are their distances. -/
  optimal : ∀ u ∈ closed, ∀ g, cost u = some g → ∀ n, Walk Adj start n u → g ≤ n
  /-- A cost is one more than that of the parent, which is closed. -/
  back : ∀ v g, cost v = some g → (v = start ∧ g = 0) ∨
    ∃ u g', parent v = some u ∧ u ∈ closed ∧ cost u = some g' ∧ Adj u v ∧ g = g' + 1
  /-- The edges of the closed vertices have been looked at, but for those in `todo`. -/
  relaxed : ∀ u ∈ closed, ∀ v, Adj u v → ¬ todo u v → ∀ g, cost u = some g →
    ∃ g', cost v = some g' ∧ g' ≤ g + 1

namespace Frontier

variable {Adj : V → V → Prop} {h : V → Nat} {start cur : V} {todo todo' : V → V → Prop}
  {opened opened' : Set (Nat × V)} {closed : Set V} {cost : V → Option Nat}
  {parent : V → Option V} {p g : Nat}

/-- The start: its own entry, of any priority up to the estimate, and nothing else. -/
theorem init [DecidableEq V] (todo : V → V → Prop) (start : V) (hp : p ≤ h start) :
    Frontier Adj h start todo {(p, start)} ∅ (fun v => if v = start then some 0 else none)
      (fun _ => none) where
  start_cost := if_pos rfl
  entry q v hv := by
    cases hv
    exact ⟨0, if_pos rfl, .inl rfl⟩
  queued v g hg := by
    split_ifs at hg with hv
    subst hv
    exact .inr ⟨p, Nat.le_trans hp (Nat.le_add_left _ _), rfl⟩
  closed_cost u hu := absurd hu (Set.notMem_empty u)
  optimal u hu := absurd hu (Set.notMem_empty u)
  back v g hg := by
    split_ifs at hg with hv
    exact .inl ⟨hv, (Option.some.inj hg).symm⟩
  relaxed u hu := absurd hu (Set.notMem_empty u)

theorem mono (hf : Frontier Adj h start todo opened closed cost parent)
    (htodo : ∀ u ∈ closed, ∀ v, Adj u v → todo u v → todo' u v) :
    Frontier Adj h start todo' opened closed cost parent :=
  { hf with relaxed := fun u hu v hv hno => hf.relaxed u hu v hv (mt (htodo u hu v hv) hno) }

/-! ## 3. What the costs mean -/

/-- A cost is the length of a walk. -/
theorem walk (hf : Frontier Adj h start todo opened closed cost parent) {v : V}
    (hg : cost v = some g) : Walk Adj start g v := by
  induction g generalizing v with
  | zero =>
    rcases hf.back v 0 hg with ⟨rfl, -⟩ | ⟨u, g', -, -, -, -, hg'⟩
    · exact .nil
    · cases hg'
  | succ g ih =>
    rcases hf.back v (g + 1) hg with ⟨-, h0⟩ | ⟨u, g', -, -, hu, hadj, hg'⟩
    · cases h0
    · cases hg'
      exact (ih hu).snoc hadj

/-- On a walk to a vertex that is not closed, the first vertex that is not closed has an entry for
    at most its place on the walk. -/
theorem on_walk (hf : Frontier Adj h start (fun _ _ => False) opened closed cost parent)
    (hh : Consistent Adj h) {n : Nat} {v : V} (hw : Walk Adj start n v) (hv : v ∉ closed) :
    ∃ p w, (p, w) ∈ opened ∧ p ≤ n + h v := by
  induction hw with
  | nil =>
    obtain ⟨p, hp, hmem⟩ := (hf.queued start 0 hf.start_cost).resolve_left hv
    exact ⟨p, start, hmem, hp⟩
  | @snoc n u v hw hadj ih =>
    by_cases hu : u ∈ closed
    · -- the vertex before it is closed, at its distance
      obtain ⟨gu, hgu⟩ := hf.closed_cost u hu
      obtain ⟨gv, hgv, hle⟩ := hf.relaxed u hu v hadj not_false gu hgu
      have hopt := hf.optimal u hu gu hgu n hw
      obtain ⟨p, hp, hmem⟩ := (hf.queued v gv hgv).resolve_left hv
      exact ⟨p, v, hmem, by omega⟩
    · obtain ⟨p, w, hmem, hp⟩ := ih hu
      have := hh u v hadj
      exact ⟨p, w, hmem, by omega⟩

/-- **A vertex with a least entry costs its distance.** -/
theorem least_optimal (hf : Frontier Adj h start (fun _ _ => False) opened closed cost parent)
    (hh : Consistent Adj h) (hmem : (p, cur) ∈ opened) (hmin : ∀ e ∈ opened, p ≤ e.1)
    (hg : cost cur = some g) {n : Nat} (hw : Walk Adj start n cur) : g ≤ n := by
  by_cases hc : cur ∈ closed
  · exact hf.optimal cur hc g hg n hw
  · obtain ⟨g', hg', hentry⟩ := hf.entry p cur hmem
    obtain rfl : g' = g := Option.some.inj (hg'.symm.trans hg)
    rcases hentry with rfl | hle
    · have h0 : g' = 0 := Option.some.inj (hg.symm.trans hf.start_cost)
      omega
    · obtain ⟨q, w, hq, hqn⟩ := hf.on_walk hh hw hc
      have := hmin _ hq
      simp only at this
      omega

/-- **With an empty queue** every vertex that can be reached is closed. -/
theorem all_closed (hf : Frontier Adj h start (fun _ _ => False) ∅ closed cost parent) {n : Nat}
    {v : V} (hw : Walk Adj start n v) : v ∈ closed := by
  have hclosed : ∀ v g, cost v = some g → v ∈ closed := fun v g hg =>
    (hf.queued v g hg).resolve_right fun ⟨_, _, hmem⟩ => hmem
  induction hw with
  | nil => exact hclosed start 0 hf.start_cost
  | snoc _ hadj ih =>
    obtain ⟨gu, hgu⟩ := hf.closed_cost _ ih
    obtain ⟨gv, hgv, -⟩ := hf.relaxed _ ih _ hadj not_false gu hgu
    exact hclosed _ gv hgv

/-! ## 4. The steps of a search -/

/-- An entry of a vertex that is closed already may go. -/
theorem drop (hf : Frontier Adj h start todo opened closed cost parent) (hc : cur ∈ closed)
    (hsub : opened' ⊆ opened) (hkeep : ∀ e ∈ opened, e.2 ≠ cur → e ∈ opened') :
    Frontier Adj h start todo opened' closed cost parent where
  start_cost := hf.start_cost
  entry p v hmem := hf.entry p v (hsub hmem)
  queued v g hg := by
    by_cases hv : v = cur
    · exact .inl (hv ▸ hc)
    · exact (hf.queued v g hg).imp_right fun ⟨p, hp, hmem⟩ => ⟨p, hp, hkeep _ hmem hv⟩
  closed_cost := hf.closed_cost
  optimal := hf.optimal
  back := hf.back
  relaxed := hf.relaxed

/-- A vertex with a least entry is closed; its edges are still to be looked at. -/
theorem settle (hf : Frontier Adj h start (fun _ _ => False) opened closed cost parent)
    (hh : Consistent Adj h) (hmem : (p, cur) ∈ opened) (hmin : ∀ e ∈ opened, p ≤ e.1)
    (hsub : opened' ⊆ opened) (hkeep : ∀ e ∈ opened, e.2 ≠ cur → e ∈ opened') :
    Frontier Adj h start (fun u _ => u = cur) opened' (insert cur closed) cost parent where
  start_cost := hf.start_cost
  entry p v hmem := hf.entry p v (hsub hmem)
  queued v g hg := by
    by_cases hv : v = cur
    · exact .inl (.inl hv)
    · rcases hf.queued v g hg with hc | ⟨p, hp, hmem⟩
      · exact .inl (.inr hc)
      · exact .inr ⟨p, hp, hkeep _ hmem hv⟩
  closed_cost u hu := by
    rcases hu with rfl | hu
    · obtain ⟨g, hg, -⟩ := hf.entry p u hmem
      exact ⟨g, hg⟩
    · exact hf.closed_cost u hu
  optimal u hu g hg n hw := by
    rcases hu with rfl | hu
    · exact hf.least_optimal hh hmem hmin hg hw
    · exact hf.optimal u hu g hg n hw
  back v g hg := by
    refine (hf.back v g hg).imp_right ?_
    rintro ⟨u, g', hpar, hu, hrest⟩
    exact ⟨u, g', hpar, .inr hu, hrest⟩
  relaxed u hu v hadj hno g hg := by
    rcases hu with rfl | hu
    · exact absurd rfl hno
    · exact hf.relaxed u hu v hadj not_false g hg

/-- An edge to a closed vertex leads to no better cost. -/
theorem closed_no_better (hf : Frontier Adj h start todo opened closed cost parent)
    (hg : cost cur = some g) {v : V} (hadj : Adj cur v) (hv : v ∈ closed) :
    ∃ g', cost v = some g' ∧ g' ≤ g + 1 := by
  obtain ⟨g', hg'⟩ := hf.closed_cost v hv
  exact ⟨g', hg', hf.optimal v hv g' hg' _ ((hf.walk hg).snoc hadj)⟩

section Edge

variable {v : V} (hf : Frontier Adj h start todo opened closed cost parent) (hcur : cur ∈ closed)
  (hg : cost cur = some g) (htodo : ∀ u w, todo u w → todo' u w ∨ (u = cur ∧ w = v))

include hf hcur hg htodo

/-- An edge that leads to no better cost is done with. -/
theorem skip (hle : ∃ g', cost v = some g' ∧ g' ≤ g + 1) :
    Frontier Adj h start todo' opened closed cost parent := by
  refine { hf with relaxed := fun u hu w hadj hno gu hgu => ?_ }
  by_cases hdone : todo u w
  · obtain ⟨rfl, rfl⟩ := (htodo u w hdone).resolve_left hno
    obtain rfl : g = gu := Option.some.inj (hg.symm.trans hgu)
    exact hle
  · exact hf.relaxed u hu w hadj hdone gu hgu

/-- An edge that leads to a first or a better cost: the vertex gets it, the edge becomes its parent
    edge, and an entry is made. -/
theorem improve [DecidableEq V] (hadj : Adj cur v) (hv : v ∉ closed)
    (hbetter : ∀ g', cost v = some g' → g + 1 < g') :
    Frontier Adj h start todo' (insert (g + 1 + h v, v) opened) closed
      (Function.update cost v (some (g + 1))) (Function.update parent v (some cur)) := by
  have hstart : start ≠ v := by
    rintro rfl
    exact absurd (hbetter 0 hf.start_cost) (Nat.not_lt_zero _)
  have hcost : ∀ u ∈ closed, Function.update cost v (some (g + 1)) u = cost u := fun u hu =>
    Function.update_of_ne (ne_of_mem_of_not_mem hu hv) _ _
  constructor
  case start_cost =>
    rw [Function.update_of_ne hstart]
    exact hf.start_cost
  case entry =>
    intro p w hmem
    by_cases hw : w = v
    · subst hw
      refine ⟨g + 1, Function.update_self _ _ _, .inr ?_⟩
      rcases hmem with heq | hmem
      · cases heq
        exact Nat.le_refl _
      · obtain ⟨g', hg', hentry⟩ := hf.entry p w hmem
        have := hbetter g' hg'
        have := hentry.resolve_left (Ne.symm hstart)
        omega
    · rw [Function.update_of_ne hw]
      rcases hmem with heq | hmem
      · cases heq
        exact absurd rfl hw
      · exact hf.entry p w hmem
  case queued =>
    intro w g' hg'
    by_cases hw : w = v
    · subst hw
      rw [Function.update_self] at hg'
      cases hg'
      exact .inr ⟨_, Nat.le_refl _, .inl rfl⟩
    · rw [Function.update_of_ne hw] at hg'
      exact (hf.queued w g' hg').imp_right fun ⟨p, hp, hmem⟩ => ⟨p, hp, .inr hmem⟩
  case closed_cost =>
    intro u hu
    rw [hcost u hu]
    exact hf.closed_cost u hu
  case optimal =>
    intro u hu g' hg'
    rw [hcost u hu] at hg'
    exact hf.optimal u hu g' hg'
  case back =>
    intro w g' hg'
    by_cases hw : w = v
    · subst hw
      rw [Function.update_self] at hg'
      cases hg'
      exact .inr ⟨cur, g, Function.update_self _ _ _, hcur, (hcost cur hcur).trans hg, hadj, rfl⟩
    · rw [Function.update_of_ne hw] at hg' ⊢
      refine (hf.back w g' hg').imp_right ?_
      rintro ⟨u, gu, hpar, hu, hgu, hrest⟩
      exact ⟨u, gu, hpar, hu, (hcost u hu).trans hgu, hrest⟩
  case relaxed =>
    intro u hu w hadj' hno gu hgu
    rw [hcost u hu] at hgu
    by_cases hw : w = v
    · subst hw
      refine ⟨g + 1, Function.update_self _ _ _, ?_⟩
      by_cases hdone : todo u w
      · obtain ⟨rfl, -⟩ := (htodo u w hdone).resolve_left hno
        obtain rfl : g = gu := Option.some.inj (hg.symm.trans hgu)
        exact Nat.le_refl _
      · obtain ⟨g', hg', hle⟩ := hf.relaxed u hu w hadj' hdone gu hgu
        have := hbetter g' hg'
        omega
    · rw [Function.update_of_ne hw]
      have hdone : ¬ todo u w := fun ht => hw ((htodo u w ht).resolve_left hno).2
      exact hf.relaxed u hu w hadj' hdone gu hgu

end Edge

end Frontier

end InpLabs.Lib
