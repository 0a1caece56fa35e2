/-
  File:      InpLabs/Lib/FileTree.lean
  Subject:   Files, directories, and what a relative path finds among them.

  * `FileTree`: files and directories, with a working directory. A directory lists what its names
    stand for, `..` among them, a symbolic link under the name of the link;
  * `find`: the components of a path are followed one by one; whatever has something behind it, if
    only a slash, is a directory;
  * `Nested`, `find_lexical`: where `..` leads back, a path finds what its lexical resolution finds;
  * `chain`, `chain_find`: a tree with one branch tells paths with different names apart.
-/
import InpLabs.Lib.Path

namespace InpLabs.Lib

open Pathname

/-- A file with its content, or a directory. -/
inductive Entry (ν : Type) where
  | file (content : Bytes)
  | dir (lookup : Bytes → Option ν)

structure FileTree where
  Node : Type
  entry : Node → Entry Node
  cwd : Node

namespace FileTree

variable {t : FileTree}

/-! ## 1. Following a path -/

/-- One component. -/
def step (t : FileTree) (n : t.Node) (c : Bytes) : Option t.Node :=
  match t.entry n with
  | .file _ => none
  | .dir lookup => if c = [] ∨ c = dot then some n else lookup c

def walk (t : FileTree) (n : t.Node) (cs : List Bytes) : Option t.Node := cs.foldlM t.step n

/-- What a path finds that does not start with a slash. -/
def find (t : FileTree) (path : Bytes) : Option t.Node := t.walk t.cwd (components path)

def entryAt (t : FileTree) (path : Bytes) : Option (Entry t.Node) := (t.find path).map t.entry

theorem walk_cons (n : t.Node) (c : Bytes) (cs : List Bytes) :
    t.walk n (c :: cs) = (t.step n c).bind fun m => t.walk m cs := rfl

theorem walk_append (n : t.Node) (cs cs' : List Bytes) :
    t.walk n (cs ++ cs') = (t.walk n cs).bind fun m => t.walk m cs' := List.foldlM_append

theorem walk_singleton (n : t.Node) (c : Bytes) : t.walk n [c] = t.step n c := by
  unfold walk
  rw [List.foldlM_cons]
  exact bind_pure _

/-- A path with one more component. -/
theorem find_child (path : Bytes) {name : Bytes} (h : slash ∉ name) :
    t.find (path ++ slash :: name) = (t.find path).bind fun n => t.step n name := by
  unfold find
  rw [components_append, components_name h, walk_append]
  simp only [walk_singleton]

/-- A slash at the end asks for a directory. -/
theorem step_nil (n : t.Node) : t.step n [] = some n ↔ ∃ lookup, t.entry n = .dir lookup := by
  unfold step
  cases t.entry n with
  | file content => exact iff_of_false (fun h => by cases h) (fun ⟨_, h⟩ => by cases h)
  | dir lookup => exact iff_of_true (if_pos (.inl rfl)) ⟨lookup, rfl⟩

theorem step_nil_eq {n m : t.Node} (h : t.step n [] = some m) : m = n := by
  unfold step at h
  cases hn : t.entry n with
  | file content =>
    rw [hn] at h
    cases h
  | dir lookup =>
    rw [hn] at h
    simp only [true_or, if_true, Option.some.injEq] at h
    exact h.symm

/-- Only a directory is found behind a slash. -/
theorem entryAt_slash {path : Bytes} {e : Entry t.Node}
    (h : t.entryAt (path ++ [slash]) = some e) : ∃ lookup, e = .dir lookup := by
  obtain ⟨m, hm, rfl⟩ := Option.map_eq_some_iff.mp h
  rw [find_child path List.not_mem_nil] at hm
  obtain ⟨n, -, hstep⟩ := Option.bind_eq_some_iff.mp hm
  obtain rfl := step_nil_eq hstep
  exact (step_nil m).mp hstep

/-- One empty component more changes nothing. -/
theorem find_child_slash (path : Bytes) {name : Bytes} (h : slash ∉ name) :
    t.find (path ++ slash :: slash :: name) = t.find (path ++ slash :: name) := by
  have hsplit : path ++ slash :: slash :: name = (path ++ [slash]) ++ slash :: name := by simp
  rw [hsplit, find_child _ h, find_child _ h, find_child path List.not_mem_nil]
  cases t.find path with
  | none => rfl
  | some n =>
    simp only [Option.bind_some]
    unfold step
    cases hn : t.entry n with
    | file content => rfl
    | dir lookup =>
      simp only [true_or, if_true, Option.bind_some]
      rw [hn]

/-! ## 2. Trees without links -/

/-- From whatever a name leads to, `..` leads back. -/
def Nested (t : FileTree) : Prop :=
  ∀ n m c, moveOf c = some (.enter c) → t.step n c = some m →
    ∀ k, t.step m dotdot = some k → k = n

theorem step_of_moveOf_eq_none {c : Bytes} {n m : t.Node} (h : moveOf c = none)
    (hstep : t.step n c = some m) : m = n := by
  have hc := moveOf_eq_none h
  unfold step at hstep
  cases hn : t.entry n with
  | file content =>
    rw [hn] at hstep
    cases hstep
  | dir lookup =>
    rw [hn] at hstep
    simp only [if_pos hc, Option.some.injEq] at hstep
    exact hstep.symm

/-- One move upwards leads to where the names without the last one lead. -/
theorem walk_up (hn : t.Nested) {a : Bytes} {names : List Bytes} (ha : moveOf a = some (.enter a))
    {k m : t.Node} (hk : t.walk t.cwd (names ++ [a]) = some k) (hstep : t.step k dotdot = some m) :
    t.walk t.cwd names = some m := by
  rw [walk_append] at hk
  obtain ⟨n, hnode, hname⟩ := Option.bind_eq_some_iff.mp hk
  rw [walk_singleton] at hname
  rw [hn n k a ha hname m hstep]
  exact hnode

/-- The components lead where the names that remain of them lead. -/
theorem walk_lexical (hn : t.Nested) {cs : List Bytes} (hs : Staying (cs.filterMap moveOf))
    {m : t.Node} (h : t.walk t.cwd cs = some m) :
    t.walk t.cwd (resolve (cs.filterMap moveOf)).names.reverse = some m := by
  induction cs using List.reverseRecOn generalizing m with
  | nil => exact h
  | append_singleton cs c ih =>
    rw [walk_append] at h
    obtain ⟨k, hk, hstep⟩ := Option.bind_eq_some_iff.mp h
    rw [walk_singleton] at hstep
    rw [List.filterMap_append] at hs ⊢
    cases hc : moveOf c with
    | none =>
      rw [List.filterMap_cons_none hc, List.filterMap_nil, List.append_nil] at hs ⊢
      rw [step_of_moveOf_eq_none hc hstep]
      exact ih hs hk
    | some move =>
      rw [List.filterMap_cons_some hc, List.filterMap_nil] at hs ⊢
      have hback := ih (staying_concat.mp hs).1 hk
      have hups := (resolve_ups _).mpr hs
      rw [resolve_concat] at hups ⊢
      cases move with
      | enter a =>
        obtain rfl := moveOf_eq_enter hc
        simp only [Location.move, List.reverse_cons]
        rw [walk_append, hback, Option.bind_some, walk_singleton]
        exact hstep
      | up =>
        obtain rfl := moveOf_eq_up hc
        unfold Location.move at hups ⊢
        cases hnames : (resolve (cs.filterMap moveOf)).names with
        | nil =>
          rw [hnames] at hups
          cases hups
        | cons a names =>
          have hmem : a ∈ (resolve (cs.filterMap moveOf)).names := hnames ▸ List.mem_cons_self
          obtain ⟨c, -, hc⟩ := List.mem_filterMap.mp (mem_of_mem_names hmem)
          obtain rfl := moveOf_eq_enter hc
          rw [hnames, List.reverse_cons] at hback
          exact walk_up hn hc hback hstep

/-- **Lexical resolution is right** where there are no links. -/
theorem find_lexical (hn : t.Nested) {path : Bytes} (hs : Staying (moves path)) {m : t.Node}
    (h : t.find path = some m) :
    t.walk t.cwd (resolve (moves path)).names.reverse = some m := walk_lexical hn hs h

/-! ## 3. A tree with one branch -/

/-- Directories in directories along a list of names, and nothing else. -/
abbrev chain (ns : List Bytes) : FileTree where
  Node := List Bytes
  entry place := .dir fun c => if place ++ [c] <+: ns then some (place ++ [c]) else none
  cwd := []

theorem chain_walk (ns : List Bytes) {place : List Bytes} (hplace : place <+: ns)
    (cs : List Bytes) : (chain ns).walk place cs =
      if place ++ cs.filter (fun c => c ≠ [] ∧ c ≠ dot) <+: ns then
        some (place ++ cs.filter fun c => c ≠ [] ∧ c ≠ dot) else none := by
  induction cs generalizing place with
  | nil =>
    rw [List.filter_nil, List.append_nil, if_pos hplace]
    rfl
  | cons c cs ih =>
    rw [walk_cons]
    by_cases hc : c = [] ∨ c = dot
    · have hstep : (chain ns).step place c = some place := if_pos hc
      have hdrop : ¬ (c ≠ [] ∧ c ≠ dot) := by simpa [or_iff_not_imp_left] using hc
      rw [hstep, Option.bind_some, ih hplace, List.filter_cons_of_neg (by simpa using hdrop)]
    · have hstep : (chain ns).step place c =
          if place ++ [c] <+: ns then some (place ++ [c]) else none := if_neg hc
      rw [hstep, List.filter_cons_of_pos (by simpa using hc),
        List.append_cons place c (List.filter _ cs)]
      by_cases hnext : place ++ [c] <+: ns
      · rw [if_pos hnext, Option.bind_some, ih hnext]
      · rw [if_neg hnext, if_neg fun h => hnext ((List.prefix_append _ _).trans h)]
        rfl

/-- A path finds the end of its names, if they lie on the branch. -/
theorem chain_find (ns : List Bytes) (path : Bytes) : (chain ns).find path =
    if names path <+: ns then some (names path) else none := chain_walk ns List.nil_prefix _

end FileTree

end InpLabs.Lib
