/-
  File:      InpLabs/Lib/Path.lean
  Subject:   Lexical resolution of relative paths.

  * `Move`, `resolve`: a path enters names and goes up; names that are left again cancel out, and
    the moves above the starting point are counted;
  * `Staying`: no part of the path, read from the left, goes up more often than it enters names;
    `resolve_ups`: exactly then the starting point is never left upwards;
  * `Inside`, `inside_iff`: the resolved path lies in a directory exactly when the last return to
    the starting point is followed by the name of the directory;
  * `components`, `moves`: the moves of a path as a string.
-/
import InpLabs.Lib.Cxx
import Mathlib.Tactic.Common
import Mathlib.Algebra.Order.Group.Int
import Mathlib.Data.List.Induction

namespace InpLabs.Lib.Pathname

/-! ## 1. Resolution -/

section Moves

variable {α : Type*}

/-- One step of a path. -/
inductive Move (α : Type*) where
  | up
  | enter (a : α)
  deriving DecidableEq

/-- A place as seen from the starting point: first `ups` times upwards, then down along `names`,
which are listed from the innermost. -/
structure Location (α : Type*) where
  ups : Nat
  names : List α
  deriving DecidableEq

def Location.move (l : Location α) : Move α → Location α
  | .enter a => { l with names := a :: l.names }
  | .up =>
    match l.names with
    | [] => { l with ups := l.ups + 1 }
    | _ :: names => { l with names := names }

/-- Where the moves lead. -/
def resolve (ms : List (Move α)) : Location α := ms.foldl Location.move ⟨0, []⟩

theorem resolve_concat (ms : List (Move α)) (m : Move α) :
    resolve (ms ++ [m]) = (resolve ms).move m := by
  simp only [resolve, List.foldl_append, List.foldl_cons, List.foldl_nil]

/-- What remains was entered. -/
theorem mem_of_mem_names {a : α} {ms : List (Move α)} (h : a ∈ (resolve ms).names) :
    .enter a ∈ ms := by
  induction ms using List.reverseRecOn with
  | nil => cases h
  | append_singleton ms m ih =>
    rw [resolve_concat] at h
    cases m with
    | enter b =>
      rcases List.mem_cons.mp h with rfl | h
      · exact List.mem_append_right ms (List.mem_singleton_self _)
      · exact List.mem_append_left _ (ih h)
    | up =>
      refine List.mem_append_left _ (ih ?_)
      unfold Location.move at h
      cases hnames : (resolve ms).names with
      | nil =>
        simp only [hnames] at h
        exact h
      | cons b names =>
        simp only [hnames] at h
        exact List.mem_cons_of_mem b h

/-! ## 2. Counting -/

/-- By how much the moves lead down. -/
def depth : List (Move α) → Int
  | [] => 0
  | .up :: ms => depth ms - 1
  | .enter _ :: ms => depth ms + 1

theorem depth_append (ms ms' : List (Move α)) : depth (ms ++ ms') = depth ms + depth ms' := by
  induction ms with
  | nil => simp only [List.nil_append, depth, zero_add]
  | cons m ms ih => cases m <;> simp only [List.cons_append, depth, ih] <;> omega

/-- Read from the left, the moves never go up more often than they enter names. -/
def Staying (ms : List (Move α)) : Prop := ∀ p, p <+: ms → 0 ≤ depth p

theorem staying_nil : Staying ([] : List (Move α)) := by
  intro p hp
  rw [List.prefix_nil.mp hp]
  exact le_rfl

theorem Staying.depth_nonneg {ms : List (Move α)} (h : Staying ms) : 0 ≤ depth ms :=
  h ms List.prefix_rfl

theorem staying_concat {ms : List (Move α)} {m : Move α} :
    Staying (ms ++ [m]) ↔ Staying ms ∧ 0 ≤ depth (ms ++ [m]) := by
  refine ⟨fun h => ⟨fun p hp => h p (hp.trans (List.prefix_append ms [m])), h.depth_nonneg⟩, ?_⟩
  intro ⟨h, hd⟩ p hp
  rcases List.prefix_concat_iff.mp hp with rfl | hp
  · exact hd
  · exact h p hp

theorem staying_enter (a : α) : Staying [Move.enter a] := by
  refine staying_concat.mpr ⟨staying_nil, ?_⟩
  show (0 : Int) ≤ 0 + 1
  decide

/-- The depth is what remains of the names, less the moves upwards that remain. -/
theorem depth_eq (ms : List (Move α)) :
    depth ms = ((resolve ms).names.length : Int) - (resolve ms).ups := by
  induction ms using List.reverseRecOn with
  | nil => rfl
  | append_singleton ms m ih =>
    rw [depth_append, ih, resolve_concat]
    cases m with
    | enter a =>
      simp only [Location.move, depth, List.length_cons]
      omega
    | up =>
      unfold Location.move
      cases hnames : (resolve ms).names with
      | nil =>
        simp only [depth, List.length_nil]
        omega
      | cons a names =>
        simp only [depth, List.length_cons]
        omega

/-- **No move upwards remains** exactly when the moves stay. -/
theorem resolve_ups (ms : List (Move α)) : (resolve ms).ups = 0 ↔ Staying ms := by
  induction ms using List.reverseRecOn with
  | nil => exact iff_of_true rfl staying_nil
  | append_singleton ms m ih =>
    have hdepth := depth_eq (ms ++ [m])
    rw [staying_concat, ← ih, hdepth, resolve_concat]
    cases m with
    | enter a =>
      simp only [Location.move, List.length_cons]
      omega
    | up =>
      unfold Location.move
      cases (resolve ms).names with
      | nil =>
        simp only [List.length_nil]
        omega
      | cons a names =>
        simp only
        omega

/-! ## 3. Inside a directory -/

/-- The directory `d` of the starting point, or something below it. -/
def Location.In (l : Location α) (d : α) : Prop := l.ups = 0 ∧ l.names.getLast? = some d

instance [DecidableEq α] (l : Location α) (d : α) : Decidable (l.In d) :=
  inferInstanceAs (Decidable (_ ∧ _))

/-- The moves return to the starting point, enter `d` there, and then stay. -/
def Enters (d : α) (ms : List (Move α)) : Prop :=
  ∃ p rest, ms = p ++ .enter d :: rest ∧ Staying p ∧ depth p = 0 ∧ Staying rest

/-- Moves that stay leave alone what is below them. -/
theorem foldl_move (ms : List (Move α)) (h : Staying ms) (names : List α) :
    ms.foldl Location.move ⟨0, names⟩ = ⟨0, (resolve ms).names ++ names⟩ := by
  induction ms using List.reverseRecOn with
  | nil => rfl
  | append_singleton ms m ih =>
    obtain ⟨hms, hd⟩ := staying_concat.mp h
    rw [List.foldl_append, ih hms, resolve_concat]
    cases m with
    | enter a => rfl
    | up =>
      have hups := (resolve_ups ms).mpr hms
      have hlength := depth_eq ms
      rw [depth_append, hlength, hups] at hd
      simp only [List.foldl_cons, List.foldl_nil, Location.move]
      cases hnames : (resolve ms).names with
      | nil =>
        rw [hnames] at hd
        simp only [depth, List.length_nil] at hd
        omega
      | cons a rest => rfl

theorem in_of_enters {d : α} {ms : List (Move α)} (h : Enters d ms) : (resolve ms).In d := by
  obtain ⟨p, rest, rfl, hp, hzero, hrest⟩ := h
  have hups := (resolve_ups p).mpr hp
  have hnames : (resolve p).names = [] := by
    have hlength := depth_eq p
    rw [hzero, hups] at hlength
    exact List.eq_nil_of_length_eq_zero (by omega)
  have hstart : resolve p = ⟨0, []⟩ := by
    rw [← hups, ← hnames]
  have hend : resolve (p ++ .enter d :: rest) = ⟨0, (resolve rest).names ++ [d]⟩ := by
    rw [← foldl_move rest hrest [d]]
    unfold resolve at hstart ⊢
    rw [List.foldl_append, hstart]
    rfl
  rw [hend]
  exact ⟨rfl, List.getLast?_concat⟩

/-- A last move that ends inside `d`, made away from the starting point, was made inside `d`. -/
theorem in_of_concat {d : α} {ms : List (Move α)} {m : Move α} (h : (resolve (ms ++ [m])).In d)
    (hne : (resolve ms).names ≠ []) : (resolve ms).In d ∧ 1 ≤ depth (ms ++ [m]) := by
  obtain ⟨hups, hlast⟩ := h
  have hms := (resolve_ups ms).mpr (staying_concat.mp ((resolve_ups _).mp hups)).1
  have hdepth := depth_eq (ms ++ [m])
  rw [hups, resolve_concat] at hdepth
  rw [resolve_concat] at hlast
  obtain ⟨b, names, hnames⟩ := List.exists_cons_of_ne_nil hne
  cases m with
  | enter a =>
    simp only [Location.move, hnames, List.getLast?_cons_cons] at hlast
    simp only [Location.move, hnames, List.length_cons] at hdepth
    exact ⟨⟨hms, hnames ▸ hlast⟩, by omega⟩
  | up =>
    simp only [Location.move, hnames] at hlast hdepth
    cases names with
    | nil => cases hlast
    | cons c names =>
      simp only [List.length_cons] at hdepth
      refine ⟨⟨hms, ?_⟩, by omega⟩
      rw [hnames, List.getLast?_cons_cons]
      exact hlast

theorem enters_of_in {d : α} {ms : List (Move α)} (h : (resolve ms).In d) : Enters d ms := by
  induction ms using List.reverseRecOn with
  | nil => cases h.2
  | append_singleton ms m ih =>
    by_cases hnames : (resolve ms).names = []
    · -- `d` is entered at the starting point
      obtain ⟨hups, hlast⟩ := h
      have hms := (staying_concat.mp ((resolve_ups _).mp hups)).1
      have hdepth := depth_eq ms
      rw [(resolve_ups ms).mpr hms, hnames] at hdepth
      rw [resolve_concat] at hlast
      cases m with
      | enter a =>
        simp only [Location.move, hnames, List.getLast?_singleton, Option.some.injEq] at hlast
        subst hlast
        exact ⟨ms, [], rfl, hms, hdepth, staying_nil⟩
      | up => simp only [Location.move, hnames, List.getLast?_nil, reduceCtorEq] at hlast
    · obtain ⟨hin, hone⟩ := in_of_concat h hnames
      obtain ⟨p, rest, rfl, hp, hzero, hrest⟩ := ih hin
      refine ⟨p, rest ++ [m], by simp, hp, hzero, staying_concat.mpr ⟨hrest, ?_⟩⟩
      have hsplit : depth (p ++ .enter d :: rest ++ [m]) = depth p + 1 + depth (rest ++ [m]) := by
        simp only [depth_append, depth]
        omega
      omega

/-- **Inside `d`** exactly when the last return to the starting point is followed by `d`. -/
theorem in_iff (d : α) (ms : List (Move α)) : (resolve ms).In d ↔ Enters d ms :=
  ⟨enters_of_in, in_of_enters⟩

/-- What is added to a path that is inside stays there, as long as it stays. -/
theorem Enters.append {d : α} {ms ms' : List (Move α)} (h : Enters d ms) (h' : Staying ms') :
    Enters d (ms ++ ms') := by
  obtain ⟨p, rest, rfl, hp, hzero, hrest⟩ := h
  refine ⟨p, rest ++ ms', by simp, hp, hzero, fun q hq => ?_⟩
  rcases List.prefix_or_prefix_of_prefix hq (List.prefix_append rest ms') with hq' | ⟨q', rfl⟩
  · exact hrest q hq'
  · rw [depth_append]
    exact add_nonneg hrest.depth_nonneg (h' q' ((List.prefix_append_right_inj rest).mp hq))

end Moves

/-! ## 4. Paths as strings -/

/-- `/` -/
def slash : UInt8 := 47

/-- The parts between the slashes, empty ones included. -/
def components (path : Bytes) : List Bytes := path.splitOnP (· == slash)

def dot : Bytes := [46]
def dotdot : Bytes := [46, 46]

/-- What a component does: `.` and the empty one do nothing. -/
def moveOf (c : Bytes) : Option (Move Bytes) :=
  if c = [] ∨ c = dot then none else if c = dotdot then some .up else some (.enter c)

def moves (path : Bytes) : List (Move Bytes) := (components path).filterMap moveOf

theorem moveOf_eq_enter {c a : Bytes} (h : moveOf c = some (.enter a)) : c = a := by
  unfold moveOf at h
  split at h
  · cases h
  · split at h <;> cases h
    rfl

theorem moveOf_eq_up {c : Bytes} (h : moveOf c = some .up) : c = dotdot := by
  unfold moveOf at h
  split at h
  · cases h
  · split at h
    · assumption
    · cases h

theorem moveOf_eq_none {c : Bytes} (h : moveOf c = none) : c = [] ∨ c = dot := by
  unfold moveOf at h
  split at h
  · assumption
  · split at h <;> cases h

theorem components_append (path rest : Bytes) :
    components (path ++ slash :: rest) = components path ++ components rest :=
  List.splitOnP_append_cons path rest rfl

theorem components_name {name : Bytes} (h : slash ∉ name) : components name = [name] := by
  refine List.splitOnP_eq_singleton fun c hc => ?_
  simp only [beq_eq_false_iff_ne, ne_eq]
  rintro rfl
  exact h hc

theorem moves_append (path rest : Bytes) :
    moves (path ++ slash :: rest) = moves path ++ moves rest := by
  unfold moves
  rw [components_append, List.filterMap_append]

/-- The parts that lead somewhere else. -/
def names (path : Bytes) : List Bytes := (components path).filter fun c => c ≠ [] ∧ c ≠ dot

theorem names_append (path rest : Bytes) :
    names (path ++ slash :: rest) = names path ++ names rest := by
  unfold names
  rw [components_append, List.filter_append]

/-- The first part is what stands before the first slash. -/
theorem components_head (path : Bytes) :
    ∃ rest, components path = path.takeWhile (· != slash) :: rest := by
  have hsplit := List.takeWhile_append_dropWhile (p := (· != slash)) (l := path)
  have hname : slash ∉ path.takeWhile (· != slash) := fun h =>
    absurd (List.mem_takeWhile_imp h) (by decide)
  cases hd : path.dropWhile (· != slash) with
  | nil =>
    rw [hd, List.append_nil] at hsplit
    exact ⟨[], by rw [hsplit, components_name (hsplit ▸ hname)]⟩
  | cons c rest =>
    have hc : c = slash := by
      have hnot := List.head_dropWhile_not (· != slash) (l := path) (by simp [hd])
      simpa [hd] using hnot
    subst hc
    rw [hd] at hsplit
    refine ⟨components rest, ?_⟩
    conv => enter [1]; rw [← hsplit]
    rw [components_append, components_name hname]
    rfl

theorem names_head {path : Bytes} (hne : path.takeWhile (· != slash) ≠ [])
    (hdot : path.takeWhile (· != slash) ≠ dot) :
    ∃ rest, names path = path.takeWhile (· != slash) :: rest := by
  obtain ⟨rest, h⟩ := components_head path
  refine ⟨rest.filter fun c => c ≠ [] ∧ c ≠ dot, ?_⟩
  unfold names
  rw [h]
  exact List.filter_cons_of_pos (decide_eq_true ⟨hne, hdot⟩)

end InpLabs.Lib.Pathname
