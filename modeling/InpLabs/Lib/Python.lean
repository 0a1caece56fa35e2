/-
  File:      InpLabs/Lib/Python.lean
  Subject:   What Python's subscripts do: lists, with negative indices from the end, and
             dictionaries.

  * `index`, `setIndex`: `xs[i]` and `xs[i] = a`;
  * `lookup`: `d[k]`, with the dictionary as a partial function;
  * `index2`, `setIndex2`: subscripts of a list of lists, with `entry` for what they are about.
-/
import Mathlib

namespace InpLabs.Lib.Python

/-- The exceptions of a subscript. -/
inductive Error where
  | indexError
  | keyError
  deriving DecidableEq, Repr

variable {α κ : Type*}

/-- The place an index stands for, if the list has it. -/
def place (xs : List α) (i : Int) : Option Nat :=
  let j := if i < 0 then i + xs.length else i
  if 0 ≤ j ∧ j < xs.length then some j.toNat else none

/-- `xs[i]`. -/
def index (xs : List α) (i : Int) : Except Error α :=
  match (place xs i).bind (xs[·]?) with
  | some a => .ok a
  | none => .error .indexError

/-- `xs[i] = a`. -/
def setIndex (xs : List α) (i : Int) (a : α) : Except Error (List α) :=
  match place xs i with
  | some j => .ok (xs.set j a)
  | none => .error .indexError

/-- `d[k]`. -/
def lookup (d : κ → Option α) (k : κ) : Except Error α :=
  match d k with
  | some a => .ok a
  | none => .error .keyError

@[simp] theorem ok_bind {ε : Type*} {α β : Type} (a : α) (f : α → Except ε β) :
    (Except.ok a >>= f) = f a := rfl

@[simp] theorem pure_eq_ok {ε : Type*} {α : Type} (a : α) : (pure a : Except ε α) = .ok a := rfl

section Subscripts

variable {xs : List α} {i : Int} {a : α}

/-- An index of the list counts from the front. -/
theorem place_of_nonneg (h0 : 0 ≤ i) (hi : i < xs.length) : place xs i = some i.toNat := by
  have hneg : ¬ i < 0 := by omega
  simp only [place, if_neg hneg]
  rw [if_pos ⟨h0, hi⟩]

theorem index_of_get? (h0 : 0 ≤ i) (ha : xs[i.toNat]? = some a) : index xs i = .ok a := by
  obtain ⟨hlt, -⟩ := List.getElem?_eq_some_iff.mp ha
  have hi : i < xs.length := by omega
  simp only [index, place_of_nonneg h0 hi, Option.bind_some, ha]

theorem setIndex_of_lt (h0 : 0 ≤ i) (hi : i < xs.length) :
    setIndex xs i a = .ok (xs.set i.toNat a) := by
  simp only [setIndex, place_of_nonneg h0 hi]

theorem lookup_of_some {d : κ → Option α} {k : κ} (h : d k = some a) : lookup d k = .ok a := by
  simp only [lookup, h]

end Subscripts

/-! ## Lists of lists -/

/-- `rows[i][j]`. -/
def index2 (rows : List (List α)) (i j : Int) : Except Error α :=
  match index rows i with
  | .ok row => index row j
  | .error e => .error e

/-- `rows[i][j] = a`. -/
def setIndex2 (rows : List (List α)) (i j : Int) (a : α) : Except Error (List (List α)) :=
  match index rows i with
  | .error e => .error e
  | .ok row =>
    match setIndex row j a with
    | .error e => .error e
    | .ok row => setIndex rows i row

/-- The entry in a row and a column, both counted from the front. -/
def entry (rows : List (List α)) (p : Int × Int) : Option α :=
  if 0 ≤ p.1 ∧ 0 ≤ p.2 then rows[p.1.toNat]?.bind (·[p.2.toNat]?) else none

/-- The rows have one length. -/
def Rectangular (rows : List (List α)) (width : Nat) : Prop := ∀ row ∈ rows, row.length = width

section Entries

variable {rows : List (List α)} {p q : Int × Int} {a b : α} {width : Nat}

theorem entry_eq_some : entry rows p = some a ↔ 0 ≤ p.1 ∧ 0 ≤ p.2 ∧
    ∃ row, rows[p.1.toNat]? = some row ∧ row[p.2.toNat]? = some a := by
  unfold entry
  split_ifs with h
  · simp only [Option.bind_eq_some_iff, h, true_and]
  · constructor
    · nofun
    · rintro ⟨h1, h2, -⟩
      exact absurd ⟨h1, h2⟩ h

/-- The entries of a rectangle. -/
theorem exists_entry (hrect : Rectangular rows width) :
    (∃ a, entry rows p = some a) ↔ (0 ≤ p.1 ∧ p.1 < rows.length) ∧ 0 ≤ p.2 ∧ p.2 < width := by
  simp only [entry_eq_some]
  constructor
  · rintro ⟨a, h1, h2, row, hrow, ha⟩
    obtain ⟨hi, rfl⟩ := List.getElem?_eq_some_iff.mp hrow
    obtain ⟨hj, -⟩ := List.getElem?_eq_some_iff.mp ha
    have hlen := hrect _ (List.getElem_mem hi)
    omega
  · intro ⟨h1, h2⟩
    have hi : p.1.toNat < rows.length := by omega
    have hlen := hrect _ (List.getElem_mem hi)
    have hj : p.2.toNat < rows[p.1.toNat].length := by omega
    exact ⟨_, h1.1, h2.1, _, List.getElem?_eq_getElem hi, List.getElem?_eq_getElem hj⟩

theorem index2_of_entry (h : entry rows p = some a) : index2 rows p.1 p.2 = .ok a := by
  obtain ⟨h1, h2, row, hrow, ha⟩ := entry_eq_some.mp h
  simp only [index2, index_of_get? h1 hrow, index_of_get? h2 ha]

/-- An assignment changes one entry, and no length. -/
theorem setIndex2_of_entry (h : entry rows p = some b) (a : α) :
    ∃ rows', setIndex2 rows p.1 p.2 a = .ok rows' ∧
      (∀ q, entry rows' q = if q = p then some a else entry rows q) ∧
      rows'.map List.length = rows.map List.length := by
  obtain ⟨h1, h2, row, hrow, hb⟩ := entry_eq_some.mp h
  obtain ⟨hi, hget⟩ := List.getElem?_eq_some_iff.mp hrow
  obtain ⟨hj, -⟩ := List.getElem?_eq_some_iff.mp hb
  have hset : setIndex2 rows p.1 p.2 a =
      .ok (rows.set p.1.toNat (row.set p.2.toNat a)) := by
    simp only [setIndex2, index_of_get? h1 hrow, setIndex_of_lt h2 (by omega : p.2 < row.length),
      setIndex_of_lt h1 (by omega : p.1 < rows.length)]
  refine ⟨_, hset, fun q => ?_, ?_⟩
  · obtain ⟨x, y⟩ := p
    obtain ⟨u, v⟩ := q
    simp only at h1 h2 hi hj hget hrow ⊢
    unfold entry
    by_cases hq : 0 ≤ u ∧ 0 ≤ v
    · rw [if_pos hq, if_pos hq, List.getElem?_set]
      by_cases hu : x.toNat = u.toNat
      · obtain rfl : x = u := by omega
        rw [if_pos rfl, if_pos hi, Option.bind_some, List.getElem?_set, hrow, Option.bind_some]
        by_cases hv : y.toNat = v.toNat
        · obtain rfl : y = v := by omega
          simp [hj]
        · have hne : ¬ (x, v) = (x, y) := by
            rintro ⟨⟩
            exact hv rfl
          rw [if_neg hv, if_neg hne]
      · have hne : ¬ (u, v) = (x, y) := by
          rintro ⟨⟩
          exact hu rfl
        rw [if_neg hu, if_neg hne]
    · have hne : ¬ (u, v) = (x, y) := by
        rintro ⟨⟩
        exact hq ⟨h1, h2⟩
      rw [if_neg hq, if_neg hq, if_neg hne]
  · rw [List.map_set, List.length_set, ← hget]
    refine List.ext_getElem? fun k => ?_
    rw [List.getElem?_set]
    split_ifs with hk hlen
    · subst hk
      simp [hi]
    · exact absurd (by simpa using hi) hlen
    · rfl

/-- **A loop of assignments** to entries that are there: each of them is set, and the rest stays.
The value depends on the place alone, so that their order does not matter. -/
theorem foldlM_setIndex2 {α κ : Type} {rows : List (List α)} {ks : List κ} {pos : κ → Int × Int}
    {f : κ → Except Error α} {val : Int × Int → α} (hval : ∀ k ∈ ks, f k = .ok (val (pos k)))
    (hin : ∀ k ∈ ks, ∃ b, entry rows (pos k) = some b) :
    ∃ rows', ks.foldlM (fun rows k => do setIndex2 rows (pos k).1 (pos k).2 (← f k)) rows =
        .ok rows' ∧
      (∀ q, entry rows' q = if q ∈ ks.map pos then some (val q) else entry rows q) ∧
      rows'.map List.length = rows.map List.length := by
  induction ks generalizing rows with
  | nil => exact ⟨rows, rfl, fun q => (if_neg List.not_mem_nil).symm, rfl⟩
  | cons k ks ih =>
    obtain ⟨hk, hks⟩ := List.forall_mem_cons.mp hval
    obtain ⟨⟨b, hb⟩, hin⟩ := List.forall_mem_cons.mp hin
    obtain ⟨rows₁, hset, hentry, hshape⟩ := setIndex2_of_entry hb (val (pos k))
    have hin₁ : ∀ k ∈ ks, ∃ b, entry rows₁ (pos k) = some b := by
      intro j hj
      rw [hentry]
      split
      · exact ⟨_, rfl⟩
      · exact hin j hj
    obtain ⟨rows', hfold, hall, hlengths⟩ := ih hks hin₁
    refine ⟨rows', ?_, fun q => ?_, hlengths.trans hshape⟩
    · rw [List.foldlM_cons, hk, ok_bind, hset, ok_bind]
      exact hfold
    · rw [hall, hentry, List.map_cons]
      by_cases hq : q ∈ ks.map pos
      · rw [if_pos hq, if_pos (List.mem_cons_of_mem _ hq)]
      · rw [if_neg hq]
        have hiff : q = pos k ↔ q ∈ pos k :: ks.map pos := by rw [List.mem_cons, or_iff_left hq]
        exact if_ctx_congr hiff (fun h => by rw [hiff.mpr h]) fun _ => rfl

end Entries

end InpLabs.Lib.Python
