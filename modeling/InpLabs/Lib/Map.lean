/-
  File:      InpLabs/Lib/Map.lean
  Subject:   `std::map` as an extensional tree map: lookups after an update, keyed by equality.

  * `get?_insert`, `get?_erase`, `get?_eraseAll`: what a lookup finds after an update;
  * `forall_insert`, `forall_erase`, `forall_eraseAll`: a property of every entry, after an update;
  * `ext_get?`: maps with the same lookups are equal, so two updates of the same key are the second;
  * `size_le_length`, `length_le_size_iff`: a map whose keys are among given ones has no more
    entries, and as many only if it has all of them.
-/
import Mathlib

namespace InpLabs.Lib.Map

variable {κ α : Type*} [Ord κ] [Std.TransOrd κ]

/-- The maps with keys of type `κ`, ordered by its comparison. -/
abbrev TreeMap (κ α : Type*) [Ord κ] := Std.ExtTreeMap κ α compare

theorem mem_iff {m : TreeMap κ α} {k : κ} : k ∈ m ↔ ∃ v, m[k]? = some v := by
  rw [Std.ExtTreeMap.mem_iff_isSome_getElem?, Option.isSome_iff_exists]

theorem not_mem_iff {m : TreeMap κ α} {k : κ} : k ∉ m ↔ m[k]? = none := by
  rw [Std.ExtTreeMap.mem_iff_isSome_getElem?, Bool.not_eq_true, Option.isSome_eq_false_iff,
    Option.isNone_iff_eq_none]

theorem mem_of_get? {m : TreeMap κ α} {k : κ} {v : α} (h : m[k]? = some v) : k ∈ m :=
  mem_iff.mpr ⟨v, h⟩

variable [Std.LawfulEqOrd κ]

theorem ext_get? {m n : TreeMap κ α} (h : ∀ k : κ, m[k]? = n[k]?) : m = n :=
  Std.ExtTreeMap.ext_getElem? h

variable [DecidableEq κ]

@[simp] theorem get?_insert (m : TreeMap κ α) (k a : κ) (v : α) :
    (m.insert k v)[a]? = if k = a then some v else m[a]? := by
  rw [Std.ExtTreeMap.getElem?_insert]
  simp only [Std.compare_eq_iff_eq]

@[simp] theorem get?_erase (m : TreeMap κ α) (k a : κ) :
    (m.erase k)[a]? = if k = a then none else m[a]? := by
  rw [Std.ExtTreeMap.getElem?_erase]
  simp only [Std.compare_eq_iff_eq]

/-- Erasing a list of keys, one after the other. -/
def eraseAll (m : TreeMap κ α) (ks : List κ) : TreeMap κ α := ks.foldl (fun m k => m.erase k) m

@[simp] theorem get?_eraseAll (m : TreeMap κ α) (ks : List κ) (a : κ) :
    (eraseAll m ks)[a]? = if a ∈ ks then none else m[a]? := by
  induction ks generalizing m with
  | nil => simp [eraseAll]
  | cons k ks ih =>
    have hcons : eraseAll m (k :: ks) = eraseAll (m.erase k) ks := rfl
    rw [hcons, ih, get?_erase]
    by_cases hk : k = a
    · simp [hk]
    · simp [hk, Ne.symm hk]

/-- What holds of every entry, and of the new one, holds of every entry after an insertion. -/
theorem forall_insert {m : TreeMap κ α} {P : κ → α → Prop} (h : ∀ a w, m[a]? = some w → P a w)
    {k : κ} {v : α} (hv : P k v) (a : κ) (w : α) (hw : (m.insert k v)[a]? = some w) : P a w := by
  rw [get?_insert] at hw
  split at hw
  · rename_i e
    cases hw
    exact e ▸ hv
  · exact h a w hw

theorem forall_erase {m : TreeMap κ α} {P : κ → α → Prop} (h : ∀ a w, m[a]? = some w → P a w)
    (k a : κ) (w : α) (hw : (m.erase k)[a]? = some w) : P a w := by
  rw [get?_erase] at hw
  split at hw
  · cases hw
  · exact h a w hw

theorem forall_eraseAll {m : TreeMap κ α} {P : κ → α → Prop} (h : ∀ a w, m[a]? = some w → P a w)
    (ks : List κ) (a : κ) (w : α) (hw : (eraseAll m ks)[a]? = some w) : P a w := by
  rw [get?_eraseAll] at hw
  split at hw
  · cases hw
  · exact h a w hw

@[simp] theorem insert_insert (m : TreeMap κ α) (k : κ) (v w : α) :
    (m.insert k v).insert k w = m.insert k w := by
  refine ext_get? fun a => ?_
  simp only [get?_insert]
  split <;> rfl

section Count

variable {m : TreeMap κ α} {ks : List κ} (h : ∀ k ∈ m, k ∈ ks)

include h

omit [DecidableEq κ] in
theorem keys_subperm : m.keys.Subperm ks :=
  List.subperm_of_subset Std.ExtTreeMap.nodup_keys fun k hk => h k (Std.ExtTreeMap.mem_keys.mp hk)

omit [DecidableEq κ] in
/-- A map whose keys are among those of a list has no more entries. -/
theorem size_le_length : m.size ≤ ks.length := by
  rw [← Std.ExtTreeMap.length_keys]
  exact (keys_subperm h).length_le

omit [DecidableEq κ] in
/-- It has as many only if it has all of them. -/
theorem length_le_size_iff (hnd : ks.Nodup) : ks.length ≤ m.size ↔ ∀ k ∈ ks, k ∈ m := by
  have hmem : ∀ {k}, k ∈ m.keys ↔ k ∈ m := Std.ExtTreeMap.mem_keys
  rw [← Std.ExtTreeMap.length_keys]
  constructor
  · intro hle k hk
    exact hmem.mp (((keys_subperm h).perm_of_length_le hle).mem_iff.mpr hk)
  · intro hall
    exact (List.subperm_of_subset hnd fun k hk => hmem.mpr (hall k hk)).length_le

end Count

end InpLabs.Lib.Map
