/-
  File:      InpLabs/Lib/Substring.lean
  Subject:   Splitting, searching and masking in lists.

  * `words`: the maximal runs of non-separators, left to right;
  * `takeWhile_append_cons`: where a beginning ends;
  * `find`: the position of the first occurrence of a word;
  * `maskLoop`: search for a word from the start, overwrite it, and search again. `maskLoop_isSome`
    is the termination argument: each round turns at least one more element into the mask.
-/
import Mathlib.Data.List.Basic
import Mathlib.Data.List.TakeWhile

namespace InpLabs.Lib

variable {α : Type*}

/-! ## 1. Words -/

/-- The maximal non-empty pieces of `l` that contain no separator. -/
def words (sep : α → Bool) (l : List α) : List (List α) :=
  (l.splitOnP sep).filter fun w => !w.isEmpty

theorem ne_nil_of_mem_words {sep : α → Bool} {l w : List α} (h : w ∈ words sep l) : w ≠ [] := by
  rintro rfl
  simp [words] at h

/-- A piece consists of elements of the list that are no separators. -/
theorem of_mem_splitOnP {sep : α → Bool} {l w : List α} {c : α} (h : w ∈ l.splitOnP sep)
    (hc : c ∈ w) : c ∈ l ∧ sep c = false := by
  induction l generalizing w with
  | nil =>
    obtain rfl : w = [] := by simpa using h
    cases hc
  | cons a l ih =>
    have htail : ∀ {w : List α}, w ∈ l.splitOnP sep → c ∈ w → c ∈ a :: l ∧ sep c = false :=
      fun h hc => (ih h hc).imp_left (List.mem_cons_of_mem a)
    rw [List.splitOnP_cons_eq_if_modifyHead] at h
    split at h
    · rcases List.mem_cons.mp h with rfl | h
      · cases hc
      · exact htail h hc
    · rename_i ha
      cases hl : l.splitOnP sep with
      | nil =>
        rw [hl] at h
        cases h
      | cons p ps =>
        rw [hl] at h htail
        rcases List.mem_cons.mp h with rfl | h
        · rcases List.mem_cons.mp hc with rfl | hc
          · exact ⟨List.mem_cons_self, Bool.eq_false_iff.mpr ha⟩
          · exact htail List.mem_cons_self hc
        · exact htail (List.mem_cons_of_mem p h) hc

/-- A word consists of elements of the list. -/
theorem mem_of_mem_words {sep : α → Bool} {l w : List α} {c : α} (h : w ∈ words sep l)
    (hc : c ∈ w) : c ∈ l := (of_mem_splitOnP (List.mem_filter.mp h).1 hc).1

/-- None of them is a separator. -/
theorem sep_of_mem_words {sep : α → Bool} {l w : List α} {c : α} (h : w ∈ words sep l)
    (hc : c ∈ w) : sep c = false := (of_mem_splitOnP (List.mem_filter.mp h).1 hc).2

/-- What stands behind the separators begins with none. -/
theorem sep_of_dropWhile {sep : α → Bool} {l rest : List α} {a : α}
    (h : l.dropWhile sep = a :: rest) : sep a = false := by
  have hnot := List.head_dropWhile_not sep (l := l) (by simp [h])
  simpa [h] using hnot

section Words

variable {sep : α → Bool} {l w : List α} {ws : List (List α)}

theorem words_cons_of_pos {a : α} (h : sep a = true) (l : List α) :
    words sep (a :: l) = words sep l := by
  unfold words
  rw [List.splitOnP_cons_eq_if_modifyHead, if_pos h, List.filter_cons_of_neg (by simp)]

theorem words_dropWhile (l : List α) : words sep (l.dropWhile sep) = words sep l := by
  induction l with
  | nil => rfl
  | cons a l ih =>
    by_cases ha : sep a = true
    · rw [List.dropWhile_cons_of_pos ha, words_cons_of_pos ha, ih]
    · rw [List.dropWhile_cons_of_neg ha]

theorem words_singleton (hw : ∀ a ∈ w, sep a = false) (hne : w ≠ []) : words sep w = [w] := by
  unfold words
  rw [List.splitOnP_eq_singleton hw, List.filter_cons_of_pos (by simpa using hne), List.filter_nil]

theorem words_append_cons (hw : ∀ a ∈ w, sep a = false) (hne : w ≠ []) {c : α}
    (hc : sep c = true) (rest : List α) : words sep (w ++ c :: rest) = w :: words sep rest := by
  unfold words
  rw [List.splitOnP_append_cons _ _ hc, List.splitOnP_eq_singleton hw, List.singleton_append,
    List.filter_cons_of_pos (by simpa using hne)]

/-- The first word, where a list starts with one. -/
theorem words_of_neg {a : α} (h : sep a = false) (l : List α) :
    words sep (a :: l) =
      (a :: l).takeWhile (!sep ·) :: words sep ((a :: l).dropWhile (!sep ·)) := by
  have hsplit := List.takeWhile_append_dropWhile (p := (!sep ·)) (l := a :: l)
  have hword : ∀ c ∈ (a :: l).takeWhile (!sep ·), sep c = false := fun c hc => by
    simpa using List.mem_takeWhile_imp hc
  have hne : (a :: l).takeWhile (!sep ·) ≠ [] := by
    rw [List.takeWhile_cons_of_pos (by simp [h])]
    exact List.cons_ne_nil _ _
  cases hrest : (a :: l).dropWhile (!sep ·) with
  | nil =>
    rw [hrest, List.append_nil] at hsplit
    rw [hsplit] at hword hne ⊢
    exact words_singleton hword hne
  | cons c rest =>
    have hc : sep c = true := by simpa using sep_of_dropWhile hrest
    rw [hrest] at hsplit
    rw [words_cons_of_pos hc]
    calc words sep (a :: l)
        = words sep ((a :: l).takeWhile (!sep ·) ++ c :: rest) := by rw [hsplit]
      _ = _ := words_append_cons hword hne hc rest

theorem dropWhile_ne_nil (h : words sep l = w :: ws) : l.dropWhile sep ≠ [] := by
  intro hnil
  rw [← words_dropWhile, hnil] at h
  cases h

/-- A list without words holds separators only. -/
theorem dropWhile_eq_nil (h : words sep l = []) : l.dropWhile sep = [] := by
  rw [← words_dropWhile] at h
  cases hl : l.dropWhile sep with
  | nil => rfl
  | cons a rest =>
    rw [hl, words_of_neg (sep_of_dropWhile hl)] at h
    cases h

/-- The first word stands behind the separators, and the others behind it. -/
theorem words_eq_cons (h : words sep l = w :: ws) :
    (l.dropWhile sep).takeWhile (!sep ·) = w ∧
      words sep ((l.dropWhile sep).drop w.length) = ws := by
  have hne := dropWhile_ne_nil h
  rw [← words_dropWhile] at h
  cases hl : l.dropWhile sep with
  | nil => exact absurd hl hne
  | cons a rest =>
    rw [hl, words_of_neg (sep_of_dropWhile hl)] at h
    obtain ⟨hw, hws⟩ := List.cons.inj h
    refine ⟨hw, ?_⟩
    rw [← hw, ← hws]
    congr 1
    have hsplit := List.takeWhile_append_dropWhile (p := (!sep ·)) (l := a :: rest)
    exact (congrArg (List.drop _) hsplit.symm).trans List.drop_left

end Words

/-! ## 2. Beginnings -/

section Beginnings

variable {p : α → Bool}

/-- A beginning ends at an element that is not of its kind. -/
theorem takeWhile_append_cons {c : α} (hc : p c = false) (l rest : List α) :
    (l ++ c :: rest).takeWhile p = l.takeWhile p := by
  rw [List.takeWhile_append]
  split
  · rename_i hall
    rw [List.takeWhile_cons_of_neg (by simp [hc]), List.append_nil]
    exact ((List.takeWhile_prefix _).eq_of_length hall).symm
  · rfl

/-- Where it has ended, what is appended plays no part. -/
theorem takeWhile_append_of_mem {l : List α} {c : α} (h : c ∈ l) (hc : p c = false)
    (rest : List α) : (l ++ rest).takeWhile p = l.takeWhile p := by
  obtain ⟨l₁, l₂, rfl⟩ := List.append_of_mem h
  rw [List.append_assoc, List.cons_append, takeWhile_append_cons hc, takeWhile_append_cons hc]

end Beginnings

/-! ## 3. Searching -/

section Find

variable [DecidableEq α]

/-- The position of the first occurrence of `w` in `l`. -/
def find (w : List α) : List α → Option Nat
  | [] => if w = [] then some 0 else none
  | a :: l => if w <+: a :: l then some 0 else (find w l).map (· + 1)

/-- What a search finds: the list before the position, the word, the rest. -/
theorem find_eq_some {w l : List α} {n : Nat} (h : find w l = some n) :
    ∃ pre post, l = pre ++ w ++ post ∧ pre.length = n := by
  induction l generalizing n with
  | nil =>
    simp only [find, Option.ite_none_right_eq_some, Option.some.injEq] at h
    obtain ⟨rfl, rfl⟩ := h
    exact ⟨[], [], rfl, rfl⟩
  | cons a l ih =>
    unfold find at h
    split at h
    · rename_i hp
      obtain ⟨post, hpost⟩ := hp
      simp only [Option.some.injEq] at h
      exact ⟨[], post, by simpa using hpost.symm, h⟩
    · obtain ⟨m, hm, rfl⟩ := Option.map_eq_some_iff.mp h
      obtain ⟨pre, post, e, hl⟩ := ih hm
      exact ⟨a :: pre, post, by simp [e], by simp [hl]⟩

/-- It is the first position at which the word stands. -/
theorem find_first {w l : List α} {n : Nat} (h : find w l = some n) :
    w <+: l.drop n ∧ ∀ m < n, ¬ w <+: l.drop m := by
  induction l generalizing n with
  | nil =>
    simp only [find, Option.ite_none_right_eq_some, Option.some.injEq] at h
    obtain ⟨rfl, rfl⟩ := h
    exact ⟨List.prefix_rfl, nofun⟩
  | cons a l ih =>
    unfold find at h
    split at h
    · rename_i hp
      cases h
      exact ⟨hp, nofun⟩
    · rename_i hp
      obtain ⟨m, hm, rfl⟩ := Option.map_eq_some_iff.mp h
      obtain ⟨hw, hfirst⟩ := ih hm
      refine ⟨hw, fun k hk => ?_⟩
      cases k with
      | zero => exact hp
      | succ k => exact hfirst k (Nat.lt_of_succ_lt_succ hk)

/-- A word that is not found stands nowhere. -/
theorem find_eq_none_iff {w l : List α} (hne : w ≠ []) :
    find w l = none ↔ ∀ m, ¬ w <+: l.drop m := by
  induction l with
  | nil => simp [find, hne]
  | cons a l ih =>
    unfold find
    split
    · rename_i hp
      exact iff_of_false (Option.some_ne_none 0) fun h => h 0 hp
    · rename_i hp
      rw [Option.map_eq_none_iff, ih]
      refine ⟨fun h m => ?_, fun h m => h (m + 1)⟩
      cases m with
      | zero => exact hp
      | succ m => exact h m

/-- A search finds a word exactly where it occurs. -/
theorem find_isSome_iff {w l : List α} (hne : w ≠ []) : (find w l).isSome = true ↔ w <:+: l := by
  constructor
  · intro h
    obtain ⟨n, hn⟩ := Option.isSome_iff_exists.mp h
    obtain ⟨before, after, rfl, -⟩ := find_eq_some hn
    exact ⟨before, after, rfl⟩
  · intro ⟨before, after, hl⟩
    refine Option.isSome_iff_ne_none.mpr fun hnone => ?_
    refine (find_eq_none_iff hne).mp hnone before.length ?_
    rw [← hl, List.append_assoc, List.drop_left]
    exact List.prefix_append w after

end Find

/-! ## 4. Masking -/

/-- Overwrite `l` with `r` from position `pos` on. -/
def overwrite (l : List α) (pos : Nat) (r : List α) : List α :=
  l.take pos ++ r ++ l.drop (pos + r.length)

theorem overwrite_append (pre w post r : List α) (h : r.length = w.length) :
    overwrite (pre ++ w ++ post) pre.length r = pre ++ r ++ post := by
  simp [overwrite, h]

/-- Search `key` for `w`; while it occurs, overwrite the occurrence with `star` in `key` and at
    the same place in `text`. The first argument bounds the rounds. -/
def maskLoop [DecidableEq α] (star : α) (w : List α) :
    Nat → List α → List α → Option (List α × List α)
  | 0, _, _ => none
  | n + 1, text, key =>
    match find w key with
    | none => some (text, key)
    | some pos =>
      maskLoop star w n (overwrite text pos (List.replicate w.length star))
        (overwrite key pos (List.replicate w.length star))

section Mask

variable [DecidableEq α] {star : α}

/-- The elements that are not yet masked. -/
def unmasked (star : α) (l : List α) : Nat := l.countP (· ≠ star)

theorem unmasked_le_length (l : List α) : unmasked star l ≤ l.length := List.countP_le_length

@[simp] theorem unmasked_append (l m : List α) :
    unmasked star (l ++ m) = unmasked star l + unmasked star m := List.countP_append

@[simp] theorem unmasked_replicate (n : Nat) : unmasked star (List.replicate n star) = 0 := by
  simp [unmasked, List.countP_replicate]

theorem unmasked_pos {w : List α} (h : ∃ c ∈ w, c ≠ star) : 0 < unmasked star w := by
  obtain ⟨c, hc, hne⟩ := h
  exact List.countP_pos_iff.mpr ⟨c, hc, by simpa using hne⟩

/-- Masking an occurrence leaves fewer unmasked elements. -/
theorem unmasked_overwrite_lt {w key : List α} {pos : Nat} (hw : ∃ c ∈ w, c ≠ star)
    (h : find w key = some pos) :
    unmasked star (overwrite key pos (List.replicate w.length star)) < unmasked star key := by
  obtain ⟨pre, post, rfl, rfl⟩ := find_eq_some h
  have hpos := unmasked_pos hw
  rw [overwrite_append _ _ _ _ (by simp)]
  simp only [unmasked_append, unmasked_replicate]
  omega

/-- The loop ends: more rounds than unmasked elements are never needed. -/
theorem maskLoop_isSome {w : List α} (hw : ∃ c ∈ w, c ≠ star) :
    ∀ {n : Nat} {key : List α} (text : List α), unmasked star key < n →
      ∃ r, maskLoop star w n text key = some r := by
  intro n
  induction n with
  | zero => intro _ _ h; omega
  | succ n ih =>
    intro key text h
    unfold maskLoop
    split
    · exact ⟨_, rfl⟩
    · rename_i pos hpos
      have hlt := unmasked_overwrite_lt hw hpos
      exact ih _ (by omega)

end Mask

end InpLabs.Lib
