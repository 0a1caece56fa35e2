/-
  File:      InpLabs/Lib/Lines.lean
  Subject:   The lines of a text that arrives piece by piece.

  * `complete`, `unfinished`: the lines a text has completed, and what stands behind the last of
    them; `unlines`: lines written one after the other. `exists_unlines` takes every text apart;
  * `complete_append`: what a further piece completes;
  * `Marked`: an unfinished line opens with a mark. It holds of pieces put together if it holds of
    each.
-/
import Mathlib.Data.List.Basic

namespace InpLabs.Lib

variable {α : Type*}

/-- Lines, each ended by a separator. -/
def unlines (sep : α) (ls : List (List α)) : List α := ls.flatMap (· ++ [sep])

theorem unlines_cons (sep : α) (l : List α) (ls : List (List α)) :
    unlines sep (l :: ls) = l ++ sep :: unlines sep ls := by
  rw [unlines, List.flatMap_cons, List.append_assoc]
  rfl

theorem unlines_append (sep : α) (ls ms : List (List α)) :
    unlines sep (ls ++ ms) = unlines sep ls ++ unlines sep ms := List.flatMap_append

variable [DecidableEq α]

/-- The lines of a text that are complete, without the separators that end them, -/
def complete (sep : α) (text : List α) : List (List α) := (text.splitOn sep).dropLast

/-- and what stands behind the last of them. -/
def unfinished (sep : α) (text : List α) : List α := (text.splitOn sep).getLastD []

section Lines

variable {sep : α} {ls : List (List α)} {text : List α}

/-! ## 1. Taking a text apart -/

/-- The lines that were written are the lines that are read. -/
theorem complete_unlines_append (h : ∀ l ∈ ls, sep ∉ l) (text : List α) :
    complete sep (unlines sep ls ++ text) = ls ++ complete sep text := by
  induction ls with
  | nil => rfl
  | cons l ls ih =>
    have hrest := ih fun l' hl' => h l' (List.mem_cons_of_mem l hl')
    unfold complete at hrest ⊢
    rw [unlines_cons, List.append_assoc, List.cons_append, List.splitOn_append_cons_self,
      List.splitOn_eq_singleton (h l List.mem_cons_self), List.singleton_append,
      List.dropLast_cons_of_ne_nil (List.splitOn_ne_nil _ _), hrest, List.cons_append]

theorem unfinished_append_cons (a text : List α) :
    unfinished sep (a ++ sep :: text) = unfinished sep text := by
  unfold unfinished
  rw [List.splitOn_append_cons_self, List.getLastD_eq_getLast?,
    List.getLast?_append_of_ne_nil _ (List.splitOn_ne_nil _ _), ← List.getLastD_eq_getLast?]

theorem complete_of_not_mem (h : sep ∉ text) : complete sep text = [] := by
  rw [complete, List.splitOn_eq_singleton h]
  rfl

theorem unfinished_of_not_mem (h : sep ∉ text) : unfinished sep text = text := by
  rw [unfinished, List.splitOn_eq_singleton h]
  rfl

theorem unfinished_unlines_append (ls : List (List α)) (text : List α) :
    unfinished sep (unlines sep ls ++ text) = unfinished sep text := by
  induction ls with
  | nil => rfl
  | cons l ls ih =>
    rw [unlines_cons, List.append_assoc, List.cons_append, unfinished_append_cons, ih]

/-- Every text is made of lines and an unfinished one. -/
theorem exists_unlines (sep : α) (text : List α) :
    ∃ ls tail, text = unlines sep ls ++ tail ∧ (∀ l ∈ ls, sep ∉ l) ∧ sep ∉ tail := by
  induction text with
  | nil => exact ⟨[], [], rfl, nofun, List.not_mem_nil⟩
  | cons a text ih =>
    obtain ⟨ls, tail, rfl, hls, htail⟩ := ih
    by_cases ha : a = sep
    · subst ha
      exact ⟨[] :: ls, tail, by rw [unlines_cons]; rfl, by simpa using hls, htail⟩
    · -- the element joins the first line
      cases ls with
      | nil => exact ⟨[], a :: tail, rfl, nofun, by simpa [Ne.symm ha] using htail⟩
      | cons l ls =>
        refine ⟨(a :: l) :: ls, tail, by rw [unlines_cons, unlines_cons]; rfl, ?_, htail⟩
        simpa [Ne.symm ha] using hls

/-- **What a further piece completes**: the unfinished line goes on with it. -/
theorem complete_append (a b : List α) :
    complete sep (a ++ b) = complete sep a ++ complete sep (unfinished sep a ++ b) := by
  obtain ⟨ls, tail, rfl, hls, htail⟩ := exists_unlines sep a
  rw [List.append_assoc, complete_unlines_append hls, complete_unlines_append hls,
    complete_of_not_mem htail, List.append_nil, unfinished_unlines_append,
    unfinished_of_not_mem htail]

/-- A piece without a separator goes into the unfinished line. -/
theorem unfinished_append (a : List α) {b : List α} (h : sep ∉ b) :
    unfinished sep (a ++ b) = unfinished sep a ++ b := by
  obtain ⟨ls, tail, rfl, -, htail⟩ := exists_unlines sep a
  have hboth : sep ∉ tail ++ b := by simp [htail, h]
  rw [List.append_assoc, unfinished_unlines_append, unfinished_unlines_append,
    unfinished_of_not_mem htail, unfinished_of_not_mem hboth]

theorem not_mem_unfinished (sep : α) (text : List α) : sep ∉ unfinished sep text := by
  obtain ⟨ls, tail, rfl, -, htail⟩ := exists_unlines sep text
  rw [unfinished_unlines_append, unfinished_of_not_mem htail]
  exact htail

/-- A text that ends with a separator leaves no line unfinished. -/
theorem unfinished_of_suffix (h : [sep] <:+ text) : unfinished sep text = [] := by
  obtain ⟨a, rfl⟩ := h
  rw [unfinished_append_cons]
  rfl

/-- Lines behind an unfinished one: the first goes on with it. -/
theorem mem_complete_unlines {l : List α} (htext : sep ∉ text) (hls : ∀ x ∈ ls, sep ∉ x)
    (hne : ls ≠ []) (h : l ∈ complete sep (text ++ unlines sep ls)) :
    (∃ x ∈ ls.head?, l = text ++ x) ∨ l ∈ ls.tail := by
  obtain ⟨x, ls, rfl⟩ := List.exists_cons_of_ne_nil hne
  have hlines : text ++ unlines sep (x :: ls) = unlines sep ((text ++ x) :: ls) ++ [] := by
    rw [unlines_cons, unlines_cons, List.append_nil, List.append_assoc]
  have hfree : ∀ y ∈ (text ++ x) :: ls, sep ∉ y := by
    simpa [htext] using hls
  rw [hlines, complete_unlines_append hfree] at h
  simpa [complete] using h

/-! ## 2. Marked unfinished lines -/

/-- A line that is unfinished opens with the mark. -/
def Marked (sep mark : α) (text : List α) : Prop := ∀ c ∈ (unfinished sep text).head?, c = mark

variable {mark : α}

theorem Marked.of_suffix (h : [sep] <:+ text) : Marked sep mark text := by
  rw [Marked, unfinished_of_suffix h]
  exact nofun

theorem Marked.append {a b : List α} (ha : Marked sep mark a) (hb : Marked sep mark b) :
    Marked sep mark (a ++ b) := by
  obtain ⟨ls, tail, rfl, -, htail⟩ := exists_unlines sep b
  rw [Marked, unfinished_unlines_append, unfinished_of_not_mem htail] at hb
  unfold Marked
  cases ls with
  | nil =>
    -- nothing is completed: the unfinished line of `a` goes on
    show ∀ c ∈ (unfinished sep (a ++ tail)).head?, c = mark
    rw [unfinished_append a htail, List.head?_append]
    intro c hc
    rcases Option.or_eq_some_iff.mp hc with hc | ⟨-, hc⟩
    · exact ha c hc
    · exact hb c hc
  | cons l ls =>
    rw [unlines_cons, List.append_assoc, List.cons_append, ← List.append_assoc,
      unfinished_append_cons, unfinished_unlines_append, unfinished_of_not_mem htail]
    exact hb

theorem Marked.flatten {texts : List (List α)} (h : ∀ text ∈ texts, Marked sep mark text) :
    Marked sep mark texts.flatten := by
  induction texts with
  | nil => exact nofun
  | cons text texts ih =>
    exact (h text List.mem_cons_self).append
      (ih fun text' ht => h text' (List.mem_cons_of_mem text ht))

end Lines

end InpLabs.Lib
