/-
  File:      InpLabs/Lib/Channel.lean
  Subject:   Datagram channels, and receivers that collect what arrives.

  * `Channel.Step`: the messages in flight are a multiset, any of them may be the next to arrive,
    and the channel may lose or duplicate one;
  * `Collects`, `foldl_collects`: a receiver whose state determines the set of keys it has seen, and
    to which a message adds its key, has seen the same keys after any order and any repetition.
-/
import Mathlib.Data.Multiset.AddSub
import Mathlib.Data.Set.Insert

namespace InpLabs.Lib

/-! ## 1. The channel -/

namespace Channel

variable {α : Type*} [DecidableEq α]

/-- What the channel does by itself. -/
inductive Event where
  | lose
  | duplicate
  deriving DecidableEq

inductive Step : Multiset α → Event → Multiset α → Prop where
  | lose {c : Multiset α} {m : α} (h : m ∈ c) : Step c .lose (c.erase m)
  | duplicate {c : Multiset α} {m : α} (h : m ∈ c) : Step c .duplicate (m ::ₘ c)

variable {c c' : Multiset α} {e : Event}

/-- It makes no messages up. -/
theorem Step.subset (h : Step c e c') : c' ⊆ c := by
  cases h with
  | lose h => exact Multiset.erase_subset _ c
  | duplicate h => exact Multiset.cons_subset.mpr ⟨h, Multiset.Subset.refl c⟩

/-- Only messages in flight are lost or duplicated. -/
theorem Step.ne_zero (h : Step c e c') : c ≠ 0 := by
  intro h0
  subst h0
  cases h with
  | lose h => exact Multiset.notMem_zero _ h
  | duplicate h => exact Multiset.notMem_zero _ h

theorem Step.card_lose (h : Step c .lose c') : c'.card + 1 = c.card := by
  cases h with
  | lose h => exact Multiset.card_erase_add_one h

theorem Step.duplicate_ne_zero (h : Step c .duplicate c') : c' ≠ 0 := by
  cases h with
  | duplicate h => exact Multiset.cons_ne_zero

/-- It may lose everything: what is kept by every loss holds of the empty channel. -/
theorem lose_all {P : Multiset α → Prop} (hP : ∀ c c', P c → Step c .lose c' → P c') (h : P c) :
    P 0 := by
  induction c using Multiset.induction with
  | empty => exact h
  | cons m c ih =>
    have hstep := Step.lose (Multiset.mem_cons_self m c)
    rw [Multiset.erase_cons_head] at hstep
    exact ih (hP _ _ h hstep)

end Channel

/-! ## 2. Collecting -/

section Collects

variable {σ α κ : Type*} {step : σ → α → σ} {know : σ → Set κ} {key : α → κ} {I : σ → Prop}
  {A : α → Prop}

/-- A message that is admitted adds its key, at states with the invariant. -/
def Collects (step : σ → α → σ) (know : σ → Set κ) (key : α → κ) (I : σ → Prop) (A : α → Prop) :
    Prop :=
  ∀ s m, I s → A m → I (step s m) ∧ know (step s m) = insert (key m) (know s)

/-- **After any order, with any repetition, the keys are those of the messages.** -/
theorem foldl_collects (h : Collects step know key I A) {ms : List α} (hms : ∀ m ∈ ms, A m) {s : σ}
    (hs : I s) :
    I (ms.foldl step s) ∧ know (ms.foldl step s) = know s ∪ {k | ∃ m ∈ ms, key m = k} := by
  induction ms generalizing s with
  | nil => exact ⟨hs, by simp⟩
  | cons m ms ih =>
    obtain ⟨hI, hknow⟩ := h s m hs (hms m List.mem_cons_self)
    obtain ⟨hI', hknow'⟩ := ih (fun m' hm' => hms m' (List.mem_cons_of_mem m hm')) hI
    refine ⟨hI', ?_⟩
    rw [List.foldl_cons, hknow', hknow]
    ext k
    simp only [Set.mem_union, Set.mem_insert_iff, Set.mem_ofPred_eq, List.exists_mem_cons_iff]
    rw [@eq_comm _ k (key m)]
    tauto

end Collects

end InpLabs.Lib
