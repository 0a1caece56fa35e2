/-
  File:      InpLabs/Lib/Lts.lean
  Subject:   Labelled transition systems: runs, reachable states, the invariant rules.

  * `Lts`, `Lts.Run`, `Lts.Reachable`: a system, its runs with their history (newest label first)
    and the states a run ends in;
  * `Run.invariant`, `Run.history_invariant`: what holds at the start and is kept by a step holds
    after every run; the second rule may speak about the history as well;
  * `restrict`: the system whose steps all meet a condition;
  * `Leads`, `leads_of_measure`: what can still be reached from a state, and the rule for it: every
    state is led closer to the goal.
-/
import Mathlib.Logic.Relation

namespace InpLabs.Lib

/-- A labelled transition system: its start states and its steps. -/
structure Lts (σ Λ : Type*) where
  init : σ → Prop
  step : σ → Λ → σ → Prop

namespace Lts

variable {σ Λ : Type*} {M : Lts σ Λ}

/-! ## 1. Runs -/

/-- A run with its history; the head of the list is the last step taken. -/
inductive Run (M : Lts σ Λ) : List Λ → σ → Prop where
  | start {s : σ} (h : M.init s) : Run M [] s
  | step {ls : List Λ} {l : Λ} {s s' : σ} (h : Run M ls s) (hs : M.step s l s') :
      Run M (l :: ls) s'

/-- The states some run ends in. -/
def Reachable (M : Lts σ Λ) (s : σ) : Prop := ∃ ls, M.Run ls s

theorem Reachable.step {s s' : σ} {l : Λ} (h : M.Reachable s) (hs : M.step s l s') :
    M.Reachable s' := by
  obtain ⟨ls, hr⟩ := h
  exact ⟨l :: ls, hr.step hs⟩

theorem Run.step_inv {ls : List Λ} {l : Λ} {s' : σ} (h : M.Run (l :: ls) s') :
    ∃ s, M.Run ls s ∧ M.step s l s' := by
  cases h with
  | step h hs => exact ⟨_, h, hs⟩

/-- Where the labels determine the steps, a run is determined by its history. -/
theorem Run.unique (h0 : ∀ s s', M.init s → M.init s' → s = s')
    (hstep : ∀ s l t t', M.step s l t → M.step s l t' → t = t') {ls : List Λ} {s s' : σ}
    (h : M.Run ls s) (h' : M.Run ls s') : s = s' := by
  induction h generalizing s' with
  | start h =>
    cases h' with
    | start h' => exact h0 _ _ h h'
  | step h hs ih =>
    obtain ⟨t, ht, hs'⟩ := h'.step_inv
    obtain rfl := ih ht
    exact hstep _ _ _ _ hs hs'

/-! ## 2. The invariant rules -/

/-- An invariant that may also read the history: it holds after every run. -/
theorem Run.history_invariant {I : List Λ → σ → Prop} (h0 : ∀ s, M.init s → I [] s)
    (hstep : ∀ ls s l s', M.Run ls s → I ls s → M.step s l s' → I (l :: ls) s')
    {ls : List Λ} {s : σ} (h : M.Run ls s) : I ls s := by
  induction h with
  | start h => exact h0 _ h
  | step h hs ih => exact hstep _ _ _ _ h ih hs

/-- An invariant: true at the start and kept by every step, so true after every run. -/
theorem Run.invariant {I : σ → Prop} (h0 : ∀ s, M.init s → I s)
    (hstep : ∀ s l s', I s → M.step s l s' → I s') {ls : List Λ} {s : σ} (h : M.Run ls s) : I s :=
  h.history_invariant (I := fun _ s => I s) h0 fun _ _ _ _ _ hi hs => hstep _ _ _ hi hs

theorem Reachable.invariant {I : σ → Prop} (h0 : ∀ s, M.init s → I s)
    (hstep : ∀ s l s', I s → M.step s l s' → I s') {s : σ} (h : M.Reachable s) : I s := by
  obtain ⟨_, hr⟩ := h
  exact hr.invariant h0 hstep

/-! ## 3. Runs whose steps all meet a condition -/

/-- The system that takes only the steps with `P` at the state before. -/
def restrict (M : Lts σ Λ) (P : σ → Λ → Prop) : Lts σ Λ where
  init := M.init
  step s l s' := P s l ∧ M.step s l s'

theorem Run.of_restrict {P : σ → Λ → Prop} {ls : List Λ} {s : σ} (h : (M.restrict P).Run ls s) :
    M.Run ls s := by
  induction h with
  | start h => exact .start h
  | step _ hs ih => exact .step ih hs.2

theorem Reachable.of_restrict {P : σ → Λ → Prop} {s : σ} (h : (M.restrict P).Reachable s) :
    M.Reachable s := by
  obtain ⟨ls, hr⟩ := h
  exact ⟨ls, hr.of_restrict⟩

theorem Run.restrict_mono {P Q : σ → Λ → Prop} (hPQ : ∀ s l, P s l → Q s l) {ls : List Λ} {s : σ}
    (h : (M.restrict P).Run ls s) : (M.restrict Q).Run ls s := by
  induction h with
  | start h => exact .start h
  | step _ hs ih => exact .step ih ⟨hPQ _ _ hs.1, hs.2⟩

theorem Reachable.restrict_mono {P Q : σ → Λ → Prop} (hPQ : ∀ s l, P s l → Q s l) {s : σ}
    (h : (M.restrict P).Reachable s) : (M.restrict Q).Reachable s := by
  obtain ⟨ls, hr⟩ := h
  exact ⟨ls, hr.restrict_mono hPQ⟩

/-! ## 4. What can still be reached -/

/-- Some steps lead from one state to the other. -/
def Leads (M : Lts σ Λ) : σ → σ → Prop := Relation.ReflTransGen fun s s' => ∃ l, M.step s l s'

theorem Leads.refl {s : σ} : M.Leads s s := Relation.ReflTransGen.refl

theorem Leads.trans {s t u : σ} (h : M.Leads s t) (h' : M.Leads t u) : M.Leads s u :=
  Relation.ReflTransGen.trans h h'

theorem Leads.of_step {s s' : σ} {l : Λ} (h : M.step s l s') : M.Leads s s' :=
  Relation.ReflTransGen.single ⟨l, h⟩

theorem Leads.of_restrict {P : σ → Λ → Prop} {s t : σ} (h : (M.restrict P).Leads s t) :
    M.Leads s t := by
  refine Relation.ReflTransGen.mono (fun u v huv => ?_) _ _ h
  obtain ⟨l, hl⟩ := huv
  exact ⟨l, hl.2⟩

theorem Leads.restrict_mono {P Q : σ → Λ → Prop} (hPQ : ∀ s l, P s l → Q s l) {s t : σ}
    (h : (M.restrict P).Leads s t) : (M.restrict Q).Leads s t := by
  refine Relation.ReflTransGen.mono (fun u v huv => ?_) _ _ h
  obtain ⟨l, hl⟩ := huv
  exact ⟨l, hPQ _ _ hl.1, hl.2⟩

theorem Leads.reachable {s s' : σ} (hs : M.Reachable s) (h : M.Leads s s') : M.Reachable s' := by
  induction h with
  | refl => exact hs
  | tail _ hstep ih =>
    obtain ⟨l, hl⟩ := hstep
    exact ih.step hl

/-- **What can be completed**: where every state that is not at the goal leads to one that is closer
to it, every state leads to the goal. -/
theorem leads_of_measure {I G : σ → Prop} (m : σ → Nat)
    (hstep : ∀ s, I s → ¬ G s → ∃ t, M.Leads s t ∧ I t ∧ m t < m s) {s : σ} (hs : I s) :
    ∃ t, M.Leads s t ∧ I t ∧ G t := by
  induction h : m s using Nat.strongRecOn generalizing s with
  | _ n ih =>
    by_cases hg : G s
    · exact ⟨s, .refl, hs, hg⟩
    · obtain ⟨t, hst, ht, hlt⟩ := hstep s hs hg
      obtain ⟨u, htu, hu⟩ := ih (m t) (h ▸ hlt) ht rfl
      exact ⟨u, hst.trans htu, hu⟩

end Lts

end InpLabs.Lib
