/-
  File:      InpLabs/Lib/Traced.lean
  Subject:   Computations that record what they touch and may become undefined.

  * `Traced`, `touch`: a computation with its trace; without a result it is undefined from the last
    entry of the trace on;
  * `All`, `Yields`: every entry of the trace meets a condition; and there is a result, with a
    property;
  * `forLoop`: a loop that counts its rounds, with the two rules for it. `Yields.forLoop` shows that
    a loop runs to its end, `forLoop_of_all` uses that its trace is known to be right.
-/
import Mathlib.Logic.Basic

namespace InpLabs.Lib

universe u

/-- A computation, with what it has touched. -/
structure Traced (A α : Type*) where
  trace : List A
  result : Option α

namespace Traced

variable {A : Type*} {α β σ : Type u} {P : A → Prop}

instance : Monad (Traced A) where
  pure a := ⟨[], some a⟩
  bind x f :=
    match x.result with
    | none => ⟨x.trace, none⟩
    | some a => ⟨x.trace ++ (f a).trace, (f a).result⟩

/-- One access; where it is not `ok`, nothing is said about what follows. -/
def touch (a : A) (ok : Bool) (v : α) : Traced A α := ⟨[a], if ok then some v else none⟩

/-! ## 1. The trace and the result -/

def All (P : A → Prop) (x : Traced A α) : Prop := ∀ a ∈ x.trace, P a

/-- The trace is right and the computation has a result with `Q`. -/
def Yields (P : A → Prop) (x : Traced A α) (Q : α → Prop) : Prop :=
  x.All P ∧ ∃ a, x.result = some a ∧ Q a

variable {x : Traced A α} {Q Q' : α → Prop} {R : β → Prop}

theorem all_bind (x : Traced A α) (f : α → Traced A β) :
    (x >>= f).All P ↔ x.All P ∧ ∀ a, x.result = some a → (f a).All P := by
  obtain ⟨trace, result⟩ := x
  cases result with
  | none => simp [All, Bind.bind]
  | some a => simp [All, Bind.bind, or_imp, forall_and]

theorem result_bind {a : α} {f : α → Traced A β} (h : x.result = some a) :
    (x >>= f).result = (f a).result := by
  obtain ⟨trace, result⟩ := x
  cases h
  rfl

theorem trace_bind {a : α} {f : α → Traced A β} (h : x.result = some a) :
    (x >>= f).trace = x.trace ++ (f a).trace := by
  obtain ⟨trace, result⟩ := x
  cases h
  rfl

theorem result_bind_eq_some {f : α → Traced A β} {b : β} (h : (x >>= f).result = some b) :
    ∃ a, x.result = some a ∧ (f a).result = some b := by
  obtain ⟨trace, result⟩ := x
  cases result with
  | none => cases h
  | some a => exact ⟨a, rfl, h⟩

/-- A last step that only changes the result. -/
theorem bind_pure (x : Traced A α) (g : α → β) :
    (x >>= fun a => pure (g a)) = ⟨x.trace, x.result.map g⟩ := by
  obtain ⟨trace, result⟩ := x
  cases result with
  | none => rfl
  | some a => exact congrArg (Traced.mk · _) (List.append_nil trace)

theorem Yields.all (h : x.Yields P Q) : x.All P := h.1

theorem Yields.mono (h : x.Yields P Q) (hQ : ∀ a, Q a → Q' a) : x.Yields P Q' := by
  obtain ⟨hall, a, ha, hq⟩ := h
  exact ⟨hall, a, ha, hQ a hq⟩

theorem Yields.result_eq {v : α} (h : x.Yields P (· = v)) : x.result = some v := by
  obtain ⟨-, a, ha, rfl⟩ := h
  exact ha

theorem all_pure {a : α} : (pure a : Traced A α).All P :=
  fun _ hb => absurd hb List.not_mem_nil

theorem yields_pure {a : α} (h : Q a) : (pure a : Traced A α).Yields P Q :=
  ⟨all_pure, a, rfl, h⟩

theorem yields_touch {a : A} {ok : Bool} {v : α} (ha : P a) (hok : ok = true) (hv : Q v) :
    (touch a ok v).Yields P Q :=
  ⟨fun _ hb => List.mem_singleton.mp hb ▸ ha, v, if_pos hok, hv⟩

theorem all_touch {a : A} {ok : Bool} {v : α} : (touch a ok v).All P ↔ P a := by
  simp [All, touch]

theorem Yields.bind {f : α → Traced A β} (h : x.Yields P Q) (hf : ∀ a, Q a → (f a).Yields P R) :
    (x >>= f).Yields P R := by
  obtain ⟨hall, a, ha, hq⟩ := h
  obtain ⟨hall', b, hb, hr⟩ := hf a hq
  refine ⟨(all_bind x f).mpr ⟨hall, fun c hc => ?_⟩, b, ?_, hr⟩
  · rw [ha] at hc
    cases hc
    exact hall'
  · rw [result_bind ha]
    exact hb

/-- The value of an access that is known to be right is what the next step gets. -/
theorem all_touch_bind {a : A} {ok : Bool} {v : α} {f : α → Traced A β} (hok : P a → ok = true) :
    (touch a ok v >>= f).All P ↔ P a ∧ (f v).All P := by
  rw [all_bind, all_touch]
  refine and_congr_right fun ha => ⟨fun h => h v (if_pos (hok ha)), fun h b hb => ?_⟩
  have hv : (touch a ok v).result = some v := if_pos (hok ha)
  rw [hv] at hb
  cases hb
  exact h

/-- After a computation with a known result, only what follows is left to check. -/
theorem Yields.all_bind {v : α} {f : α → Traced A β} (h : x.Yields P (· = v)) :
    (x >>= f).All P ↔ (f v).All P := by
  obtain ⟨hall, a, ha, rfl⟩ := h
  rw [Traced.all_bind]
  refine ⟨fun hf => hf.2 a ha, fun hf => ⟨hall, fun b hb => ?_⟩⟩
  rw [ha] at hb
  cases hb
  exact hf

theorem all_pure_bind {v : α} {f : α → Traced A β} :
    ((pure v : Traced A α) >>= f).All P ↔ (f v).All P :=
  (yields_pure (Q := (· = v)) rfl).all_bind

/-! ## 2. Loops -/

/-- `n` rounds, counted from `i`. -/
def forLoop (body : Nat → σ → Traced A σ) : Nat → Nat → σ → Traced A σ
  | 0, _, s => pure s
  | n + 1, i, s => body i s >>= forLoop body n (i + 1)

variable {body : Nat → σ → Traced A σ} {I : Nat → σ → Prop} {n i : Nat} {s : σ}

theorem all_forLoop_succ :
    (forLoop body (n + 1) i s).All P ↔
      (body i s).All P ∧ ∀ t, (body i s).result = some t → (forLoop body n (i + 1) t).All P :=
  all_bind _ _

/-- **The loop runs to its end**: every round yields the invariant of the next. -/
theorem Yields.forLoop (hbody : ∀ j s, i ≤ j → j < i + n → I j s → (body j s).Yields P (I (j + 1)))
    (h : I i s) : (forLoop body n i s).Yields P (I (i + n)) := by
  induction n generalizing i s with
  | zero => exact yields_pure h
  | succ n ih =>
    refine (hbody i s (Nat.le_refl i) (by omega) h).bind fun t ht => ?_
    have hrest := ih (fun j s hj hlt => hbody j s (by omega) (by omega)) ht
    rwa [Nat.add_right_comm] at hrest

/-- **The trace of the loop is right**, so each round may use that its own is. -/
theorem forLoop_of_all
    (hbody : ∀ j s, i ≤ j → j < i + n → I j s → (body j s).All P → (body j s).Yields P (I (j + 1)))
    (h : I i s) (hall : (Traced.forLoop body n i s).All P) :
    (Traced.forLoop body n i s).Yields P (I (i + n)) := by
  induction n generalizing i s with
  | zero => exact yields_pure h
  | succ n ih =>
    obtain ⟨hfirst, hrest⟩ := all_forLoop_succ.mp hall
    have hyields := hbody i s (Nat.le_refl i) (by omega) h hfirst
    obtain ⟨-, t, ht, hI⟩ := hyields
    have hloop := ih (fun j s hj hlt => hbody j s (by omega) (by omega)) hI (hrest t ht)
    rw [Nat.add_right_comm] at hloop
    refine Yields.bind ⟨hfirst, t, ht, rfl⟩ fun u hu => ?_
    subst hu
    exact hloop

section Rounds

-- the trace of each round is right exactly under a condition on its number
variable {c : Nat → Prop}
  (hbody : ∀ j s, i ≤ j → j < i + n → I j s →
    ((body j s).All P → c j) ∧ (c j → (body j s).Yields P (I (j + 1))))
  (h : I i s)

include hbody h

theorem forLoop_yields (hc : ∀ j, i ≤ j → j < i + n → c j) :
    (Traced.forLoop body n i s).Yields P (I (i + n)) :=
  Yields.forLoop (fun j s hj hlt hI => (hbody j s hj hlt hI).2 (hc j hj hlt)) h

/-- **The trace of the loop is right exactly when each round's is.** -/
theorem forLoop_all_iff :
    (Traced.forLoop body n i s).All P ↔ ∀ j, i ≤ j → j < i + n → c j := by
  constructor
  · intro hall
    have hloop : (Traced.forLoop body n i s).Yields P fun _ => ∀ j, i ≤ j → j < i + n → c j := by
      refine (forLoop_of_all (I := fun m s => I m s ∧ ∀ j, i ≤ j → j < m → c j)
        (fun j s hj hlt hI hall => ?_) ⟨h, fun j hj hlt => absurd hj (by omega)⟩ hall).mono
        fun _ hI => hI.2
      have hc := (hbody j s hj hlt hI.1).1 hall
      refine ((hbody j s hj hlt hI.1).2 hc).mono fun t ht => ⟨ht, fun m hm hlt => ?_⟩
      rcases Nat.lt_succ_iff_lt_or_eq.mp hlt with hlt | rfl
      · exact hI.2 m hm hlt
      · exact hc
    obtain ⟨-, _, -, hc⟩ := hloop
    exact hc
  · intro hc
    exact (forLoop_yields hbody h hc).all

end Rounds

end Traced

end InpLabs.Lib
