import Mathlib.Data.List.Basic

/-!
# `CppLaravel.Lib.Transition`: runs of a labelled transition system

A system is a relation `Step : σ → α → σ → Prop`. `Trace Step s as s'` is a run from `s` to
`s'` along the list `as` of actions. The theorems are the induction rules of such runs:

* `Trace.invariant`: what every step preserves, every run preserves.
* `Trace.relate`: what every step relates, a run relates, for a reflexive and transitive
  relation between states.
* `Trace.simulate`: a step-by-step simulation lifts to runs.
* `Trace.history`: the invariant rule for a property of a state and of the actions before it.
* `Trace.guarded_or_violated`: a run meets a condition throughout, or has a first step that
  does not.
* `trace_iff_run`: the runs of a step *function* are the values of `run`, so a fixed run
  can be evaluated.

`Guarded G Step` is the system whose steps are taken only where the condition `G` holds of
the state before the step. A run of it is a run of `Step` in which every step meets `G`
(`Trace.of_guarded`).
-/

set_option autoImplicit false

namespace CppLaravel.Lib

variable {σ τ α : Type*}

/-- A run from one state to another along a list of actions. -/
inductive Trace (Step : σ → α → σ → Prop) : σ → List α → σ → Prop
  | nil (s : σ) : Trace Step s [] s
  | cons {s s₁ s' : σ} {a : α} {as : List α} :
      Step s a s₁ → Trace Step s₁ as s' → Trace Step s (a :: as) s'

/-- The steps of `Step` from states where the condition `G` holds of the action taken. -/
def Guarded (G : σ → α → Prop) (Step : σ → α → σ → Prop) : σ → α → σ → Prop :=
  fun s a s' => G s a ∧ Step s a s'

/-- The transition relation of a partial step function. -/
def Steps (step : σ → α → Option σ) : σ → α → σ → Prop :=
  fun s a s' => step s a = some s'

/-- The state a partial step function reaches along a list of actions. -/
def run (step : σ → α → Option σ) : σ → List α → Option σ
  | s, [] => some s
  | s, a :: as => (step s a).bind fun s' => run step s' as

/-- The step function that refuses an action where the condition `G` fails. -/
def guard (G : σ → α → Prop) [∀ s a, Decidable (G s a)] (step : σ → α → Option σ) :
    σ → α → Option σ :=
  fun s a => if G s a then step s a else none

namespace Trace

variable {Step : σ → α → σ → Prop} {s s' : σ} {as : List α}

/-- The invariant rule: a property of states that every step preserves holds at the end of
each run that starts with it. -/
theorem invariant {P : σ → Prop} (hstep : ∀ s a s', P s → Step s a s' → P s')
    (h : Trace Step s as s') (hs : P s) : P s' := by
  induction h with
  | nil s => exact hs
  | cons h₁ _ ih => exact ih (hstep _ _ _ hs h₁)

/-- The two-state invariant rule: under an invariant `P`, a reflexive and transitive
relation that every step establishes holds between the ends of each run. -/
theorem relate {P : σ → Prop} {R : σ → σ → Prop} (hrefl : ∀ s, R s s)
    (htrans : ∀ s₁ s₂ s₃, R s₁ s₂ → R s₂ s₃ → R s₁ s₃)
    (hinv : ∀ s a s', P s → Step s a s' → P s')
    (hstep : ∀ s a s', P s → Step s a s' → R s s')
    (h : Trace Step s as s') (hs : P s) : R s s' := by
  induction h with
  | nil s => exact hrefl s
  | cons h₁ _ ih => exact htrans _ _ _ (hstep _ _ _ hs h₁) (ih (hinv _ _ _ hs h₁))

/-- A simulation lifts to runs: when every step of one system from related states is
matched by the same action of another, so is every run. -/
theorem simulate {Step' : τ → α → τ → Prop} {R : σ → τ → Prop}
    (hsim : ∀ s t a s', R s t → Step s a s' → ∃ t', Step' t a t' ∧ R s' t')
    (h : Trace Step s as s') {t : τ} (hR : R s t) :
    ∃ t', Trace Step' t as t' ∧ R s' t' := by
  induction h generalizing t with
  | nil s => exact ⟨t, nil t, hR⟩
  | cons h₁ _ ih =>
    obtain ⟨t₁, ht₁, hR₁⟩ := hsim _ _ _ _ hR h₁
    obtain ⟨t', ht', hR'⟩ := ih hR₁
    exact ⟨t', cons ht₁ ht', hR'⟩

/-- Runs are put together. -/
theorem append {s₁ : σ} {bs : List α} (h : Trace Step s as s₁) (h' : Trace Step s₁ bs s') :
    Trace Step s (as ++ bs) s' := by
  induction h with
  | nil s => exact h'
  | cons h₁ _ ih => exact cons h₁ (ih h')

/-- A run is taken apart. -/
theorem split {as bs : List α} {s s' : σ} (h : Trace Step s (as ++ bs) s') :
    ∃ s₁, Trace Step s as s₁ ∧ Trace Step s₁ bs s' := by
  induction as generalizing s with
  | nil => exact ⟨s, nil s, h⟩
  | cons a as ih =>
    cases h with
    | cons h₁ h =>
      obtain ⟨s₁, has, hbs⟩ := ih h
      exact ⟨s₁, cons h₁ has, hbs⟩

/-- The invariant rule with a history: a property of a state and the actions that led to it. -/
theorem history {P : List α → σ → Prop}
    (hstep : ∀ before s a s', P before s → Step s a s' → P (before ++ [a]) s')
    (h : Trace Step s as s') (before : List α) (hs : P before s) : P (before ++ as) s' := by
  induction h generalizing before with
  | nil s => rwa [List.append_nil]
  | @cons s s₁ s' a as h₁ _ ih =>
    rw [← List.singleton_append, ← List.append_assoc]
    exact ih _ (hstep before s a s₁ hs h₁)

/-- A run weakens along an implication between the step relations. -/
theorem mono {Step' : σ → α → σ → Prop} (himp : ∀ s a s', Step s a s' → Step' s a s')
    (h : Trace Step s as s') : Trace Step' s as s' := by
  induction h with
  | nil s => exact nil s
  | cons h₁ _ ih => exact cons (himp _ _ _ h₁) ih

/-- A guarded run is a run. -/
theorem of_guarded {G : σ → α → Prop} (h : Trace (Guarded G Step) s as s') :
    Trace Step s as s' :=
  h.mono fun _ _ _ hs => hs.2

/-- A run meets the condition `G` at every step, or there is a first step that does not. -/
theorem guarded_or_violated {G : σ → α → Prop} (h : Trace Step s as s') :
    Trace (Guarded G Step) s as s' ∨ ∃ (before after : List α) (a : α) (s₁ s₂ : σ),
      as = before ++ a :: after ∧ Trace (Guarded G Step) s before s₁ ∧ ¬ G s₁ a ∧
        Step s₁ a s₂ ∧ Trace Step s₂ after s' := by
  induction h with
  | nil s => exact .inl (nil s)
  | @cons s s₁ s' a as h₁ h ih =>
    by_cases hG : G s a
    · rcases ih with hguarded | ⟨before, after, a', t, t', rfl, hbefore, hnot, hstep, hafter⟩
      · exact .inl (cons ⟨hG, h₁⟩ hguarded)
      · exact .inr ⟨a :: before, after, a', t, t', rfl, cons ⟨hG, h₁⟩ hbefore, hnot, hstep, hafter⟩
    · exact .inr ⟨[], as, a, s, s₁, rfl, nil s, hG, h₁, h⟩

end Trace

/-- The runs of a step function are the values of `run`. -/
theorem trace_iff_run {step : σ → α → Option σ} {s s' : σ} {as : List α} :
    Trace (Steps step) s as s' ↔ run step s as = some s' := by
  constructor
  · intro h
    induction h with
    | nil s => rfl
    | cons h₁ _ ih => simpa [run, show step _ _ = some _ from h₁] using ih
  · intro h
    induction as generalizing s with
    | nil => cases h; exact .nil _
    | cons a as ih =>
      obtain ⟨s₁, h₁, h₂⟩ := Option.bind_eq_some_iff.mp h
      exact .cons h₁ (ih h₂)

/-- A step of a step function under a decidable condition is a guarded step. -/
theorem guarded_of_guard {G : σ → α → Prop} [∀ s a, Decidable (G s a)]
    {step : σ → α → Option σ} {s s' : σ} {a : α} (h : guard G step s a = some s') :
    Guarded G (Steps step) s a s' := by
  have h : (if G s a then step s a else none) = some s' := h
  split at h
  · exact ⟨‹_›, h⟩
  · cases h

/-- The run of a step function under a decidable condition, evaluated, is a guarded run. -/
theorem trace_of_run_guard {G : σ → α → Prop} [∀ s a, Decidable (G s a)]
    {step : σ → α → Option σ} {s s' : σ} {as : List α}
    (h : run (guard G step) s as = some s') : Trace (Guarded G (Steps step)) s as s' :=
  (trace_iff_run.mpr h).mono fun _ _ _ => guarded_of_guard

end CppLaravel.Lib
