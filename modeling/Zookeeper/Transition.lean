import Mathlib.Logic.Basic

/-!
# Runs of a labelled transition system

A *system* has initial states and a labelled step relation.  A run is *guarded*
by a condition on the state before a step and on its label.  `Run ok` collects
the states that the guarded runs reach, and `Reachable` is the unguarded case.

`Run.invariant` packages the induction every safety proof uses: what the initial
states have and every guarded step keeps, every state of every guarded run has.
`exec` runs a partial step function along a list of labels.  `exec_run` turns such
a computation into a run, guarded where the computation is `Guarded`, which can be
decided.

`Steps` has the steps between two states, for what is said of both.  Steps of one system are
matched by steps of another where every single one is (`Steps.simulate`).
-/

namespace Transition

universe u v

/-- A labelled transition system over states `σ` and labels `α`. -/
structure System (σ : Type u) (α : Type v) where
  /-- The initial states. -/
  init : σ → Prop
  /-- One step, with its label. -/
  step : σ → α → σ → Prop

namespace System

variable {σ : Type u} {α : Type v} {S : System σ α}

/-- The states reached by runs all of whose steps satisfy `ok`. -/
inductive Run (S : System σ α) (ok : σ → α → Prop) : σ → Prop where
  | start {s : σ} : S.init s → Run S ok s
  | next {s s' : σ} {a : α} : Run S ok s → ok s a → S.step s a s' → Run S ok s'

/-- The states reached by any run. -/
def Reachable (S : System σ α) (s : σ) : Prop := S.Run (fun _ _ => True) s

/-- What holds initially and is kept by every guarded step holds along guarded runs. -/
theorem Run.invariant {ok : σ → α → Prop} {I : σ → Prop}
    (start : ∀ s, S.init s → I s)
    (next : ∀ s a s', I s → ok s a → S.step s a s' → I s') {s : σ}
    (hr : S.Run ok s) : I s := by
  induction hr with
  | start hi => exact start _ hi
  | next _ hok hs ih => exact next _ _ _ ih hok hs

/-- A guard that asks for less has more runs. -/
theorem Run.mono {ok ok' : σ → α → Prop} (weaker : ∀ s a, ok s a → ok' s a) {s : σ}
    (hr : S.Run ok s) : S.Run ok' s := by
  induction hr with
  | start hi => exact .start hi
  | next _ hok hs ih => exact ih.next (weaker _ _ hok) hs

theorem Reachable.invariant {I : σ → Prop}
    (start : ∀ s, S.init s → I s)
    (next : ∀ s a s', I s → S.step s a s' → I s') {s : σ}
    (hr : S.Reachable s) : I s :=
  Run.invariant start (fun s a s' hi _ hs => next s a s' hi hs) hr

end System

/-! ## Steps and simulations -/

section Steps

universe w

variable {σ : Type u} {τ : Type w} {α : Type v} {step : σ → α → σ → Prop} {step' : τ → α → τ → Prop}

/-- Steps from one state to another, with their labels. -/
inductive Steps (step : σ → α → σ → Prop) : σ → List α → σ → Prop where
  | nil {s : σ} : Steps step s [] s
  | cons {s s' s'' : σ} {a : α} {as : List α} :
      step s a s' → Steps step s' as s'' → Steps step s (a :: as) s''

/-- What every step keeps, steps keep. -/
theorem Steps.invariant {I : σ → Prop} (next : ∀ s a s', I s → step s a s' → I s') {s s' : σ}
    {as : List α} (h : Steps step s as s') (hs : I s) : I s' := by
  induction h with
  | nil => exact hs
  | cons hstep _ ih => exact ih (next _ _ _ hs hstep)

/-- Where every step is matched by one with its label, so are steps. -/
theorem Steps.simulate {R : σ → τ → Prop}
    (next : ∀ s a s' t, R s t → step s a s' → ∃ t', step' t a t' ∧ R s' t') {s s' : σ}
    {as : List α} (h : Steps step s as s') {t : τ} (hs : R s t) :
    ∃ t', Steps step' t as t' ∧ R s' t' := by
  induction h generalizing t with
  | nil => exact ⟨t, .nil, hs⟩
  | cons hstep _ ih =>
      obtain ⟨m, hm, hR⟩ := next _ _ _ _ hs hstep
      obtain ⟨t', ht', hR'⟩ := ih hR
      exact ⟨t', .cons hm ht', hR'⟩

end Steps

/-! ## Systems given by a partial step function -/

section Functional

variable {σ : Type u} {α : Type v}

/-- The system of a partial step function. -/
def ofStep (init : σ → Prop) (step : σ → α → Option σ) : System σ α where
  init := init
  step s a s' := step s a = some s'

/-- Run a partial step function along a list of labels. -/
def exec (step : σ → α → Option σ) : σ → List α → Option σ
  | s, [] => some s
  | s, a :: as => (step s a).bind fun s' => exec step s' as

/-- Every step of a computation satisfies `ok`. -/
def Guarded (step : σ → α → Option σ) (ok : σ → α → Prop) : σ → List α → Prop
  | _, [] => True
  | s, a :: as => ok s a ∧ ∀ s' ∈ step s a, Guarded step ok s' as

instance Guarded.decidable {step : σ → α → Option σ} {ok : σ → α → Prop}
    [∀ s a, Decidable (ok s a)] : ∀ s as, Decidable (Guarded step ok s as)
  | _, [] => inferInstanceAs (Decidable True)
  | s, a :: as =>
      have : DecidablePred fun s' => Guarded step ok s' as := fun s' => Guarded.decidable s' as
      inferInstanceAs (Decidable (ok s a ∧ ∀ s' ∈ step s a, Guarded step ok s' as))

/-- A guarded computation extends a guarded run. -/
theorem exec_run {init : σ → Prop} {step : σ → α → Option σ} {ok : σ → α → Prop}
    {as : List α} {s s' : σ} (hr : (ofStep init step).Run ok s) (hg : Guarded step ok s as)
    (h : exec step s as = some s') : (ofStep init step).Run ok s' := by
  induction as generalizing s with
  | nil =>
      simp only [exec, Option.some.injEq] at h
      exact h ▸ hr
  | cons a as ih =>
      simp only [exec, Option.bind_eq_some_iff] at h
      obtain ⟨m, hm, hrest⟩ := h
      exact ih (.next hr hg.1 hm) (hg.2 m hm) hrest

/-- The steps of a guarded computation. -/
theorem exec_steps {step : σ → α → Option σ} {ok : σ → α → Prop} {as : List α} {s s' : σ}
    (hg : Guarded step ok s as) (h : exec step s as = some s') :
    Steps (fun s a s' => ok s a ∧ step s a = some s') s as s' := by
  induction as generalizing s with
  | nil =>
      cases h
      exact .nil
  | cons a as ih =>
      simp only [exec, Option.bind_eq_some_iff] at h
      obtain ⟨m, hm, hrest⟩ := h
      exact .cons ⟨hg.1, hm⟩ (ih (hg.2 m hm) hrest)

theorem guarded_true {step : σ → α → Option σ} (as : List α) (s : σ) :
    Guarded step (fun _ _ => True) s as := by
  induction as generalizing s with
  | nil => trivial
  | cons a as ih => exact ⟨trivial, fun s' _ => ih s'⟩

/-- A computation from an initial state is a run. -/
theorem exec_reachable {init : σ → Prop} {step : σ → α → Option σ} {s s' : σ} {as : List α}
    (hi : init s) (h : exec step s as = some s') : (ofStep init step).Reachable s' :=
  exec_run (.start hi) (guarded_true as s) h

end Functional

end Transition
