import Mathlib.Order.Basic
import Mathlib.Logic.Relation

/-!
# Runs of a partial step function

A component whose every operation either succeeds with a new state or fails
(a panic, an assertion, a refused request) is a partial step function
`step : σ → α → Option σ`.  This module packages the two induction rules that
every invariant and every monotonicity argument over such components uses:
a one-step fact that holds of every step is lifted to every run.

Main results:

- Theorem {lit}`Run.runSteps_append`: a run over a concatenation is the
  composition of the two runs.
- Theorem {lit}`Run.invariant_runSteps`: a predicate preserved by every step
  holds after every run.
- Theorem {lit}`Run.rel_runSteps`: a reflexive, transitive relation that every
  step establishes between an invariant state and its successor relates the
  two ends of every run.
- Theorem {lit}`Run.exists_runSteps_of_step`: a run of admissible steps never
  fails when no admissible step fails from a state satisfying an inductive
  invariant.
- Theorems {lit}`Run.invariant_reflTransGen` and {lit}`Run.rel_reflTransGen`:
  the same two rules for runs whose admissible actions depend on the state.
-/

namespace Run

variable {σ α : Type _}

/-- Apply the actions in order; fail as soon as one step fails. -/
def runSteps (step : σ → α → Option σ) : σ → List α → Option σ
  | s, [] => some s
  | s, a :: as => (step s a).bind fun s' => runSteps step s' as

/-- The empty run stays in its state. -/
@[simp]
theorem runSteps_nil (step : σ → α → Option σ) (s : σ) :
    runSteps step s [] = some s :=
  rfl

/-- A run takes its first step, then runs the rest from the state it reaches. -/
@[simp]
theorem runSteps_cons (step : σ → α → Option σ) (s : σ) (a : α) (as : List α) :
    runSteps step s (a :: as) = (step s a).bind fun s' => runSteps step s' as :=
  rfl

/-- Running a concatenation runs the prefix and then the suffix. -/
theorem runSteps_append (step : σ → α → Option σ) (s : σ) (as bs : List α) :
    runSteps step s (as ++ bs) = (runSteps step s as).bind fun s' => runSteps step s' bs := by
  induction as generalizing s with
  | nil => rfl
  | cons a as ih =>
      simp only [List.cons_append, runSteps_cons]
      cases step s a with
      | none => rfl
      | some s' => exact ih s'

/-- A successful run of a concatenation passes through a state reached by the
prefix. -/
theorem runSteps_append_eq_some {step : σ → α → Option σ} {s s'' : σ} {as bs : List α}
    (h : runSteps step s (as ++ bs) = some s'') :
    ∃ s', runSteps step s as = some s' ∧ runSteps step s' bs = some s'' := by
  rw [runSteps_append] at h
  cases hpre : runSteps step s as with
  | none => simp [hpre] at h
  | some s' =>
      rw [hpre] at h
      exact ⟨s', rfl, h⟩

section Invariant

variable {step : σ → α → Option σ} {Inv : σ → Prop}

/-- Invariant rule: a predicate preserved by every successful step holds after
every successful run. -/
theorem invariant_runSteps
    (hstep : ∀ s a s', Inv s → step s a = some s' → Inv s') :
    ∀ {s s' : σ} {as : List α}, Inv s → runSteps step s as = some s' → Inv s'
  | s, s', [], hs, h => by
      simp only [runSteps_nil, Option.some.injEq] at h
      exact h ▸ hs
  | s, s', a :: as, hs, h => by
      simp only [runSteps_cons] at h
      cases hs1 : step s a with
      | none => simp [hs1] at h
      | some s1 =>
          rw [hs1, Option.bind_some] at h
          exact invariant_runSteps hstep (hstep s a s1 hs hs1) h

/-- Monotonicity rule: if every step from an invariant state keeps the
invariant and relates the two states by a preorder, the two ends of every run
are related. -/
theorem rel_runSteps {R : σ → σ → Prop} (hrefl : ∀ s, R s s)
    (htrans : ∀ s₁ s₂ s₃, R s₁ s₂ → R s₂ s₃ → R s₁ s₃)
    (hstep : ∀ s a s', Inv s → step s a = some s' → Inv s' ∧ R s s') :
    ∀ {s s' : σ} {as : List α}, Inv s → runSteps step s as = some s' → R s s'
  | s, s', [], _, h => by
      simp only [runSteps_nil, Option.some.injEq] at h
      exact h ▸ hrefl s
  | s, s', a :: as, hs, h => by
      simp only [runSteps_cons] at h
      cases hs1 : step s a with
      | none => simp [hs1] at h
      | some s1 =>
          rw [hs1, Option.bind_some] at h
          have hone := hstep s a s1 hs hs1
          exact htrans s s1 s' hone.2 (rel_runSteps hrefl htrans hstep hone.1 h)

/-- Safety rule: if every admissible step from an invariant state succeeds and
keeps the invariant, every run of admissible steps from such a state succeeds
and ends in an invariant state. -/
theorem exists_runSteps_of_step {Valid : α → Prop}
    (hstep : ∀ s a, Inv s → Valid a → ∃ s', step s a = some s' ∧ Inv s') :
    ∀ {s : σ} (as : List α), Inv s → (∀ a ∈ as, Valid a) →
      ∃ s', runSteps step s as = some s' ∧ Inv s'
  | s, [], hs, _ => ⟨s, rfl, hs⟩
  | s, a :: as, hs, hvalid => by
      obtain ⟨s1, hs1, hinv1⟩ := hstep s a hs (hvalid a List.mem_cons_self)
      obtain ⟨s', hrun, hinv'⟩ := exists_runSteps_of_step hstep as hinv1
        (fun b hb => hvalid b (List.mem_cons_of_mem a hb))
      exact ⟨s', by simp [hs1, hrun], hinv'⟩

end Invariant

/-! ## Runs of steps admissible where they are taken

When what a caller may pass depends on the state (a response that must answer
the query the state made), a run is a path of the relation that relates two
states by one admissible successful step, and the states it reaches are those
of Mathlib's reflexive transitive closure. -/

section Admissible

variable {step : σ → α → Option σ} {Admissible : σ → α → Prop} {Inv : σ → Prop}

/-- One successful step with an action admissible in the state it is taken
from. -/
def AdmissibleStep (step : σ → α → Option σ) (Admissible : σ → α → Prop) (s s' : σ) : Prop :=
  ∃ a, Admissible s a ∧ step s a = some s'

/-- Invariant rule for admissible runs: a predicate kept by every admissible
successful step holds in every state such a run reaches. -/
theorem invariant_reflTransGen
    (hstep : ∀ s a s', Inv s → Admissible s a → step s a = some s' → Inv s')
    {s s' : σ} (hs : Inv s)
    (h : Relation.ReflTransGen (AdmissibleStep step Admissible) s s') : Inv s' := by
  induction h with
  | refl => exact hs
  | tail _ hlast ih =>
      obtain ⟨a, hadm, hone⟩ := hlast
      exact hstep _ a _ ih hadm hone

/-- Monotonicity rule for admissible runs: a preorder that every admissible
step from an invariant state establishes relates the two ends of every
admissible run from an invariant state. -/
theorem rel_reflTransGen {R : σ → σ → Prop} (hrefl : ∀ s, R s s)
    (htrans : ∀ s₁ s₂ s₃, R s₁ s₂ → R s₂ s₃ → R s₁ s₃)
    (hstep : ∀ s a s', Inv s → Admissible s a → step s a = some s' → Inv s' ∧ R s s')
    {s s' : σ} (hs : Inv s)
    (h : Relation.ReflTransGen (AdmissibleStep step Admissible) s s') : R s s' := by
  suffices hboth : Inv s' ∧ R s s' from hboth.2
  induction h with
  | refl => exact ⟨hs, hrefl s⟩
  | tail _ hlast ih =>
      obtain ⟨a, hadm, hone⟩ := hlast
      obtain ⟨hinv, hrel⟩ := hstep _ a _ ih.1 hadm hone
      exact ⟨hinv, htrans _ _ _ ih.2 hrel⟩

end Admissible

end Run
