import Fog.Lib.Run

/-!
# Refinement of a partial machine with outputs by a total one

An implementation whose operations may fail and return a value is a partial
machine {lit}`step : σ → α → Option (σ × β)`; the specification it is meant to
implement is often a total machine {lit}`spec : τ → α → τ × β` (a map, a
counter, a queue).  The implementation refines the specification on a set of
admissible inputs when, from related states, every admissible operation
succeeds, returns what the specification returns, and leads to related states.
This module defines the runs of both kinds of machines and proves the one rule
that lifts such a one-step simulation to every run: the implementation never
fails and produces the specification's outputs.

Main results:

- Theorem {lit}`Run.runOutputs_append`: a run over a concatenation is the
  composition of the two runs.
- Theorem {lit}`Run.invariant_runOutputs`: a predicate kept by every step
  holds after every run.
- Theorem {lit}`Run.runOutputs_of_simulation`: forward simulation of a total
  machine by a partial one, over every run of admissible inputs, where what is
  admissible may depend on the state and on the inputs still to come.
- Theorem {lit}`Run.runOutputs_replicate`: the run of one input repeated, from
  a family of states indexed by the steps taken.
-/

namespace Run

variable {σ τ α β : Type _}

/-- Run a partial machine, collecting its outputs; fail as soon as one step
fails. -/
def runOutputs (step : σ → α → Option (σ × β)) : σ → List α → Option (σ × List β)
  | s, [] => some (s, [])
  | s, a :: as =>
      (step s a).bind fun r =>
        (runOutputs step r.1 as).map fun rest => (rest.1, r.2 :: rest.2)

/-- Run a total machine, collecting its outputs. -/
def runTotal (spec : τ → α → τ × β) : τ → List α → τ × List β
  | t, [] => (t, [])
  | t, a :: as =>
      let rest := runTotal spec (spec t a).1 as
      (rest.1, (spec t a).2 :: rest.2)

/-- The empty run stays in its state and outputs nothing. -/
@[simp]
theorem runOutputs_nil (step : σ → α → Option (σ × β)) (s : σ) :
    runOutputs step s [] = some (s, []) :=
  rfl

/-- A run over a concatenation is the first run followed by the second, with
the outputs of both in order. -/
theorem runOutputs_append (step : σ → α → Option (σ × β)) (s : σ) (as bs : List α) :
    runOutputs step s (as ++ bs) =
      (runOutputs step s as).bind fun r =>
        (runOutputs step r.1 bs).map fun r' => (r'.1, r.2 ++ r'.2) := by
  induction as generalizing s with
  | nil =>
      simp only [List.nil_append, runOutputs_nil, Option.bind_some, List.nil_append]
      cases runOutputs step s bs <;> rfl
  | cons a as ih =>
      simp only [List.cons_append, runOutputs]
      cases step s a with
      | none => rfl
      | some r =>
          simp only [Option.bind_some, ih]
          cases runOutputs step r.1 as with
          | none => rfl
          | some r₁ =>
              simp only [Option.bind_some, Option.map_some, Option.map_map]
              cases runOutputs step r₁.1 bs <;> rfl

/-- The total run over a concatenation is the first run followed by the
second, with the outputs of both in order. -/
theorem runTotal_append (spec : τ → α → τ × β) (t : τ) (as bs : List α) :
    runTotal spec t (as ++ bs) =
      ((runTotal spec (runTotal spec t as).1 bs).1,
        (runTotal spec t as).2 ++ (runTotal spec (runTotal spec t as).1 bs).2) := by
  induction as generalizing t with
  | nil => rfl
  | cons a as ih => simp only [List.cons_append, runTotal, ih, List.cons_append]

/-- Invariant rule: a predicate that every successful step keeps holds after
every successful run. -/
theorem invariant_runOutputs {step : σ → α → Option (σ × β)} {P : σ → Prop}
    (hstep : ∀ s a r, P s → step s a = some r → P r.1) :
    ∀ {s s' : σ} {as : List α} {bs : List β}, P s → runOutputs step s as = some (s', bs) → P s'
  | _, _, [], _, hP, h => by
      cases h
      exact hP
  | s, _, a :: as, _, hP, h => by
      obtain ⟨r, hr, h'⟩ := Option.bind_eq_some_iff.1 h
      obtain ⟨rest, hrest, hrest'⟩ := Option.map_eq_some_iff.1 h'
      cases hrest'
      exact invariant_runOutputs hstep (hstep s a r hP hr) hrest

section Simulation

variable {step : σ → α → Option (σ × β)} {spec : τ → α → τ × β}
  {R : σ → τ → Prop}

/-- Forward simulation along a run whose admissibility depends on the
implementation's state and on the inputs still to come, such as a budget that
every step spends: if from related states every step admissible for the inputs
from it on succeeds with the specification's output and leads to related states
from which the rest is admissible, then a prefix of an admissible run succeeds
with the specification's outputs and ends in related states from which the rest
of the run is admissible. -/
theorem runOutputs_of_simulation {Admissible : σ → List α → Prop}
    (hstep : ∀ s t a as, R s t → Admissible s (a :: as) →
      ∃ s', step s a = some (s', (spec t a).2) ∧ R s' (spec t a).1 ∧ Admissible s' as) :
    ∀ {s : σ} {t : τ} (as bs : List α), R s t → Admissible s (as ++ bs) →
      ∃ s', runOutputs step s as = some (s', (runTotal spec t as).2) ∧
        R s' (runTotal spec t as).1 ∧ Admissible s' bs
  | s, _, [], _, hR, hadm => ⟨s, rfl, hR, hadm⟩
  | s, t, a :: as, bs, hR, hadm => by
      obtain ⟨s₁, hs₁, hR₁, hadm₁⟩ := hstep s t a (as ++ bs) hR hadm
      obtain ⟨s', hrun, hR', hadm'⟩ := runOutputs_of_simulation hstep as bs hR₁ hadm₁
      refine ⟨s', ?_, hR', hadm'⟩
      simp only [runOutputs, hs₁, Option.bind_some, hrun, Option.map_some, runTotal]

end Simulation

/-! ## Repeating one input -/

section Replicate

variable {step : σ → α → Option (σ × β)} {spec : τ → α → τ × β}

/-- A run that repeats one input, from a family of states indexed by the
number of steps taken: if the step from a {lit}`k`-th state answers
{lit}`out k` and reaches a {lit}`k + 1`-th one, the run of {lit}`n` steps from
a {lit}`k`-th state answers the next {lit}`n` outputs. -/
theorem runOutputs_replicate {S : Nat → σ → Prop} {a : α} {out : Nat → β}
    (hstep : ∀ k s, S k s → ∃ s', step s a = some (s', out k) ∧ S (k + 1) s') :
    ∀ (n k : Nat) {s : σ}, S k s →
      ∃ s', runOutputs step s (List.replicate n a) =
        some (s', (List.range n).map fun i => out (k + i)) ∧ S (k + n) s'
  | 0, _, s, hs => ⟨s, rfl, hs⟩
  | n + 1, k, s, hs => by
      obtain ⟨s₁, hs₁, hS₁⟩ := hstep k s hs
      obtain ⟨s', hrun, hS'⟩ := runOutputs_replicate hstep n (k + 1) hS₁
      have hkn : k + 1 + n = k + (n + 1) := by omega
      refine ⟨s', ?_, hkn ▸ hS'⟩
      have houts : (List.range (n + 1)).map (fun i => out (k + i)) =
          out k :: (List.range n).map fun i => out (k + 1 + i) := by
        rw [List.range_succ_eq_map, List.map_cons, List.map_map]
        congr 2
        funext i
        simp only [Function.comp_apply]
        congr 1
        omega
      rw [List.replicate_succ, houts]
      simp only [runOutputs, hs₁, Option.bind_some, hrun, Option.map_some]

/-- A total run that repeats an input the state is a fixed point of repeats its
output. -/
theorem runTotal_replicate_of_fixed {t : τ} {a : α} {b : β} (h : spec t a = (t, b)) :
    ∀ n, runTotal spec t (List.replicate n a) = (t, List.replicate n b)
  | 0 => rfl
  | n + 1 => by
      rw [List.replicate_succ, runTotal, h]
      simp only [runTotal_replicate_of_fixed h n, List.replicate_succ]

end Replicate

end Run
