import Mathlib.Algebra.Order.BigOperators.Group.Finset
import Mathlib.Data.Fintype.Basic
import Mathlib.Logic.Relation

/-! # Jobs on a shared state

Jobs that each have a state of their own and take their steps on it and on a shared
state, in any order.  `Undisturbed.reachable` is the rule for what holds of every
interleaving: each job keeps its own invariant, and no other job's step breaks it.
`exists_finished` brings the jobs to their ends when none of them can block.
-/

namespace BackupSuite.Library

/-- The shared state and the state of each job. -/
structure JobStates (ι σ τ : Type*) where
  shared : σ
  job : ι → τ

section

variable {ι σ τ : Type*} [DecidableEq ι] (step : ι → σ × τ → σ × τ → Prop)

/-- One job takes a step. -/
inductive JobsStep : JobStates ι σ τ → JobStates ι σ τ → Prop
  | job (i : ι) {s : JobStates ι σ τ} {shared' : σ} {job' : τ}
      (moves : step i (s.shared, s.job i) (shared', job')) :
      JobsStep s ⟨shared', Function.update s.job i job'⟩

/-- The jobs have taken steps in some order. -/
def Interleaved : JobStates ι σ τ → JobStates ι σ τ → Prop := Relation.ReflTransGen (JobsStep step)

/-- Every job keeps its invariant in its own steps and in those of the others. -/
structure Undisturbed (inv : ι → σ → τ → Prop) : Prop where
  own : ∀ i shared job shared' job', inv i shared job → step i (shared, job) (shared', job') →
    inv i shared' job'
  others : ∀ i j shared job shared' job' other, j ≠ i → inv i shared job → inv j shared other →
    step i (shared, job) (shared', job') → inv j shared' other

variable {step}

theorem JobsStep.of_step {s : JobStates ι σ τ} {i : ι} {job job' : τ} {shared' : σ} (before : s.job i = job)
    (moves : step i (s.shared, job) (shared', job')) :
    JobsStep step s ⟨shared', Function.update s.job i job'⟩ :=
  .job i (before ▸ moves)

theorem Undisturbed.preserved {inv : ι → σ → τ → Prop} (undisturbed : Undisturbed step inv)
    {s s' : JobStates ι σ τ} (holds : ∀ i, inv i s.shared (s.job i)) (moves : JobsStep step s s') :
    ∀ i, inv i s'.shared (s'.job i) := by
  cases moves with
  | job i moved =>
    intro j
    by_cases same : j = i
    · subst same
      have own := undisturbed.own _ _ _ _ _ (holds j) moved
      simpa only [Function.update_self] using own
    · have kept := undisturbed.others _ _ _ _ _ _ _ same (holds i) (holds j) moved
      simpa only [Function.update_of_ne same] using kept

/-- What holds of every job at the start holds after any interleaving. -/
theorem Undisturbed.reachable {inv : ι → σ → τ → Prop} (undisturbed : Undisturbed step inv)
    {s s' : JobStates ι σ τ} (holds : ∀ i, inv i s.shared (s.job i)) (run : Interleaved step s s') :
    ∀ i, inv i s'.shared (s'.job i) := by
  induction run with
  | refl => exact holds
  | tail _ moves ih => exact undisturbed.preserved ih moves

/-- Jobs of which every unfinished one can take a step that brings it nearer to its end can
all be brought to their ends. -/
theorem exists_finished [Fintype ι] {rank : τ → Nat}
    (moves : ∀ i shared job, 0 < rank job →
      ∃ shared' job', step i (shared, job) (shared', job') ∧ rank job' < rank job)
    (s : JobStates ι σ τ) : ∃ s', Interleaved step s s' ∧ ∀ i, rank (s'.job i) = 0 := by
  induction left : ∑ i, rank (s.job i) using Nat.strong_induction_on generalizing s with
  | _ n ih =>
    by_cases finished : ∀ i, rank (s.job i) = 0
    · exact ⟨s, .refl, finished⟩
    · obtain ⟨i, unfinished⟩ := not_forall.mp finished
      obtain ⟨shared', job', moved, nearer⟩ := moves i s.shared (s.job i) (Nat.pos_of_ne_zero unfinished)
      have less : ∑ j, rank (Function.update s.job i job' j) < n := by
        rw [← left]
        refine Finset.sum_lt_sum (fun j _ => ?_) ⟨i, Finset.mem_univ i, by rwa [Function.update_self]⟩
        by_cases same : j = i
        · subst same
          rw [Function.update_self]
          exact Nat.le_of_lt nearer
        · rw [Function.update_of_ne same]
      obtain ⟨s', run, ended⟩ := ih _ less ⟨shared', Function.update s.job i job'⟩ rfl
      exact ⟨s', .head (.job i moved) run, ended⟩

end

end BackupSuite.Library
