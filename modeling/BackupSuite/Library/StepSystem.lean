import Mathlib.Algebra.BigOperators.Group.Finset.Basic
import Mathlib.Data.Fintype.Basic

/-! # Systems that take steps

A system is a partial step function on states and events, where an event says whose turn
it is.  `exec_induction` is the rule for what holds in every state of every run, and
`Descends` the one for ends: if every step lowers a rank, runs are no longer than the
rank, and each can be continued to a state in which nothing can step.
-/

namespace BackupSuite.Library

section

variable {σ ε : Type*} (step : σ → ε → Option σ)

def exec (s : σ) (events : List ε) : Option σ := events.foldlM step s

/-- No event is possible. -/
def Stuck (s : σ) : Prop := ∀ event, step s event = none

/-- Every step keeps the invariant and lowers the rank. -/
structure Descends (inv : σ → Prop) (rank : σ → Nat) : Prop where
  kept : ∀ s s' event, inv s → step s event = some s' → inv s'
  lower : ∀ s s' event, inv s → step s event = some s' → rank s' < rank s

variable {step} {s s' : σ} {event : ε} {events : List ε}

@[simp] theorem exec_nil : exec step s [] = some s := rfl

theorem exec_cons : exec step s (event :: events) = (step s event).bind (exec step · events) := by
  rw [exec, List.foldlM_cons]
  rfl

/-- What holds at the start and is kept by every step holds in every state of a run. -/
theorem exec_induction {motive : σ → Prop} (initial : motive s)
    (kept : ∀ s s' event, motive s → step s event = some s' → motive s')
    (ran : exec step s events = some s') : motive s' := by
  induction events generalizing s with
  | nil =>
    cases ran
    exact initial
  | cons event events ih =>
    rw [exec_cons] at ran
    obtain ⟨next, stepped, rest⟩ := Option.bind_eq_some_iff.mp ran
    exact ih (kept s next event initial stepped) rest

/-- From a state of the invariant the goal can be reached, if some step always lowers the rank until then. -/
theorem exists_reached {α : Type*} {lower : α → α → Prop} (wf : WellFounded lower) {rank : σ → α} {inv goal : σ → Prop}
    (moves : ∀ s, inv s → ¬ goal s → ∃ event s', step s event = some s' ∧ inv s' ∧ lower (rank s') (rank s))
    (holds : inv s) : ∃ events s', exec step s events = some s' ∧ goal s' := by
  induction s using (InvImage.wf rank wf).induction with
  | _ s ih =>
    by_cases reached : goal s
    · exact ⟨[], s, rfl, reached⟩
    · obtain ⟨event, next, stepped, kept, less⟩ := moves s holds reached
      obtain ⟨events, s', ran, reached'⟩ := ih next less kept
      exact ⟨event :: events, s', by rw [exec_cons, stepped, Option.bind_some, ran], reached'⟩

namespace Descends

variable {inv : σ → Prop} {rank : σ → Nat} (descends : Descends step inv rank)

include descends

theorem length_le (holds : inv s) (ran : exec step s events = some s') :
    events.length + rank s' ≤ rank s := by
  induction events generalizing s with
  | nil =>
    cases ran
    simp
  | cons event events ih =>
    rw [exec_cons] at ran
    obtain ⟨next, stepped, rest⟩ := Option.bind_eq_some_iff.mp ran
    have lower := descends.lower s next event holds stepped
    have shorter := ih (descends.kept s next event holds stepped) rest
    rw [List.length_cons]
    omega

/-- The induction is on the rank: as long as an event is possible, take it. -/
theorem exists_stuck (holds : inv s) : ∃ events s', exec step s events = some s' ∧ Stuck step s' := by
  induction left : rank s using Nat.strong_induction_on generalizing s with
  | _ n ih =>
    by_cases stuck : Stuck step s
    · exact ⟨[], s, rfl, stuck⟩
    · obtain ⟨event, possible⟩ := not_forall.mp stuck
      obtain ⟨next, stepped⟩ := Option.ne_none_iff_exists'.mp possible
      have lower := descends.lower s next event holds stepped
      obtain ⟨events, s', ran, ended⟩ := ih _ (left ▸ lower) (descends.kept s next event holds stepped) rfl
      exact ⟨event :: events, s', by rw [exec_cons, stepped, Option.bind_some, ran], ended⟩

end Descends

end

/-! ## Counting over the parties -/

/-- One party changes, and the sum changes by what that party counts. -/
theorem sum_update_at {ι α : Type*} [Fintype ι] [DecidableEq ι] (count : ι → α → Nat) (parties : ι → α) (i : ι)
    (new : α) :
    ∑ j, count j (Function.update parties i new j) + count i (parties i) = ∑ j, count j (parties j) + count i new := by
  have others : ∑ j ∈ Finset.univ.erase i, count j (Function.update parties i new j) =
      ∑ j ∈ Finset.univ.erase i, count j (parties j) := by
    apply Finset.sum_congr rfl
    intro j mem
    rw [Function.update_of_ne (Finset.ne_of_mem_erase mem)]
  rw [← Finset.sum_erase_add _ _ (Finset.mem_univ i), ← Finset.sum_erase_add _ _ (Finset.mem_univ i), others,
    Function.update_self]
  exact Nat.add_right_comm _ _ _

theorem sum_update {ι α : Type*} [Fintype ι] [DecidableEq ι] (count : α → Nat) (parties : ι → α) (i : ι)
    (new : α) :
    ∑ j, count (Function.update parties i new j) + count (parties i) = ∑ j, count (parties j) + count new :=
  sum_update_at (fun _ => count) parties i new

end BackupSuite.Library
