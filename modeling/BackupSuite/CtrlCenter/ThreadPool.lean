import BackupSuite.CtrlCenter.TaskQueue
import BackupSuite.Library.StepSystem
import Mathlib.Algebra.Order.BigOperators.Group.Finset
import Mathlib.Data.List.Perm.Subperm

/-! # The thread pool

`createOrUpdateArchive` and `verifyArchive` hand their jobs to the thread pool and go on when
it says `done()`. Each worker has a queue, and takes jobs from those of the others when its
own one is empty. An access to what the threads share is one step, and the threads take
their steps in any order: no job is lost or run twice, when the main thread sees `done()`
all jobs that it has handed over are finished (`done_finished`), and no order of steps
gets it to where it can never see that (`exists_ended`).

Jobs that throw and the end of the pool are left out, as what `async` makes never throws.
-/

namespace BackupSuite.CtrlCenter

open BackupSuite.Library

/-- Where a worker is. -/
inductive Worker (τ : Type) where
  /-- in `wait_for_jobs` -/
  | waiting
  /-- in `try_pop`, before queue `k` after its own one -/
  | popping (k : Nat)
  /-- has read `top` -/
  | loaded (k t : Nat)
  /-- has seen that `bottom` is behind it -/
  | checked (k t : Nat)
  /-- has read the entry -/
  | holding (k t : Nat) (task : Option τ)
  | running (task : τ)
  /-- before `report_success` -/
  | reporting
  /-- before `while (!done())` -/
  | checking
  /-- has taken an entry that was never set -/
  | crashed

/-- Where the main thread is, with what it still has to push. -/
inductive Owner (threads : Nat) (τ : Type) where
  | submitting (rest : List τ)
  /-- has counted the task in `todo_` -/
  | entering (task : τ) (rest : List τ)
  /-- in `push` of a queue that has room -/
  | storing (i : Fin threads) (task : τ) (rest : List τ)
  /-- has set the entry -/
  | publishing (i : Fin threads) (task : τ) (rest : List τ)
  /-- before `while (!done())` -/
  | polling
  | ended

/-- A pool, and the jobs that the main thread has for it, of which it waits for each list
before it goes on to the next. -/
structure ThreadPool (τ : Type) where
  threads : Nat
  positive : 0 < threads
  batches : List (List τ)

namespace ThreadPool

variable {τ : Type} (pool : ThreadPool τ)

structure State where
  queue : Fin pool.threads → TaskQueue τ
  worker : Fin pool.threads → Worker τ
  owner : Owner pool.threads τ
  later : List (List τ)
  push_idx : Nat
  todo : Int
  finished : List τ

inductive Event where
  | owner
  | worker (id : Fin pool.threads)

/-- `i % num_queues_` -/
def queueAt (i : Nat) : Fin pool.threads := ⟨i % pool.threads, Nat.mod_lt i pool.positive⟩

/-- `for (k=0; k<=num_queues_; k++)`, at its end. -/
def skip (k : Nat) : Worker τ := if k < pool.threads then .popping (k + 1) else .checking

namespace State

variable {pool} (s : pool.State)

def nextBatch : pool.State :=
  match s.later with
  | [] => { s with owner := .ended }
  | batch :: later => { s with owner := .submitting batch, later := later }

def setQueue (i : Fin pool.threads) (q : TaskQueue τ) : pool.State := { s with queue := Function.update s.queue i q }

def setWorker (id : Fin pool.threads) (worker : Worker τ) : pool.State :=
  { s with worker := Function.update s.worker id worker }

def stepOwner : Option pool.State :=
  match s.owner with
  | .submitting [] => some { s with owner := .polling }
  | .submitting (task :: rest) => some { s with todo := s.todo + 1, owner := .entering task rest }
  | .entering task rest =>
    let i := pool.queueAt s.push_idx
    some { s.setQueue i (s.queue i).make_room with push_idx := s.push_idx + 1, owner := .storing i task rest }
  | .storing i task rest =>
    some { s.setQueue i ((s.queue i).store_entry task) with owner := .publishing i task rest }
  | .publishing i _ rest => some { s.setQueue i (s.queue i).publish with owner := .submitting rest }
  | .polling => some (if s.todo ≤ 0 then s.nextBatch else s)
  | .ended => none

def stepWorker (id : Fin pool.threads) : Option pool.State :=
  match s.worker id with
  | .waiting => if (s.queue id).empty then none else some (s.setWorker id (.popping 0))
  | .popping k => some (s.setWorker id (.loaded k (s.queue (pool.queueAt (id + k))).top))
  | .loaded k t =>
    some (s.setWorker id (if t < (s.queue (pool.queueAt (id + k))).bottom then .checked k t else pool.skip k))
  | .checked k t =>
    some (s.setWorker id (.holding k t ((s.queue (pool.queueAt (id + k))).buffer.get_entry t)))
  | .holding k t task =>
    let i := pool.queueAt (id + k)
    if (s.queue i).top = t then
      some ((s.setQueue i (s.queue i).advance).setWorker id (task.elim .crashed .running))
    else some (s.setWorker id (pool.skip k))
  | .running task => some { s.setWorker id .reporting with finished := s.finished ++ [task] }
  | .reporting => some { s.setWorker id (.popping 0) with todo := s.todo - 1 }
  | .checking => some (s.setWorker id (if s.todo ≤ 0 then .waiting else .popping 0))
  | .crashed => none

end State

def step (s : pool.State) : pool.Event → Option pool.State
  | .owner => s.stepOwner
  | .worker id => s.stepWorker id

/-- The main thread has handed over nothing that it could wait for. -/
def start : pool.State where
  queue _ := .new
  worker _ := .waiting
  owner := .polling
  later := pool.batches
  push_idx := 0
  todo := 0
  finished := []

/-! ## What a worker knows of a queue -/

/-- What holds for the worker, when the queues have these tops and these tasks in them.
What it has read is out of date as soon as the top has moved on. -/
def Follows (top : Fin pool.threads → Nat) (items : Fin pool.threads → List τ) (id : Fin pool.threads) :
    Worker τ → Prop
  | .loaded k t => t ≤ top (pool.queueAt (id + k))
  | .checked k t =>
    t ≤ top (pool.queueAt (id + k)) ∧ (top (pool.queueAt (id + k)) = t → items (pool.queueAt (id + k)) ≠ [])
  | .holding k t task =>
    t ≤ top (pool.queueAt (id + k)) ∧
      (top (pool.queueAt (id + k)) = t → ∃ x rest, items (pool.queueAt (id + k)) = x :: rest ∧ task = some x)
  | .crashed => False
  | _ => True

/-- Tasks are put in behind the others, or the top moves on. -/
def Moves (top top' : Fin pool.threads → Nat) (items items' : Fin pool.threads → List τ) : Prop :=
  ∀ i, top i = top' i ∧ items i <+: items' i ∨ top i < top' i

variable {pool} {top top' : Fin pool.threads → Nat} {items items' : Fin pool.threads → List τ}

theorem Follows.mono (moves : pool.Moves top top' items items') {id : Fin pool.threads} {worker : Worker τ}
    (follows : pool.Follows top items id worker) : pool.Follows top' items' id worker := by
  cases worker with
  | loaded k t =>
    have moved := moves (pool.queueAt (id + k))
    simp only [Follows] at follows ⊢
    omega
  | checked k t =>
    obtain ⟨low, some⟩ := follows
    rcases moves (pool.queueAt (id + k)) with ⟨same, front⟩ | later
    · refine ⟨same ▸ low, fun now none => some (same.trans now) ?_⟩
      exact List.prefix_nil.mp (none ▸ front)
    · exact ⟨by omega, fun now => by omega⟩
  | holding k t task =>
    obtain ⟨low, some⟩ := follows
    rcases moves (pool.queueAt (id + k)) with ⟨same, front⟩ | later
    · refine ⟨same ▸ low, fun now => ?_⟩
      obtain ⟨x, rest, here, is⟩ := some (same.trans now)
      obtain ⟨more, eq⟩ := front
      exact ⟨x, rest ++ more, by rw [← eq, here, List.cons_append], is⟩
    · exact ⟨by omega, fun now => by omega⟩
  | crashed => exact follows
  | _ => trivial

theorem follows_update {worker : Fin pool.threads → Worker τ} {id : Fin pool.threads} {new : Worker τ}
    (all : ∀ j, pool.Follows top items j (worker j)) (here : pool.Follows top items id new) (j : Fin pool.threads) :
    pool.Follows top items j (Function.update worker id new j) := by
  by_cases same : j = id
  · subst same
    rw [Function.update_self]
    exact here
  · rw [Function.update_of_ne same]
    exact all j

theorem follows_skip (top : Fin pool.threads → Nat) (items : Fin pool.threads → List τ) (id : Fin pool.threads)
    (k : Nat) : pool.Follows top items id (pool.skip k) := by
  rw [skip]
  split <;> trivial

/-! ## One queue changes -/

section

variable {queue : Fin pool.threads → TaskQueue τ} {i : Fin pool.threads} {q : TaskQueue τ} {new : List τ}

theorem represents_update (all : ∀ j, (queue j).Represents (items j)) (here : q.Represents new)
    (j : Fin pool.threads) : (Function.update queue i q j).Represents (Function.update items i new j) := by
  by_cases same : j = i
  · subst same
    rw [Function.update_self, Function.update_self]
    exact here
  · rw [Function.update_of_ne same, Function.update_of_ne same]
    exact all j

theorem represents_replace (all : ∀ j, (queue j).Represents (items j)) (here : q.Represents (items i))
    (j : Fin pool.threads) : (Function.update queue i q j).Represents (items j) := by
  have replaced := represents_update (i := i) all here j
  rwa [Function.update_eq_self] at replaced

theorem moves_update (here : (queue i).top = q.top ∧ items i <+: new ∨ (queue i).top < q.top) :
    pool.Moves (fun j => (queue j).top) (fun j => (Function.update queue i q j).top) items
      (Function.update items i new) := by
  intro j
  dsimp only
  by_cases same : j = i
  · subst same
    rw [Function.update_self, Function.update_self]
    exact here
  · rw [Function.update_of_ne same, Function.update_of_ne same]
    exact .inl ⟨rfl, List.prefix_refl _⟩

theorem moves_replace (items : Fin pool.threads → List τ) (here : (queue i).top = q.top) :
    pool.Moves (fun j => (queue j).top) (fun j => (Function.update queue i q j).top) items items := by
  intro j
  dsimp only
  by_cases same : j = i
  · subst same
    rw [Function.update_self]
    exact .inl ⟨here, List.prefix_refl _⟩
  · rw [Function.update_of_ne same]
    exact .inl ⟨rfl, List.prefix_refl _⟩

end

/-! ## Counting jobs -/

/-- The tasks that were taken out of the queues and are not finished. -/
def taken : Worker τ → List τ
  | .running task => [task]
  | _ => []

@[simp] theorem taken_running (task : τ) : taken (.running task) = [task] := rfl

/-- What the worker has taken that still counts in `todo_`. -/
def openIn : Worker τ → Nat
  | .running _ | .reporting => 1
  | _ => 0

theorem taken_of_openIn {worker : Worker τ} (none : openIn worker = 0) : taken worker = [] := by
  cases worker with
  | running task => cases none
  | _ => rfl

theorem taken_skip (k : Nat) : taken (pool.skip k) = [] := by
  rw [skip]
  split <;> rfl

theorem openIn_skip (k : Nat) : openIn (pool.skip k) = 0 := by
  rw [skip]
  split <;> rfl

/-- The tasks that the main thread has not put in yet. -/
def unsubmitted {threads : Nat} : Owner threads τ → List τ
  | .submitting rest => rest
  | .entering task rest | .storing _ task rest | .publishing _ task rest => task :: rest
  | _ => []

/-- What it has counted in `todo_` and not put in. -/
def counted {threads : Nat} : Owner threads τ → Nat
  | .entering .. | .storing .. | .publishing .. => 1
  | _ => 0

/-- What the main thread knows of the queue in whose `push` it is. -/
def Pushes (queue : Fin pool.threads → TaskQueue τ) (items : Fin pool.threads → List τ) :
    Owner pool.threads τ → Prop
  | .storing i _ _ => (items i).length < (queue i).buffer.capacity
  | .publishing i task _ =>
    (items i).length < (queue i).buffer.capacity ∧ (queue i).buffer.get_entry (queue i).bottom = some task
  | _ => True

theorem Pushes.advance {queue : Fin pool.threads → TaskQueue τ} {owner : Owner pool.threads τ} {i : Fin pool.threads}
    {x : τ} {rest : List τ} (pushes : Pushes queue items owner) (first : items i = x :: rest) :
    Pushes (Function.update queue i (queue i).advance) (Function.update items i rest) owner := by
  have shorter : rest.length < (items i).length := by
    rw [first]
    exact Nat.lt_succ_self _
  cases owner with
  | storing j task more =>
    by_cases same : j = i
    · subst same
      simp only [Pushes, Function.update_self]
      exact shorter.trans pushes
    · simpa only [Pushes, Function.update_of_ne same] using pushes
  | publishing j task more =>
    by_cases same : j = i
    · subst same
      simp only [Pushes, Function.update_self]
      exact ⟨shorter.trans pushes.1, pushes.2⟩
    · simpa only [Pushes, Function.update_of_ne same] using pushes
  | _ => trivial

section

variable [DecidableEq τ]

/-- How often the task is in some place. -/
def State.total (s : pool.State) (items : Fin pool.threads → List τ) (task : τ) : Nat :=
  s.finished.count task + ∑ id, (taken (s.worker id)).count task + ∑ i, (items i).count task +
    (unsubmitted s.owner).count task + s.later.flatten.count task

def State.inFlight (s : pool.State) (items : Fin pool.threads → List τ) : Nat :=
  ∑ id, openIn (s.worker id) + ∑ i, (items i).length + counted s.owner

structure State.Invariant (s : pool.State) (items : Fin pool.threads → List τ) : Prop where
  queue : ∀ i, (s.queue i).Represents (items i)
  worker : ∀ id, pool.Follows (fun i => (s.queue i).top) items id (s.worker id)
  owner : Pushes s.queue items s.owner
  total : ∀ task, s.total items task = pool.batches.flatten.count task
  todo : s.todo = s.inFlight items
  ended : s.owner = .ended → s.later = [] ∧ s.todo = 0

theorem invariant_start : pool.start.Invariant fun _ => [] where
  queue _ := TaskQueue.represents_new
  worker _ := trivial
  owner := trivial
  total task := by simp [State.total, start, taken, unsubmitted]
  todo := by simp [State.inFlight, start, openIn, counted]
  ended no := by cases no

/-! ## Steps of the main thread -/

namespace State.Invariant

variable {s s' : pool.State}

theorem nextBatch (inv : s.Invariant items) (polling : s.owner = .polling) (idle : s.todo ≤ 0) :
    s.nextBatch.Invariant items := by
  have total := inv.total
  have todo := inv.todo
  simp only [State.total, State.inFlight, polling, unsubmitted, counted] at total todo
  rw [State.nextBatch]
  split
  next none =>
    have zero : s.todo = 0 := by omega
    exact ⟨inv.queue, inv.worker, trivial, by simpa only [State.total, unsubmitted] using total,
      by simpa only [State.inFlight, counted] using todo, fun _ => ⟨none, zero⟩⟩
  next batch later some =>
    refine ⟨inv.queue, inv.worker, trivial, fun task => ?_, by simpa only [State.inFlight, counted] using todo, ?_⟩
    · have here := total task
      rw [some, List.flatten_cons, List.count_append] at here
      simp only [State.total, unsubmitted]
      simp only [List.count_nil] at here
      omega
    · intro no
      cases no

theorem owner_step (inv : s.Invariant items) (stepped : s.stepOwner = some s') :
    ∃ items', s'.Invariant items' := by
  have total := inv.total
  have todo := inv.todo
  have pushes := inv.owner
  rw [State.stepOwner] at stepped
  split at stepped
  next here =>
    cases stepped
    simp only [State.total, State.inFlight, here, unsubmitted, counted] at total todo
    exact ⟨items, inv.queue, inv.worker, trivial, total, todo, fun no => by cases no⟩
  next task rest here =>
    cases stepped
    simp only [State.total, State.inFlight, here, unsubmitted, counted] at total todo
    refine ⟨items, inv.queue, inv.worker, trivial, total, ?_, fun no => by cases no⟩
    simp only [State.inFlight, counted]
    omega
  next task rest here =>
    cases stepped
    simp only [State.total, State.inFlight, here, unsubmitted, counted] at total todo
    obtain ⟨represents, room⟩ := (inv.queue (pool.queueAt s.push_idx)).make_room
    have moves := moves_replace items (s.queue (pool.queueAt s.push_idx)).top_make_room.symm
    refine ⟨items, represents_replace inv.queue represents, fun id => (inv.worker id).mono moves, ?_, total, todo,
      fun no => by cases no⟩
    simpa only [Pushes, State.setQueue, Function.update_self] using room
  next i task rest here =>
    cases stepped
    simp only [State.total, State.inFlight, here, unsubmitted, counted] at total todo
    rw [here] at pushes
    obtain ⟨represents, room, stored⟩ := (inv.queue i).store_entry pushes task
    have moves := moves_replace items ((s.queue i).top_store_entry task).symm
    refine ⟨items, represents_replace inv.queue represents, fun id => (inv.worker id).mono moves, ?_, total, todo,
      fun no => by cases no⟩
    simpa only [Pushes, State.setQueue, Function.update_self] using ⟨room, stored⟩
  next i task rest here =>
    cases stepped
    simp only [State.total, State.inFlight, here, unsubmitted, counted] at total todo
    rw [here] at pushes
    have represents := (inv.queue i).publish pushes.1 pushes.2
    have moves := moves_update (.inl ⟨(s.queue i).top_publish.symm, List.prefix_append (items i) [task]⟩)
    refine ⟨Function.update items i (items i ++ [task]), represents_update inv.queue represents,
      fun id => (inv.worker id).mono moves, trivial, fun a => ?_, ?_, fun no => by cases no⟩
    · have counts := sum_update (fun l : List τ => l.count a) items i (items i ++ [task])
      have before := total a
      simp only [List.count_append, List.count_cons, List.count_nil] at counts before
      simp only [State.total, State.setQueue, unsubmitted]
      omega
    · have lengths := sum_update List.length items i (items i ++ [task])
      rw [List.length_append, List.length_singleton] at lengths
      simp only [State.inFlight, State.setQueue, counted]
      omega
  next here =>
    cases stepped
    refine ⟨items, ?_⟩
    split
    next idle => exact inv.nextBatch here idle
    next => exact inv
  next => cases stepped

/-- The worker goes on without taking or finishing anything. -/
theorem setWorker (inv : s.Invariant items) {id : Fin pool.threads} {worker : Worker τ}
    (follows : pool.Follows (fun i => (s.queue i).top) items id worker) (sameTaken : taken worker = taken (s.worker id))
    (sameOpen : openIn worker = openIn (s.worker id)) : (s.setWorker id worker).Invariant items := by
  refine ⟨inv.queue, ?_, inv.owner, fun task => ?_, ?_, inv.ended⟩
  · exact follows_update inv.worker follows
  · have counts := sum_update (fun w : Worker τ => (taken w).count task) s.worker id worker
    have total := inv.total task
    rw [sameTaken] at counts
    simp only [State.total, State.setWorker] at total ⊢
    omega
  · have opens := sum_update openIn s.worker id worker
    have todo := inv.todo
    rw [sameOpen] at opens
    simp only [State.inFlight, State.setWorker] at todo ⊢
    omega

/-- The worker has found nothing at this queue. -/
theorem skip (inv : s.Invariant items) {id : Fin pool.threads} {k : Nat} (before : taken (s.worker id) = [])
    (none : openIn (s.worker id) = 0) : (s.setWorker id (pool.skip k)).Invariant items := by
  have sameTaken : taken (pool.skip k) = taken (s.worker id) := by
    rw [taken_skip, before]
  have sameOpen : openIn (pool.skip k) = openIn (s.worker id) := by
    rw [openIn_skip, none]
  exact inv.setWorker (follows_skip _ _ id k) sameTaken sameOpen

/-- The exchange succeeds, and what was read is the first task of the queue still. -/
theorem take (inv : s.Invariant items) {id i : Fin pool.threads} {x : τ} {rest : List τ} (first : items i = x :: rest)
    (before : taken (s.worker id) = []) (none : openIn (s.worker id) = 0) :
    ((s.setQueue i (s.queue i).advance).setWorker id (.running x)).Invariant (Function.update items i rest) := by
  have here := inv.queue i
  rw [first] at here
  have later : (s.queue i).top < (s.queue i).advance.top := Nat.lt_succ_self _
  refine ⟨represents_update inv.queue here.advance, ?_, inv.owner.advance first, fun task => ?_, ?_, inv.ended⟩
  · exact follows_update (fun j => (inv.worker j).mono (moves_update (.inr later))) trivial
  · have counts := sum_update (fun w : Worker τ => (taken w).count task) s.worker id (.running x)
    have lists := sum_update (fun l : List τ => l.count task) items i rest
    have total := inv.total task
    rw [before] at counts
    simp only [first, taken_running, List.count_cons, List.count_nil] at counts lists
    simp only [State.total, State.setWorker, State.setQueue] at total ⊢
    omega
  · have opens := sum_update openIn s.worker id (.running x)
    have lengths := sum_update List.length items i rest
    have todo := inv.todo
    rw [none, openIn] at opens
    rw [first, List.length_cons] at lengths
    simp only [State.inFlight, State.setWorker, State.setQueue] at todo ⊢
    omega

theorem openIn_le (inv : s.Invariant items) (id : Fin pool.threads) : (openIn (s.worker id) : Int) ≤ s.todo := by
  have one := Finset.single_le_sum (f := fun id => openIn (s.worker id)) (fun _ _ => Nat.zero_le _) (Finset.mem_univ id)
  have todo := inv.todo
  simp only [State.inFlight] at todo one
  omega

theorem worker_step (inv : s.Invariant items) {id : Fin pool.threads} (stepped : s.stepWorker id = some s') :
    ∃ items', s'.Invariant items' := by
  have follows := inv.worker id
  rw [State.stepWorker] at stepped
  split at stepped
  next here =>
    split at stepped
    next => cases stepped
    next =>
      cases stepped
      exact ⟨items, inv.setWorker trivial (by rw [here]; rfl) (by rw [here]; rfl)⟩
  next k here =>
    cases stepped
    exact ⟨items, inv.setWorker (Nat.le_refl _) (by rw [here]; rfl) (by rw [here]; rfl)⟩
  next k t here =>
    rw [here] at follows
    by_cases behind : t < (s.queue (pool.queueAt (id + k))).bottom
    · rw [if_pos behind] at stepped
      cases stepped
      refine ⟨items, inv.setWorker ⟨follows, fun now none => ?_⟩ (by rw [here]; rfl) (by rw [here]; rfl)⟩
      dsimp only at now
      have bottom := (inv.queue (pool.queueAt (id + k))).bottom
      rw [none, List.length_nil] at bottom
      omega
    · rw [if_neg behind] at stepped
      cases stepped
      exact ⟨items, inv.skip (by rw [here]; rfl) (by rw [here]; rfl)⟩
  next k t here =>
    rw [here] at follows
    cases stepped
    refine ⟨items, inv.setWorker ⟨follows.1, fun now => ?_⟩ (by rw [here]; rfl) (by rw [here]; rfl)⟩
    obtain ⟨x, rest, first⟩ := List.exists_cons_of_ne_nil (follows.2 now)
    have represents := inv.queue (pool.queueAt (id + k))
    rw [first] at represents
    exact ⟨x, rest, first, now ▸ represents.get_top⟩
  next k t task here =>
    rw [here] at follows
    by_cases now : (s.queue (pool.queueAt (id + k))).top = t
    · -- nobody else has moved the top in between, so the entry is the first task still
      obtain ⟨x, rest, first, rfl⟩ := follows.2 now
      simp only [if_pos now, Option.elim_some] at stepped
      cases stepped
      exact ⟨_, inv.take first (by rw [here]; rfl) (by rw [here]; rfl)⟩
    · simp only [if_neg now] at stepped
      cases stepped
      exact ⟨items, inv.skip (by rw [here]; rfl) (by rw [here]; rfl)⟩
  next task here =>
    cases stepped
    refine ⟨items, inv.queue, follows_update inv.worker trivial, inv.owner, fun a => ?_, ?_, inv.ended⟩
    · have counts := sum_update (fun w : Worker τ => (taken w).count a) s.worker id .reporting
      have total := inv.total a
      have none : taken (Worker.reporting : Worker τ) = [] := rfl
      rw [here, taken_running, none, List.count_nil] at counts
      simp only [State.total, State.setWorker, List.count_append] at total ⊢
      omega
    · have opens := sum_update openIn s.worker id .reporting
      have todo := inv.todo
      have same : openIn (Worker.reporting : Worker τ) = openIn (Worker.running task) := rfl
      rw [here, same] at opens
      simp only [State.inFlight, State.setWorker] at todo ⊢
      omega
  next here =>
    cases stepped
    refine ⟨items, inv.queue, follows_update inv.worker trivial, inv.owner, fun a => ?_, ?_, fun atEnd => ?_⟩
    · have counts := sum_update (fun w : Worker τ => (taken w).count a) s.worker id (.popping 0)
      have total := inv.total a
      have same : taken (Worker.popping 0 : Worker τ) = taken Worker.reporting := rfl
      rw [here, same] at counts
      simp only [State.total, State.setWorker] at total ⊢
      omega
    · have opens := sum_update openIn s.worker id (.popping 0)
      have todo := inv.todo
      have less : openIn (Worker.reporting : Worker τ) = openIn (Worker.popping 0 : Worker τ) + 1 := rfl
      rw [here, less] at opens
      simp only [State.inFlight, State.setWorker] at todo ⊢
      omega
    · -- a worker that has a job to report keeps `todo_` above 0
      have opens := inv.openIn_le id
      have zero := (inv.ended atEnd).2
      rw [here, zero] at opens
      cases opens
  next here =>
    cases stepped
    refine ⟨items, inv.setWorker ?_ ?_ ?_⟩
    · split <;> trivial
    · rw [here]
      split <;> rfl
    · rw [here]
      split <;> rfl
  next => cases stepped

/-- Nothing that counts in `todo_` is left. -/
theorem count_finished (inv : s.Invariant items) (idle : s.todo ≤ 0) (submitted : unsubmitted s.owner = []) (task : τ) :
    s.finished.count task + s.later.flatten.count task = pool.batches.flatten.count task := by
  have total := inv.total task
  have todo := inv.todo
  simp only [State.inFlight] at todo
  have noOpen : ∑ id, openIn (s.worker id) = 0 := by omega
  have noItems : ∑ i, (items i).length = 0 := by omega
  have noTaken : ∑ id, (taken (s.worker id)).count task = 0 := by
    refine Finset.sum_eq_zero fun id mem => ?_
    rw [taken_of_openIn (Finset.sum_eq_zero_iff.mp noOpen id mem), List.count_nil]
  have noCount : ∑ i, (items i).count task = 0 := by
    refine Finset.sum_eq_zero fun i mem => ?_
    rw [List.length_eq_zero_iff.mp (Finset.sum_eq_zero_iff.mp noItems i mem), List.count_nil]
  simp only [State.total, noTaken, noCount, submitted, List.count_nil] at total
  omega

theorem finished_of_ended (inv : s.Invariant items) (atEnd : s.owner = .ended) :
    s.finished.Perm pool.batches.flatten := by
  obtain ⟨none, zero⟩ := inv.ended atEnd
  refine List.perm_iff_count.mpr fun task => ?_
  have counts := inv.count_finished (by omega) (by rw [atEnd]; rfl) task
  rwa [none, List.flatten_nil, List.count_nil] at counts

end State.Invariant

/-! ## Runs -/

variable {s : pool.State} {events : List pool.Event}

theorem step_invariant {s' : pool.State} {event : pool.Event} (inv : ∃ items, s.Invariant items)
    (stepped : pool.step s event = some s') : ∃ items, s'.Invariant items := by
  obtain ⟨items, inv⟩ := inv
  cases event with
  | owner => exact inv.owner_step stepped
  | worker id => exact inv.worker_step stepped

theorem invariant_of_run (ran : exec pool.step pool.start events = some s) : ∃ items, s.Invariant items :=
  exec_induction (motive := fun s => ∃ items, s.Invariant items) ⟨_, invariant_start⟩
    (fun _ _ _ inv stepped => step_invariant inv stepped) ran

/-- Of the jobs in `later` the main thread has not handed over any. -/
theorem done_finished (ran : exec pool.step pool.start events = some s) :
    (∀ id, s.worker id ≠ .crashed) ∧ s.finished.Subperm pool.batches.flatten ∧
      (s.owner = .polling → s.todo ≤ 0 → (s.finished ++ s.later.flatten).Perm pool.batches.flatten) ∧
      (s.owner = .ended → s.finished.Perm pool.batches.flatten) := by
  obtain ⟨items, inv⟩ := invariant_of_run ran
  refine ⟨fun id crashed => ?_, ?_, fun polling idle => ?_, inv.finished_of_ended⟩
  · have follows := inv.worker id
    rw [crashed] at follows
    exact follows
  · refine List.subperm_ext_iff.mpr fun task _ => ?_
    have total := inv.total task
    rw [State.total] at total
    omega
  · refine List.perm_iff_count.mpr fun task => ?_
    rw [List.count_append]
    exact inv.count_finished idle (by rw [polling]; rfl) task

end

/-! ## The end can be reached -/

/-- Steps that the main thread has left, but for waiting. -/
def ownerRank {threads : Nat} : Owner threads τ → Nat
  | .submitting rest => 4 * rest.length + 2
  | .publishing _ _ rest => 4 * rest.length + 3
  | .storing _ _ rest => 4 * rest.length + 4
  | .entering _ rest => 4 * rest.length + 5
  | .polling => 1
  | .ended => 0

def laterRank (later : List (List τ)) : Nat := (later.map fun batch => 4 * batch.length + 2).sum

/-- Steps that are left for the job that the worker has. -/
def jobRank : Worker τ → Nat
  | .running _ => 2
  | .reporting => 1
  | _ => 0

/-- Steps from behind queue `k` until the worker is through with its own queue the next time. -/
def around (pool : ThreadPool τ) (k : Nat) : Nat := 5 + 4 * (pool.threads - k)

/-- Steps until the worker has taken a task from its own queue, which has this top, if nobody else
takes a step. -/
def distance (pool : ThreadPool τ) (top : Nat) : Worker τ → Nat
  | .waiting | .checking => 5
  | .popping k => if k = 0 then 4 else pool.around k + 4
  | .loaded k t => if k = 0 ∧ t = top then 3 else pool.around k + 3
  | .checked k t => if k = 0 ∧ t = top then 2 else pool.around k + 2
  | .holding k t _ => if k = 0 ∧ t = top then 1 else pool.around k + 1
  | _ => 0

namespace State

variable (s : pool.State)

/-- What the main thread has to do, the jobs that are not done, and the ways to the next of them. -/
def rank : Nat × Nat × Nat :=
  (ownerRank s.owner + laterRank s.later,
    ∑ i, 3 * ((s.queue i).bottom - (s.queue i).top) + ∑ id, jobRank (s.worker id),
    ∑ id, pool.distance (s.queue id).top (s.worker id))

end State

/-- The order of the ranks. -/
def Lower : Nat × Nat × Nat → Nat × Nat × Nat → Prop := Prod.Lex (· < ·) (Prod.Lex (· < ·) (· < ·))

theorem wellFounded_lower : WellFounded Lower :=
  (Prod.lex Nat.lt_wfRel (Prod.lex Nat.lt_wfRel Nat.lt_wfRel)).wf

namespace State

variable {s s' : pool.State} {id : Fin pool.threads}

theorem lower_owner (less : ownerRank s'.owner + laterRank s'.later < ownerRank s.owner + laterRank s.later) :
    Lower s'.rank s.rank :=
  Prod.Lex.left _ _ less

/-- The main thread goes on, unless it waits for jobs. -/
theorem exists_stepOwner (notEnded : s.owner ≠ .ended) (busy : s.owner = .polling → s.todo ≤ 0) :
    ∃ s', s.stepOwner = some s' ∧ Lower s'.rank s.rank := by
  cases here : s.owner with
  | submitting rest =>
    cases rest with
    | nil =>
      refine ⟨_, by rw [stepOwner, here], lower_owner ?_⟩
      simp [here, ownerRank]
    | cons task rest =>
      refine ⟨_, by rw [stepOwner, here], lower_owner ?_⟩
      simp only [here, ownerRank, List.length_cons]
      omega
  | entering task rest =>
    refine ⟨_, by rw [stepOwner, here], lower_owner ?_⟩
    simp only [here, ownerRank, setQueue]
    omega
  | storing i task rest =>
    refine ⟨_, by rw [stepOwner, here], lower_owner ?_⟩
    simp only [here, ownerRank, setQueue]
    omega
  | publishing i task rest =>
    refine ⟨_, by rw [stepOwner, here], lower_owner ?_⟩
    simp only [here, ownerRank, setQueue]
    omega
  | polling =>
    refine ⟨s.nextBatch, by rw [stepOwner, here]; exact congrArg some (if_pos (busy here)), lower_owner ?_⟩
    rw [nextBatch]
    split
    next none => simp [here, ownerRank]
    next batch later more =>
      simp only [here, more, ownerRank, laterRank, List.map_cons, List.sum_cons]
      omega
  | ended => exact absurd here notEnded

theorem lower_nearer {worker : Worker τ} (sameJob : jobRank worker = jobRank (s.worker id))
    (nearer : pool.distance (s.queue id).top worker < pool.distance (s.queue id).top (s.worker id)) :
    Lower (s.setWorker id worker).rank s.rank := by
  have jobs := sum_update jobRank s.worker id worker
  have distances := sum_update_at (fun j => pool.distance (s.queue j).top) s.worker id worker
  have same : ∑ j, jobRank (Function.update s.worker id worker j) = ∑ j, jobRank (s.worker j) := by omega
  refine Prod.Lex.right _ ?_
  simp only [setWorker, same]
  refine Prod.Lex.right _ ?_
  omega

theorem lower_job (sameOwner : s'.owner = s.owner) (sameLater : s'.later = s.later)
    (less : ∑ i, 3 * ((s'.queue i).bottom - (s'.queue i).top) + ∑ id, jobRank (s'.worker id) <
      ∑ i, 3 * ((s.queue i).bottom - (s.queue i).top) + ∑ id, jobRank (s.worker id)) : Lower s'.rank s.rank := by
  rw [rank, sameOwner, sameLater]
  exact Prod.Lex.right _ (Prod.Lex.left _ _ less)

/-- A worker that has a job goes on with it. -/
theorem exists_step_of_openIn (busy : openIn (s.worker id) ≠ 0) :
    ∃ s', s.stepWorker id = some s' ∧ Lower s'.rank s.rank := by
  cases here : s.worker id with
  | running task =>
    have jobs := sum_update jobRank s.worker id .reporting
    have less : jobRank (Worker.reporting : Worker τ) < jobRank (s.worker id) := by
      rw [here]
      exact Nat.one_lt_two
    refine ⟨_, by rw [stepWorker, here], ?_⟩
    refine lower_job rfl rfl ?_
    simp only [setWorker]
    omega
  | reporting =>
    have jobs := sum_update jobRank s.worker id (.popping 0)
    have less : jobRank (Worker.popping 0 : Worker τ) < jobRank (s.worker id) := by
      rw [here]
      exact Nat.one_pos
    refine ⟨_, by rw [stepWorker, here], ?_⟩
    refine lower_job rfl rfl ?_
    simp only [setWorker]
    omega
  | _ => exact absurd (by rw [here]; rfl) busy

end State

theorem jobRank_skip (k : Nat) : jobRank (pool.skip k) = 0 := by
  rw [skip]
  split <;> rfl

theorem distance_skip_le (top k : Nat) : pool.distance top (pool.skip k) ≤ pool.around k := by
  rw [skip]
  split
  next more =>
    rw [distance, if_neg (Nat.succ_ne_zero k), around, around]
    omega
  next => exact Nat.le_add_right 5 _

theorem queueAt_self (id : Fin pool.threads) : pool.queueAt (id + 0) = id := Fin.ext (Nat.mod_eq_of_lt id.isLt)

section

variable [DecidableEq τ]

namespace State.Invariant

variable {s : pool.State}

theorem lower_take (inv : s.Invariant items) {id i : Fin pool.threads} {x : τ} {rest : List τ}
    (first : items i = x :: rest) (before : jobRank (s.worker id) = 0) :
    Lower ((s.setQueue i (s.queue i).advance).setWorker id (.running x)).rank s.rank := by
  have bottom := (inv.queue i).bottom
  have jobs := sum_update jobRank s.worker id (.running x)
  have queues := sum_update (fun q : TaskQueue τ => 3 * (q.bottom - q.top)) s.queue i (s.queue i).advance
  have two : jobRank (.running x) = 2 := rfl
  have same : (s.queue i).advance.bottom = (s.queue i).bottom := rfl
  rw [first, List.length_cons] at bottom
  rw [before, two] at jobs
  rw [same, TaskQueue.top_advance] at queues
  refine State.lower_job rfl rfl ?_
  simp only [State.setWorker, State.setQueue]
  omega

/-- A worker with tasks in its own queue comes nearer to one, or takes one. -/
theorem exists_step_of_items (inv : s.Invariant items) {id : Fin pool.threads} (some : items id ≠ [])
    (idle : openIn (s.worker id) = 0) (todo : 0 < s.todo) :
    ∃ s', s.stepWorker id = .some s' ∧ Lower s'.rank s.rank := by
  have bottom := (inv.queue id).bottom
  have positive := List.length_pos_of_ne_nil some
  have follows := inv.worker id
  cases here : s.worker id with
  | waiting =>
    have full : (s.queue id).empty = false := by
      rw [Bool.eq_false_iff]
      exact fun none => some ((inv.queue id).empty_iff.mp none)
    refine ⟨s.setWorker id (.popping 0), by simp only [State.stepWorker, here, full]; rfl, ?_⟩
    exact State.lower_nearer (by rw [here]; rfl) (by rw [here]; exact Nat.lt_succ_self 4)
  | popping k =>
    refine ⟨_, by rw [State.stepWorker, here], ?_⟩
    refine State.lower_nearer (by rw [here]; rfl) ?_
    rw [here, distance, distance]
    by_cases own : k = 0
    · subst own
      rw [queueAt_self, if_pos rfl, if_pos ⟨rfl, rfl⟩]
      exact Nat.lt_succ_self 3
    · rw [if_neg own, if_neg (fun both => own both.1)]
      exact Nat.lt_succ_self _
  | loaded k t =>
    by_cases behind : t < (s.queue (pool.queueAt (id + k))).bottom
    · refine ⟨s.setWorker id (.checked k t), by simp only [State.stepWorker, here, if_pos behind], ?_⟩
      refine State.lower_nearer (by rw [here]; rfl) ?_
      rw [here, distance, distance]
      split <;> exact Nat.lt_succ_self _
    · refine ⟨s.setWorker id (pool.skip k), by simp only [State.stepWorker, here, if_neg behind], ?_⟩
      refine State.lower_nearer (by rw [here, jobRank_skip]; rfl) ?_
      have stale : ¬ (k = 0 ∧ t = (s.queue id).top) := by
        rintro ⟨rfl, rfl⟩
        rw [queueAt_self] at behind
        omega
      have near : pool.distance (s.queue id).top (pool.skip k) ≤ pool.around k := distance_skip_le _ k
      rw [here, distance, if_neg stale]
      omega
  | checked k t =>
    refine ⟨_, by rw [State.stepWorker, here], ?_⟩
    refine State.lower_nearer (by rw [here]; rfl) ?_
    rw [here, distance, distance]
    split <;> exact Nat.lt_succ_self _
  | holding k t task =>
    rw [here] at follows
    by_cases now : (s.queue (pool.queueAt (id + k))).top = t
    · obtain ⟨x, rest, first, rfl⟩ := follows.2 now
      refine ⟨_, ?_, inv.lower_take first (by rw [here]; rfl)⟩
      simp only [State.stepWorker, here, if_pos now, Option.elim_some]
    · refine ⟨s.setWorker id (pool.skip k), by simp only [State.stepWorker, here, if_neg now], ?_⟩
      refine State.lower_nearer (by rw [here, jobRank_skip]; rfl) ?_
      have stale : ¬ (k = 0 ∧ t = (s.queue id).top) := by
        rintro ⟨rfl, rfl⟩
        rw [queueAt_self] at now
        exact now rfl
      have near : pool.distance (s.queue id).top (pool.skip k) ≤ pool.around k := distance_skip_le _ k
      rw [here, distance, if_neg stale]
      omega
  | checking =>
    refine ⟨s.setWorker id (.popping 0), by simp only [State.stepWorker, here, if_neg (Int.not_le.mpr todo)], ?_⟩
    exact State.lower_nearer (by rw [here]; rfl) (by rw [here]; exact Nat.lt_succ_self 4)
  | crashed =>
    rw [here] at follows
    exact follows.elim
  | _ => exact absurd idle (by rw [here]; exact Nat.one_ne_zero)

/-- The main thread can go on, or there is a job and a worker that can. -/
theorem exists_step (inv : s.Invariant items) (notEnded : s.owner ≠ .ended) :
    ∃ event s', pool.step s event = some s' ∧ Lower s'.rank s.rank := by
  by_cases busy : s.owner = .polling → s.todo ≤ 0
  · obtain ⟨s', stepped, lower⟩ := State.exists_stepOwner notEnded busy
    exact ⟨.owner, s', stepped, lower⟩
  · obtain ⟨polling, todo⟩ := Classical.not_imp.mp busy
    have flight := inv.todo
    simp only [State.inFlight, polling, counted] at flight
    by_cases working : ∃ id, openIn (s.worker id) ≠ 0
    · obtain ⟨id, working⟩ := working
      obtain ⟨s', stepped, lower⟩ := State.exists_step_of_openIn working
      exact ⟨.worker id, s', stepped, lower⟩
    · have idle : ∀ id, openIn (s.worker id) = 0 := fun id => not_not.mp fun no => working ⟨id, no⟩
      have noOpen : ∑ id, openIn (s.worker id) = 0 := Finset.sum_eq_zero fun id _ => idle id
      obtain ⟨i, -, some⟩ := Finset.exists_ne_zero_of_sum_ne_zero (s := Finset.univ) (f := fun i => (items i).length)
        (by omega)
      obtain ⟨s', stepped, lower⟩ :=
        inv.exists_step_of_items (List.ne_nil_of_length_pos (Nat.pos_of_ne_zero some)) (idle i) (by omega)
      exact ⟨.worker i, s', stepped, lower⟩

end State.Invariant

/-- Whatever the threads have done so far, the main thread can still come to its end, with all jobs run. -/
theorem exists_ended {events : List pool.Event} {s : pool.State} (ran : exec pool.step pool.start events = some s) :
    ∃ more s', exec pool.step s more = some s' ∧ s'.owner = .ended ∧ s'.finished.Perm pool.batches.flatten := by
  have moves : ∀ s : pool.State, (∃ items, s.Invariant items) → ¬ s.owner = .ended →
      ∃ event s', pool.step s event = some s' ∧ (∃ items, s'.Invariant items) ∧ Lower s'.rank s.rank := by
    intro s inv notEnded
    obtain ⟨items, holds⟩ := inv
    obtain ⟨event, s', stepped, lower⟩ := holds.exists_step notEnded
    exact ⟨event, s', stepped, step_invariant ⟨items, holds⟩ stepped, lower⟩
  obtain ⟨more, s', ran', atEnd⟩ := exists_reached wellFounded_lower moves (invariant_of_run ran)
  obtain ⟨items, inv⟩ := exec_induction (motive := fun s => ∃ items, s.Invariant items) (invariant_of_run ran)
    (fun _ _ _ inv stepped => step_invariant inv stepped) ran'
  exact ⟨more, s', ran', atEnd, inv.finished_of_ended atEnd⟩

end

/-! ## Two workers -/

def twoWorkers : ThreadPool Nat := ⟨2, Nat.two_pos, [[7, 8]]⟩

/-- The first worker takes both jobs, one of them from the queue of the other. -/
def stealing : List twoWorkers.Event :=
  List.replicate 10 .owner ++ List.replicate 15 (.worker ⟨0, twoWorkers.positive⟩) ++ [.owner]

theorem stealing_ended : ∃ s, exec twoWorkers.step twoWorkers.start stealing = some s ∧ s.owner = .ended :=
  ⟨_, rfl, rfl⟩

theorem done_finished_two : ∃ s, exec twoWorkers.step twoWorkers.start stealing = some s ∧ s.finished.Perm [7, 8] := by
  obtain ⟨s, ran, atEnd⟩ := stealing_ended
  exact ⟨s, ran, (done_finished ran).2.2.2 atEnd⟩

/-- The first worker runs a job, and the other job is in the queue of the second one, which sleeps. -/
def stranded : List twoWorkers.Event :=
  List.replicate 10 .owner ++ List.replicate 5 (.worker ⟨0, twoWorkers.positive⟩)

theorem exists_ended_two : ∃ s, exec twoWorkers.step twoWorkers.start stranded = some s ∧
    s.worker ⟨1, Nat.one_lt_two⟩ = .waiting ∧ (s.queue ⟨1, Nat.one_lt_two⟩).empty = false ∧ s.finished = [] ∧
    ∃ more s', exec twoWorkers.step s more = some s' ∧ s'.owner = .ended ∧ s'.finished.Perm [7, 8] := by
  have ran : exec twoWorkers.step twoWorkers.start stranded = some _ := rfl
  exact ⟨_, ran, rfl, rfl, rfl, exists_ended ran⟩

end ThreadPool

end BackupSuite.CtrlCenter
