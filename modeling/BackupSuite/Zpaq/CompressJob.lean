import Mathlib.Algebra.Group.Fin.Basic
import BackupSuite.Library.StepSystem
import BackupSuite.CtrlCenter.ParseBuffer

/-! # The queue between `add` and the archive

`add` puts blocks into a ring of buffers, one thread for each buffer compresses what is in
it, and one thread writes the results.  What is done under the mutex is one step, a wait
for a semaphore is another.  The threads may take their steps in any order:
`archive_ordered` says that the archive gets the blocks in the order in which they were
put in, and `ends_complete` that the run always comes to an end, with all of them.
-/

namespace BackupSuite.Zpaq

open BackupSuite.Library BackupSuite.CtrlCenter

/-- A block to compress with what its header gets; the method is empty at the end of input. -/
structure Task where
  input : Bytes
  filename : Bytes
  comment : Bytes
  method : Bytes
deriving DecidableEq, Repr

inductive CJState where
  | empty
  | full
  | compressing
  | compressed
  | writing
deriving DecidableEq, Repr

/-- Where a `compressThread` is. -/
inductive CompressPc where
  | waitFull
  | check
  | waitCompressor
  | compress
  | finish
  | ended
deriving DecidableEq, Repr

inductive WritePc where
  | waitCompressed
  | check
  | write
  | finish
  | ended
deriving DecidableEq, Repr

/-- A buffer with its two semaphores, and the thread that works on it. -/
structure CJ where
  state : CJState
  task : Task
  out : Bytes
  full : Nat
  compressed : Nat
  pc : CompressPc
deriving DecidableEq, Repr

/-- The thread has taken one of the compressors. -/
def CompressPc.busy : CompressPc → Nat
  | .compress | .finish => 1
  | _ => 0

/-- Steps that are left for the task in the buffer, the writer's included. -/
def CJ.rank (cj : CJ) : Nat :=
  match cj.state, cj.pc with
  | .empty, _ => 0
  | .writing, _ => 1
  | .compressed, _ => 3 + cj.compressed
  | .compressing, .waitCompressor => 7
  | .compressing, .compress => 6
  | .compressing, _ => 5
  | .full, .waitFull => 9
  | .full, .check => 8
  | .full, _ => 3 + cj.compressed

def WritePc.rank : WritePc → Nat
  | .write => 2
  | .ended => 0
  | _ => 1

/-- The queue: `qsize` is one more than `last`, so that there is a buffer. -/
structure CompressJob where
  threads : Nat
  last : Nat
  positive : 0 < threads
  compressBlock : Task → Bytes
  blocks : List Task
  notEnd : ∀ task ∈ blocks, task.method ≠ []

namespace CompressJob

variable (job : CompressJob)

abbrev qsize : Nat := job.last + 1

/-- The last call of `write`, with an empty buffer and method, fills every buffer once. -/
def endOfInput : Task := ⟨[], [], text "jDC\x01", []⟩

/-- What is put in: the blocks, then the end of input. -/
def tasks : List Task := job.blocks ++ List.replicate job.qsize endOfInput

structure State where
  q : Fin job.qsize → CJ
  front : Fin job.qsize
  empty : Nat
  compressors : Nat
  csize : List Nat
  archive : Bytes
  /-- what `add` has still to put in, and whether it has waited for an empty buffer already -/
  input : List Task
  waited : Bool
  writer : WritePc

inductive Event where
  | add
  | compress (i : Fin job.qsize)
  | write
deriving DecidableEq, Repr

def start : job.State where
  q _ := ⟨.empty, endOfInput, [], 0, 0, .waitFull⟩
  front := 0
  empty := job.qsize
  compressors := job.threads
  csize := []
  archive := []
  input := job.tasks
  waited := false
  writer := .waitCompressed

namespace State

variable {job} (s : job.State)

def setQ (i : Fin job.qsize) (cj : CJ) : job.State := { s with q := Function.update s.q i cj }

/-- `(i+front)%qsize` -/
def bufferAt (i : Nat) : Fin job.qsize := Fin.ofNat job.qsize (i + s.front.val)

/-- `for (i=0; i<qsize; ++i)` up to the first buffer that is empty. -/
def firstEmpty : Option (Fin job.qsize) :=
  ((List.range job.qsize).find? fun i => (s.q (s.bufferAt i)).state = .empty).map s.bufferAt

/-- `CompressJob::write`; without an empty buffer the block would be lost. -/
def stepAdd : Option job.State :=
  match s.input with
  | [] => none
  | task :: rest =>
    if s.waited then
      match s.firstEmpty with
      | none => some { s with input := rest, waited := false }
      | some i =>
        some { s.setQ i { s.q i with state := .full, task := task, full := (s.q i).full + 1 } with
          input := rest
          waited := false }
    else if 0 < s.empty then some { s with empty := s.empty - 1, waited := true }
    else none

/-- `compressThread` -/
def stepCompress (i : Fin job.qsize) : Option job.State :=
  let cj := s.q i
  match cj.pc with
  | .waitFull => if 0 < cj.full then some (s.setQ i { cj with full := cj.full - 1, pc := .check }) else none
  | .check =>
    if cj.task.method = [] then
      some (s.setQ i { cj with compressed := cj.compressed + 1, pc := .ended })
    else some (s.setQ i { cj with state := .compressing, pc := .waitCompressor })
  | .waitCompressor =>
    if 0 < s.compressors then
      some { s.setQ i { cj with pc := .compress } with compressors := s.compressors - 1 }
    else none
  | .compress => some (s.setQ i { cj with out := cj.out ++ job.compressBlock cj.task, pc := .finish })
  | .finish =>
    some { s.setQ i { cj with state := .compressed, compressed := cj.compressed + 1, pc := .waitFull } with
      compressors := s.compressors + 1 }
  | .ended => none

/-- `writeThread`, of which nothing is written for a block without any bytes. -/
def stepWrite : Option job.State :=
  let cj := s.q s.front
  match s.writer with
  | .waitCompressed =>
    if 0 < cj.compressed then
      some { s.setQ s.front { cj with compressed := cj.compressed - 1 } with writer := .check }
    else none
  | .check =>
    if cj.task.method = [] then some { s with writer := .ended }
    else
      some { s.setQ s.front { cj with state := .writing } with
        csize := s.csize ++ [cj.out.length]
        writer := if 0 < cj.out.length then .write else .finish }
  | .write => some { s with archive := s.archive ++ cj.out, writer := .finish }
  | .finish =>
    some { s.setQ s.front { cj with out := [], state := .empty } with
      front := s.front + 1
      empty := s.empty + 1
      writer := .waitCompressed }
  | .ended => none

end State

def step (s : job.State) : job.Event → Option job.State
  | .add => s.stepAdd
  | .compress i => s.stepCompress i
  | .write => s.stepWrite

/-! ## A buffer and the task in it -/

/-- What a buffer can be like that has this task in it, if any, where the writer is at it or
waits for it. -/
inductive Holds : Option Task → WritePc → CJ → Prop where
  | empty {task : Task} : Holds none .waitCompressed ⟨.empty, task, [], 0, 0, .waitFull⟩
  | full {task : Task} : Holds (some task) .waitCompressed ⟨.full, task, [], 1, 0, .waitFull⟩
  | taken {task : Task} : Holds (some task) .waitCompressed ⟨.full, task, [], 0, 0, .check⟩
  | last {task : Task} (isEnd : task.method = []) :
      Holds (some task) .waitCompressed ⟨.full, task, [], 0, 1, .ended⟩
  | seen {task : Task} {writer : WritePc} (isEnd : task.method = []) (here : writer = .check ∨ writer = .ended) :
      Holds (some task) writer ⟨.full, task, [], 0, 0, .ended⟩
  | started {task : Task} (notEnd : task.method ≠ []) :
      Holds (some task) .waitCompressed ⟨.compressing, task, [], 0, 0, .waitCompressor⟩
  | running {task : Task} (notEnd : task.method ≠ []) :
      Holds (some task) .waitCompressed ⟨.compressing, task, [], 0, 0, .compress⟩
  | ready {task : Task} (notEnd : task.method ≠ []) :
      Holds (some task) .waitCompressed ⟨.compressing, task, job.compressBlock task, 0, 0, .finish⟩
  | compressed {task : Task} (notEnd : task.method ≠ []) :
      Holds (some task) .waitCompressed ⟨.compressed, task, job.compressBlock task, 0, 1, .waitFull⟩
  | claimed {task : Task} (notEnd : task.method ≠ []) :
      Holds (some task) .check ⟨.compressed, task, job.compressBlock task, 0, 0, .waitFull⟩
  | writing {task : Task} {writer : WritePc} (notEnd : task.method ≠ [])
      (here : writer = .write ∨ writer = .finish) :
      Holds (some task) writer ⟨.writing, task, job.compressBlock task, 0, 0, .waitFull⟩

variable {job} {s s' : job.State}

/-- Whatever a compressing thread does, the buffer has its task still. -/
theorem stepCompress_spec {i : Fin job.qsize} {item : Option Task} {writer : WritePc}
    (holds : job.Holds item writer (s.q i)) (stepped : s.stepCompress i = some s') :
    ∃ cj compressors, s' = { s.setQ i cj with compressors := compressors } ∧ job.Holds item writer cj ∧
      cj.pc.busy + compressors = (s.q i).pc.busy + s.compressors ∧ cj.rank < (s.q i).rank := by
  rw [State.stepCompress] at stepped
  generalize s.q i = cj at holds stepped ⊢
  cases holds with
  | empty => cases stepped
  | full =>
    cases stepped
    exact ⟨_, _, rfl, .taken, rfl, by simp [CJ.rank]⟩
  | @taken task =>
    simp only at stepped
    split at stepped
    next isEnd =>
      cases stepped
      exact ⟨_, _, rfl, .last isEnd, rfl, by simp [CJ.rank]⟩
    next notEnd =>
      cases stepped
      exact ⟨_, _, rfl, .started notEnd, rfl, by simp [CJ.rank]⟩
  | last => cases stepped
  | seen => cases stepped
  | started notEnd =>
    simp only at stepped
    split at stepped
    next free =>
      cases stepped
      refine ⟨_, _, rfl, .running notEnd, ?_, by simp [CJ.rank]⟩
      simp only [CompressPc.busy]
      omega
    next => cases stepped
  | running notEnd =>
    cases stepped
    exact ⟨_, _, rfl, .ready notEnd, rfl, by simp [CJ.rank]⟩
  | ready notEnd =>
    cases stepped
    refine ⟨_, _, rfl, .compressed notEnd, ?_, by simp [CJ.rank]⟩
    simp only [CompressPc.busy]
    omega
  | compressed => cases stepped
  | claimed => cases stepped
  | writing => cases stepped

/-- What a step of the writer does to the buffer in front, with the task in it. -/
inductive WriteStep (s : job.State) : Option Task → job.State → Prop where
  | takes {item : Option Task} {cj : CJ} (here : s.writer = .waitCompressed) (holds : job.Holds item .check cj)
      (busy : cj.pc.busy = (s.q s.front).pc.busy) (lower : cj.rank < (s.q s.front).rank) :
      WriteStep s item { s.setQ s.front cj with writer := .check }
  | ends {task : Task} (here : s.writer = .check) (isEnd : task.method = [])
      (holds : job.Holds (some task) .ended (s.q s.front)) :
      WriteStep s (some task) { s with writer := .ended }
  | claims {task : Task} {cj : CJ} {writer : WritePc} (here : s.writer = .check) (notEnd : task.method ≠ [])
      (holds : job.Holds (some task) writer cj) (busy : cj.pc.busy = (s.q s.front).pc.busy)
      (lower : cj.rank + writer.rank < (s.q s.front).rank + 1)
      (next : writer = .write ∨ writer = .finish ∧ job.compressBlock task = []) :
      WriteStep s (some task) { s.setQ s.front cj with
        csize := s.csize ++ [(job.compressBlock task).length]
        writer := writer }
  | writes {task : Task} (here : s.writer = .write) (holds : job.Holds (some task) .finish (s.q s.front)) :
      WriteStep s (some task) { s with archive := s.archive ++ job.compressBlock task, writer := .finish }
  | frees {task : Task} {cj : CJ} (here : s.writer = .finish) (notEnd : task.method ≠ [])
      (holds : job.Holds none .waitCompressed cj) (busy : cj.pc.busy = (s.q s.front).pc.busy)
      (lower : cj.rank < (s.q s.front).rank) :
      WriteStep s (some task) { s.setQ s.front cj with
        front := s.front + 1
        empty := s.empty + 1
        writer := .waitCompressed }

theorem stepWrite_spec {item : Option Task} (holds : job.Holds item s.writer (s.q s.front))
    (stepped : s.stepWrite = some s') : WriteStep s item s' := by
  rw [State.stepWrite] at stepped
  generalize front : s.q s.front = cj at holds stepped
  generalize here : s.writer = writer at holds stepped
  cases holds with
  | empty | full | taken | started | running | ready => cases stepped
  | last isEnd =>
    cases stepped
    exact .takes here (.seen isEnd (Or.inl rfl)) (by rw [front]) (by simp [front, CJ.rank])
  | compressed notEnd =>
    cases stepped
    exact .takes here (.claimed notEnd) (by rw [front]) (by simp [front, CJ.rank])
  | seen isEnd at_ =>
    rcases at_ with rfl | rfl
    · rw [if_pos isEnd] at stepped
      cases stepped
      exact .ends here isEnd (front ▸ .seen isEnd (Or.inr rfl))
    · cases stepped
  | @claimed task notEnd =>
    rw [if_neg notEnd] at stepped
    cases stepped
    simp only
    split
    next =>
      exact .claims here notEnd (.writing notEnd (Or.inl rfl)) (by rw [front])
        (by simp [front, CJ.rank, WritePc.rank]) (Or.inl rfl)
    next nothing =>
      have empty : job.compressBlock task = [] := List.length_eq_zero_iff.mp (by omega)
      exact .claims here notEnd (.writing notEnd (Or.inr rfl)) (by rw [front])
        (by simp [front, CJ.rank, WritePc.rank]) (Or.inr ⟨rfl, empty⟩)
  | writing notEnd at_ =>
    rcases at_ with rfl | rfl
    · cases stepped
      exact .writes here (front ▸ .writing notEnd (Or.inr rfl))
    · cases stepped
      exact .frees here notEnd .empty (by rw [front]) (by simp [front, CJ.rank])

end CompressJob

end BackupSuite.Zpaq
