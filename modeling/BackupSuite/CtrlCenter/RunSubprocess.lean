import Mathlib.Logic.Relation
import BackupSuite.CtrlCenter.HashStage

/-! # `runSubprocess` and its child

The parent and the child as a step relation over the two pipes between them.
`subprocess_join` waits for the child's end before anything is read, so what the
child writes has to find room in the pipes: `deadlockFree_iff` says that this is
all that decides whether the two get stuck.  `returned_eq` is the other half: a call
that returns has the value that `CtrlCenter.runSubprocess` gives for the whole output.
-/

namespace BackupSuite.CtrlCenter.Subprocess

open BackupSuite.Library

inductive Stream where
  | stdout
  | stderr
deriving DecidableEq, Repr

/-- What a child does: its writes in order, and the status it exits with. -/
structure Behaviour where
  writes : List (Stream × Bytes)
  status : Int

/-- Everything that goes to a stream. -/
def outputOf (stream : Stream) (writes : List (Stream × Bytes)) : Bytes :=
  writes.flatMap fun write => if write.1 = stream then write.2 else []

inductive ChildState where
  | running (writes : List (Stream × Bytes))
  | exited

/-- Where `runSubprocess` stands; `buffer` is what `fgets` has taken from the pipe. -/
inductive ParentState where
  /-- `waitpid` in `subprocess_join`, with the child's standard input closed -/
  | joining
  | reading (buffer : Bytes)
  | destroying (buffer : Bytes)
  | returned (ret : Except Bytes Bytes)

structure State where
  parent : ParentState
  child : ChildState
  pipe : Stream → Bytes

/-- After `subprocess_create`. -/
def start (behaviour : Behaviour) : State := ⟨.joining, .running behaviour.writes, fun _ => []⟩

/-- `fgets(tmp, 128, fp)` has a line or has filled `tmp`. -/
def LineComplete (buffer : Bytes) : Prop := 127 ≤ buffer.length ∨ 10 ∈ buffer

/-- What is returned for the status and the bytes that `fgets` got. -/
def retOf (status : Int) (buffer : Bytes) : Except Bytes Bytes :=
  if status ≠ 0 then .error (text "ERROR Subprocess(3)") else .ok (cStr (fgets 127 buffer))

/-- One step of the child or of the parent. -/
inductive Step (capacity : Stream → Nat) (behaviour : Behaviour) : State → State → Prop
  /-- as much of the write as has room; without any room the child waits -/
  | write {parent : ParentState} {stream : Stream} {front rest : Bytes}
      {writes : List (Stream × Bytes)} {pipe : Stream → Bytes} (some : front ≠ [])
      (room : (pipe stream).length + front.length ≤ capacity stream) :
      Step capacity behaviour ⟨parent, .running ((stream, front ++ rest) :: writes), pipe⟩
        ⟨parent, .running ((stream, rest) :: writes),
          Function.update pipe stream (pipe stream ++ front)⟩
  | written {parent : ParentState} {stream : Stream} {writes : List (Stream × Bytes)}
      {pipe : Stream → Bytes} :
      Step capacity behaviour ⟨parent, .running ((stream, []) :: writes), pipe⟩
        ⟨parent, .running writes, pipe⟩
  | exit {parent : ParentState} {pipe : Stream → Bytes} :
      Step capacity behaviour ⟨parent, .running [], pipe⟩ ⟨parent, .exited, pipe⟩
  | join {pipe : Stream → Bytes} :
      Step capacity behaviour ⟨.joining, .exited, pipe⟩ ⟨.reading [], .exited, pipe⟩
  /-- `fgets` waits for the pipe as long as it is empty and the child runs -/
  | read {child : ChildState} {buffer front rest : Bytes} {pipe : Stream → Bytes}
      (incomplete : ¬ LineComplete buffer) (some : front ≠ []) (available : pipe .stdout = front ++ rest) :
      Step capacity behaviour ⟨.reading buffer, child, pipe⟩
        ⟨.reading (buffer ++ front), child, Function.update pipe .stdout rest⟩
  | line {child : ChildState} {buffer : Bytes} {pipe : Stream → Bytes} (complete : LineComplete buffer) :
      Step capacity behaviour ⟨.reading buffer, child, pipe⟩ ⟨.destroying buffer, child, pipe⟩
  | endOfFile {buffer : Bytes} {pipe : Stream → Bytes} (empty : pipe .stdout = []) :
      Step capacity behaviour ⟨.reading buffer, .exited, pipe⟩ ⟨.destroying buffer, .exited, pipe⟩
  | destroy {child : ChildState} {buffer : Bytes} {pipe : Stream → Bytes} :
      Step capacity behaviour ⟨.destroying buffer, child, pipe⟩
        ⟨.returned (retOf behaviour.status buffer), child, pipe⟩

section

variable (capacity : Stream → Nat) (behaviour : Behaviour)

def Reachable (s : State) : Prop := Relation.ReflTransGen (Step capacity behaviour) (start behaviour) s

/-- The call has returned, or the parent or the child can go on. -/
def Live (s : State) : Prop := (∃ ret, s.parent = .returned ret) ∨ ∃ s', Step capacity behaviour s s'

/-- No state that can be reached is stuck. -/
def DeadlockFree : Prop := ∀ s, Reachable capacity behaviour s → Live capacity behaviour s

end

variable {capacity : Stream → Nat} {behaviour : Behaviour}

/-! ## What holds in every state -/

/-- What the child has still to write to a stream. -/
def ChildState.remaining (stream : Stream) : ChildState → Bytes
  | .running writes => outputOf stream writes
  | .exited => []

/-- While the parent waits the pipes hold what was written; afterwards the child is
gone and `fgets` has the front of its standard output. -/
def Consistent (behaviour : Behaviour) (s : State) : Prop :=
  match s.parent with
  | .joining => ∀ stream, s.pipe stream ++ s.child.remaining stream = outputOf stream behaviour.writes
  | .reading buffer => s.child = .exited ∧ buffer ++ s.pipe .stdout = outputOf .stdout behaviour.writes
  | .destroying buffer =>
    s.child = .exited ∧ ∃ rest, buffer ++ rest = outputOf .stdout behaviour.writes ∧
      (LineComplete buffer ∨ rest = [])
  | .returned ret =>
    s.child = .exited ∧ ret = retOf behaviour.status (outputOf .stdout behaviour.writes)

@[simp] theorem outputOf_cons (stream : Stream) (write : Stream × Bytes) (writes : List (Stream × Bytes)) :
    outputOf stream (write :: writes) =
      (if write.1 = stream then write.2 else []) ++ outputOf stream writes := List.flatMap_cons

theorem fgets_append_of_complete {n : Nat} {buffer : Bytes} (complete : n ≤ buffer.length ∨ 10 ∈ buffer)
    (rest : Bytes) : fgets n (buffer ++ rest) = fgets n buffer := by
  induction n generalizing buffer with
  | zero => rfl
  | succ n ih =>
    cases buffer with
    | nil => simp at complete
    | cons c buffer =>
      rw [List.cons_append, fgets, fgets]
      split
      · rfl
      · rename_i notNewline
        refine congrArg (c :: ·) (ih ?_)
        cases complete with
        | inl long => exact Or.inl (by rw [List.length_cons] at long; omega)
        | inr newline =>
          exact Or.inr ((List.mem_cons.mp newline).resolve_left (Ne.symm notNewline))

theorem write_pipes {stream other : Stream} {front rest : Bytes} {writes : List (Stream × Bytes)}
    {pipe : Stream → Bytes} :
    Function.update pipe stream (pipe stream ++ front) other ++ outputOf other ((stream, rest) :: writes) =
      pipe other ++ outputOf other ((stream, front ++ rest) :: writes) := by
  by_cases same : stream = other
  · subst same
    simp
  · simp [same, Function.update_of_ne (Ne.symm same)]

theorem Consistent.joining {parent : ParentState} {writes : List (Stream × Bytes)}
    {pipe : Stream → Bytes} (h : Consistent behaviour ⟨parent, .running writes, pipe⟩) :
    parent = .joining := by
  cases parent with
  | joining => rfl
  | reading buffer => cases h.1
  | destroying buffer => cases h.1
  | returned ret => cases h.1

theorem Step.consistent {s s' : State} (step : Step capacity behaviour s s')
    (h : Consistent behaviour s) : Consistent behaviour s' := by
  cases step with
  | write some room =>
    cases h.joining
    exact fun other => write_pipes.trans (h other)
  | written =>
    cases h.joining
    simpa [Consistent, ChildState.remaining] using h
  | exit =>
    cases h.joining
    exact h
  | join => exact ⟨rfl, by simpa [ChildState.remaining] using h .stdout⟩
  | read incomplete some available =>
    obtain ⟨exited, split⟩ := h
    refine ⟨exited, ?_⟩
    rw [← split]
    simp [available]
  | line complete => exact ⟨h.1, _, h.2, Or.inl complete⟩
  | endOfFile empty => exact ⟨rfl, _, h.2, Or.inr empty⟩
  | destroy =>
    obtain ⟨exited, rest, split, ended⟩ := h
    refine ⟨exited, ?_⟩
    rw [← split]
    cases ended with
    | inl complete => rw [retOf, retOf, fgets_append_of_complete complete]
    | inr empty => rw [empty, List.append_nil]

theorem Reachable.consistent {s : State} (reachable : Reachable capacity behaviour s) :
    Consistent behaviour s := by
  induction reachable with
  | refl => exact fun stream => rfl
  | tail _ step ih => exact step.consistent ih

/-- A call that returns has read the first line of the whole output. -/
theorem returned_eq {s : State} (reachable : Reachable capacity behaviour s) {ret : Except Bytes Bytes}
    (returned : s.parent = .returned ret) :
    ret = runSubprocess (.exited behaviour.status (outputOf .stdout behaviour.writes)) := by
  have consistent := reachable.consistent
  rw [Consistent, returned] at consistent
  exact consistent.2

/-! ## Who gets stuck -/

/-- Each stream's output finds room in its pipe. -/
def OutputFits (capacity : Stream → Nat) (behaviour : Behaviour) : Prop :=
  ∀ stream, (outputOf stream behaviour.writes).length ≤ capacity stream

/-- With room for all of the output the child never waits. -/
theorem Consistent.live {s : State} (h : Consistent behaviour s)
    (fits : OutputFits capacity behaviour) : Live capacity behaviour s := by
  obtain ⟨parent, child, pipe⟩ := s
  cases parent with
  | joining =>
    refine Or.inr ?_
    cases child with
    | exited => exact ⟨_, .join⟩
    | running writes =>
      match writes with
      | [] => exact ⟨_, .exit⟩
      | (stream, []) :: writes => exact ⟨_, .written⟩
      | (stream, c :: bytes) :: writes =>
        -- the pipe and what is still to be written are together no more than fits
        have room : (pipe stream).length + [c].length ≤ capacity stream := by
          have total := fits stream
          rw [← h stream] at total
          simp [ChildState.remaining] at total ⊢
          omega
        exact ⟨_, @Step.write _ _ _ stream [c] bytes writes pipe (by simp) room⟩
  | reading buffer =>
    refine Or.inr ?_
    cases h.1
    by_cases complete : LineComplete buffer
    · exact ⟨_, .line complete⟩
    · cases available : pipe .stdout with
      | nil => exact ⟨_, .endOfFile available⟩
      | cons c rest => exact ⟨_, @Step.read _ _ _ _ [c] rest pipe complete (by simp) available⟩
  | destroying buffer => exact Or.inr ⟨_, .destroy⟩
  | returned ret => exact Or.inl ⟨ret, rfl⟩

/-- Neither the waiting parent nor a child that writes to a full pipe can go on. -/
theorem not_live_of_full {stream : Stream} {c : UInt8} {bytes : Bytes}
    {writes : List (Stream × Bytes)} {pipe : Stream → Bytes}
    (full : capacity stream ≤ (pipe stream).length) :
    ¬ Live capacity behaviour ⟨.joining, .running ((stream, c :: bytes) :: writes), pipe⟩ := by
  rintro (⟨ret, returned⟩ | ⟨s', step⟩)
  · cases returned
  · generalize stuck : State.mk .joining (.running ((stream, c :: bytes) :: writes)) pipe = s at step
    cases step with
    | write some room =>
      simp only [State.mk.injEq, ChildState.running.injEq, List.cons.injEq, Prod.mk.injEq] at stuck
      obtain ⟨-, ⟨⟨rfl, -⟩, -⟩, rfl⟩ := stuck
      have := List.length_pos_of_ne_nil some
      omega
    | written => simp at stuck
    | exit => simp at stuck
    | join => simp at stuck
    | read => simp at stuck
    | line => simp at stuck
    | endOfFile => simp at stuck
    | destroy => simp at stuck

/-- A child that runs with too much to write for one of the pipes can fill a pipe. -/
theorem exists_stuck {stream : Stream} {writes : List (Stream × Bytes)} {pipe : Stream → Bytes}
    (bounded : (pipe stream).length ≤ capacity stream)
    (overflow : capacity stream < (pipe stream ++ outputOf stream writes).length) :
    ∃ s, Relation.ReflTransGen (Step capacity behaviour) ⟨.joining, .running writes, pipe⟩ s ∧
      ¬ Live capacity behaviour s := by
  induction writes generalizing pipe with
  | nil =>
    rw [show outputOf stream [] = [] from rfl, List.append_nil] at overflow
    omega
  | cons write writes ih =>
    obtain ⟨target, bytes⟩ := write
    induction bytes generalizing pipe with
    | nil =>
      obtain ⟨s, steps, stuck⟩ := ih bounded (by simpa using overflow)
      exact ⟨s, .head .written steps, stuck⟩
    | cons c bytes ihBytes =>
      by_cases room : (pipe target).length + 1 ≤ capacity target
      · have step : Step capacity behaviour
            ⟨.joining, .running ((target, [c] ++ bytes) :: writes), pipe⟩ _ := .write (by simp) room
        have moved : (Function.update pipe target (pipe target ++ [c]) stream).length ≤
            capacity stream := by
          by_cases same : stream = target
          · subst same
            simpa using room
          · rwa [Function.update_of_ne same]
        rw [show (target, c :: bytes) = (target, [c] ++ bytes) from rfl, ← write_pipes] at overflow
        obtain ⟨s, steps, stuck⟩ := ihBytes moved overflow
        exact ⟨s, .head step steps, stuck⟩
      · exact ⟨_, .refl, not_live_of_full (by omega)⟩

/-- Parent and child never get stuck exactly when the whole output of the child, of each
stream on its own, finds room in the pipe. -/
theorem deadlockFree_iff (capacity : Stream → Nat) (behaviour : Behaviour) :
    DeadlockFree capacity behaviour ↔ OutputFits capacity behaviour := by
  constructor
  · intro free
    by_contra overflow
    obtain ⟨stream, overflow⟩ := Classical.not_forall.mp overflow
    obtain ⟨s, reachable, stuck⟩ : ∃ s, Reachable capacity behaviour s ∧ ¬ Live capacity behaviour s :=
      exists_stuck (Nat.zero_le _) (by simpa using overflow)
    exact stuck (free s reachable)
  · intro fits s reachable
    exact reachable.consistent.live fits

theorem exists_stuck_one {capacity n : Nat} (overflow : capacity < n) :
    ∃ s, Reachable (fun _ => capacity) ⟨[(.stdout, List.replicate n 0)], 0⟩ s ∧
      ¬ Live (fun _ => capacity) ⟨[(.stdout, List.replicate n 0)], 0⟩ s :=
  @exists_stuck _ _ .stdout _ _ (Nat.zero_le _) (by simpa [outputOf] using overflow)

/-- A child that writes one byte more than Linux gives a pipe. -/
theorem not_deadlockFree :
    ¬ ∀ (capacity : Stream → Nat) (behaviour : Behaviour), (∀ stream, 0 < capacity stream) →
      DeadlockFree capacity behaviour := by
  intro free
  obtain ⟨s, reachable, stuck⟩ := exists_stuck_one (Nat.lt_succ_self 65536)
  exact stuck (free _ _ (fun _ => Nat.succ_pos 65535) s reachable)

end BackupSuite.CtrlCenter.Subprocess
