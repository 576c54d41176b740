import Mathlib.Logic.Relation
import BackupSuite.CtrlCenter.CreateRun
import BackupSuite.CtrlCenter.OutputNames

/-! # A create run as a process

The main thread and the jobs of the thread pool as one transition system: any job
may start, go on or fail at any time, the main thread submits and waits, and a job
that calls `exit` never returns and ends the process at some later moment.
`Reachable.invariant` is what holds in every state of every interleaving.
-/

namespace BackupSuite.CtrlCenter

open BackupSuite.Library

/-! ## Jobs -/

inductive JobKind where
  | hash
  | compress
deriving DecidableEq, Repr

inductive JobStatus where
  | queued
  /-- in `hashFile`, or in the compressor of `compressFile` -/
  | running
  /-- in the `copyFile` of `compressFile` -/
  | copying
  | returned (outcome : Option JobOutcome)
  /-- in `exit` -/
  | exiting
deriving DecidableEq, Repr

/-- A submitted job and the entry of its file. -/
structure PoolJob where
  kind : JobKind
  entry : FileEntry
  status : JobStatus
deriving DecidableEq, Repr

/-- The next step of a job; `succeeds` is how the tool it runs or the copy ends. -/
def advanceJob (succeeds : Bool) : JobKind → JobStatus → Option JobStatus
  | _, .queued => some .running
  | .hash, .running => some (if succeeds then .returned none else .exiting)
  | .compress, .running => some (if succeeds then .returned (some .archived) else .copying)
  | .compress, .copying => some (if succeeds then .returned (some .copied) else .exiting)
  | _, _ => none

/-! ## The process -/

/-- Where the main thread is. -/
inductive Phase where
  | loadMain
  | load
  | submitHash (rest : List FileEntry)
  | waitHash
  | submitCompress (rest : List FileEntry)
  | waitCompress
  | writeList
  | openDatabase
  | printDatabase (rest : List FileEntry)
  | finished
  /-- ended by `exit`, an exception or an endless loop -/
  | dead
deriving DecidableEq, Repr

/-- What a job or the list writer wrote. -/
inductive Stored where
  | output (entry : FileEntry) (outcome : JobOutcome)
  | list (text : Bytes)
deriving DecidableEq, Repr

/-- The process state: `database` is the list in memory and `writes` what was written
below the output folder, in order. -/
structure ProcessState where
  phase : Phase
  database : List FileEntry
  jobs : List PoolJob
  writes : List (Bytes × Stored)
  databaseFile : Option Bytes
deriving DecidableEq, Repr

/-- A create run, not a dry one, over files with faithful hash entries. -/
structure CreateProcess where
  conf : Configuration
  real : conf.dryRunFlag = false
  entries : List FileEntry
  distinct : (entries.map FileEntry.mPath).Nodup
  oldFile : Option Bytes
  mainBehind : Bytes
  behind : Bytes

/-- By itself, or through `exit`. -/
def Ended (s : ProcessState) : Prop := s.phase = .finished ∨ s.phase = .dead

inductive Event where
  | main
  | job (index : Nat) (succeeds : Bool)
  | exit
deriving DecidableEq, Repr

namespace CreateProcess

variable (p : CreateProcess)

def start : ProcessState := ⟨.loadMain, [], [], [], p.oldFile⟩

/-- `quickpool::done()` -/
def done (jobs : List PoolJob) : Bool :=
  jobs.all fun job => match job.status with | .returned _ => true | _ => false

/-- The next step of the main thread. -/
def mainStep (s : ProcessState) : Option ProcessState :=
  match s.phase with
  | .loadMain =>
    match readFileHashes p.conf.unittestPath (.faultless p.mainBehind) s.databaseFile with
    | .error _ => some { s with phase := .dead }
    | .ok (_, database) => some { s with phase := .load, database := database }
  -- `createOrUpdateArchive` clears the list and loads it again
  | .load =>
    match readFileHashes p.conf.unittestPath (.faultless p.behind) s.databaseFile with
    | .error _ => some { s with phase := .dead }
    | .ok (_, database) => some { s with phase := .submitHash p.entries, database := database }
  | .submitHash [] => some { s with phase := .waitHash }
  | .submitHash (e :: rest) =>
    some { s with phase := .submitHash rest, jobs := s.jobs ++ [⟨.hash, e, .queued⟩] }
  -- `while(!quickpool::done())` runs until no job is left
  | .waitHash => if done s.jobs then some { s with phase := .submitCompress p.entries } else none
  | .submitCompress [] => some { s with phase := .waitCompress }
  | .submitCompress (e :: rest) =>
    if compareEntry e s.database ≠ .eSame then
      some { s with phase := .submitCompress rest, jobs := s.jobs ++ [⟨.compress, e, .queued⟩] }
    else some { s with phase := .submitCompress rest }
  | .waitCompress => if done s.jobs then some { s with phase := .writeList } else none
  | .writeList =>
    some { s with
      phase := .openDatabase
      writes := s.writes ++
        [(filehashesName p.conf, .list (savedText p.conf.unittestPath p.entries))] }
  | .openDatabase =>
    -- both merges, then `fopen` with "w" empties the file
    let merged := mergeUpdates (mergeUpdates s.database p.entries) p.entries
    some { s with phase := .printDatabase merged, database := merged, databaseFile := some [] }
  | .printDatabase [] => some { s with phase := .finished }
  | .printDatabase (e :: rest) =>
    some { s with
      phase := .printDatabase rest
      databaseFile := s.databaseFile.map
        (· ++ printEntry (storedEntry p.conf.unittestPath e)) }
  | .finished => none
  | .dead => none

/-- What a job that has just reached `status` leaves below the output folder. -/
def jobWrites (entry : FileEntry) : JobStatus → List (Bytes × Stored)
  | .returned (some outcome) =>
    [(jobOutput p.conf entry.mPath outcome, .output entry outcome)]
  | _ => []

/-- The next step of a job of the pool. -/
def jobStep (s : ProcessState) (index : Nat) (succeeds : Bool) : Option ProcessState :=
  match s.jobs[index]? with
  | none => none
  | some job =>
    match advanceJob succeeds job.kind job.status with
    | none => none
    | some status =>
      some { s with
        jobs := s.jobs.set index { job with status := status }
        writes := s.writes ++ p.jobWrites job.entry status }

/-- One step of the process, until it has ended. -/
def fire (s : ProcessState) (event : Event) : Option ProcessState :=
  if s.phase = .finished ∨ s.phase = .dead then none
  else
    match event with
    | .main => p.mainStep s
    | .job index succeeds => p.jobStep s index succeeds
    | .exit =>
      -- `exit` in the job's thread takes the process down at any later moment
      if s.jobs.any fun job => job.status = .exiting then some { s with phase := .dead } else none

def Step (s s' : ProcessState) : Prop := ∃ event, p.fire s event = some s'

def Reachable (s : ProcessState) : Prop := Relation.ReflTransGen p.Step p.start s

/-- A schedule, step by step. -/
def runEvents : List Event → ProcessState → Option ProcessState
  | [], s => some s
  | event :: events, s =>
    match p.fire s event with
    | none => none
    | some s' => runEvents events s'

theorem reachable_runEvents {s s' : ProcessState} (reachable : p.Reachable s) {events : List Event}
    (ran : p.runEvents events s = some s') : p.Reachable s' := by
  induction events generalizing s with
  | nil =>
    cases ran
    exact reachable
  | cons event events ih =>
    rw [runEvents] at ran
    cases fired : p.fire s event with
    | none => simp [fired] at ran
    | some next =>
      simp only [fired] at ran
      exact ih (reachable.tail ⟨event, fired⟩) ran

/-! ## What holds in every state -/

/-- The list that the run loaded. -/
def Loaded (database : List FileEntry) : Prop :=
  ∃ found, readFileHashes p.conf.unittestPath (.faultless p.behind) p.oldFile = .ok (found, database)

/-- Every entry that is not among `rest` and not the same has its compress job. -/
def SubmittedBut (rest database : List FileEntry) (jobs : List PoolJob) : Prop :=
  ∀ e ∈ p.entries, e ∈ rest ∨ compareEntry e database = .eSame ∨
    ∃ job ∈ jobs, job.kind = .compress ∧ job.entry = e

def AllReturned (jobs : List PoolJob) : Prop := ∀ job ∈ jobs, ∃ outcome, job.status = .returned outcome

theorem done_eq_true {jobs : List PoolJob} : done jobs = true ↔ AllReturned jobs := by
  unfold done AllReturned
  rw [List.all_eq_true]
  constructor
  · intro all job mem
    have returned := all job mem
    cases status : job.status with
    | returned outcome => exact ⟨outcome, rfl⟩
    | queued | running | copying | exiting => simp [status] at returned
  · intro all job mem
    obtain ⟨outcome, status⟩ := all job mem
    simp [status]

/-- A compress job returns with an outcome, and what it wrote is in the folder. -/
def JobsStored (s : ProcessState) : Prop :=
  ∀ job ∈ s.jobs, job.kind = .compress → ∀ returned, job.status = .returned returned →
    ∃ outcome, returned = some outcome ∧
      (jobOutput p.conf job.entry.mPath outcome, .output job.entry outcome) ∈ s.writes

/-- The list file of the run. -/
def listWrite : Bytes × Stored :=
  (filehashesName p.conf, .list (savedText p.conf.unittestPath p.entries))

/-- What holds in each phase. -/
def PhaseInvariant (s : ProcessState) : Prop :=
  match s.phase with
  | .loadMain | .load | .dead => s.databaseFile = p.oldFile
  | .submitHash _ | .waitHash => s.databaseFile = p.oldFile ∧ p.Loaded s.database
  | .submitCompress rest =>
    s.databaseFile = p.oldFile ∧ p.Loaded s.database ∧ p.SubmittedBut rest s.database s.jobs
  | .waitCompress =>
    s.databaseFile = p.oldFile ∧ p.Loaded s.database ∧ p.SubmittedBut [] s.database s.jobs
  | .writeList =>
    s.databaseFile = p.oldFile ∧ p.Loaded s.database ∧ p.SubmittedBut [] s.database s.jobs ∧
      AllReturned s.jobs
  | .openDatabase =>
    s.databaseFile = p.oldFile ∧ p.Loaded s.database ∧ p.SubmittedBut [] s.database s.jobs ∧
      AllReturned s.jobs ∧ p.listWrite ∈ s.writes
  | .printDatabase rest =>
    AllReturned s.jobs ∧ p.listWrite ∈ s.writes ∧ ∃ loaded printed,
      p.Loaded loaded ∧ p.SubmittedBut [] loaded s.jobs ∧
      printed ++ rest = mergeUpdates loaded p.entries ∧
      s.databaseFile = some (savedText p.conf.unittestPath printed)
  | .finished =>
    AllReturned s.jobs ∧ p.listWrite ∈ s.writes ∧ ∃ loaded,
      p.Loaded loaded ∧ p.SubmittedBut [] loaded s.jobs ∧
      s.databaseFile = some (savedText p.conf.unittestPath (mergeUpdates loaded p.entries))

structure Invariant (s : ProcessState) : Prop where
  phase : p.PhaseInvariant s
  stored : p.JobsStored s

variable {p} {s s' : ProcessState}

theorem invariant_start : p.Invariant p.start := ⟨rfl, fun _ mem => by cases mem⟩

/-! ### A step of a job -/

/-- All that a job step does. -/
theorem jobStep_cases {index : Nat} {succeeds : Bool} (step : p.jobStep s index succeeds = some s') :
    ∃ job status, s.jobs[index]? = some job ∧
      advanceJob succeeds job.kind job.status = some status ∧
      s' = { s with
        jobs := s.jobs.set index { job with status := status }
        writes := s.writes ++ p.jobWrites job.entry status } := by
  rw [jobStep] at step
  cases found : s.jobs[index]? with
  | none => simp [found] at step
  | some job =>
    cases advanced : advanceJob succeeds job.kind job.status with
    | none => simp [found, advanced] at step
    | some status =>
      simp only [found, advanced, Option.some.injEq] at step
      exact ⟨job, status, rfl, advanced, step.symm⟩

theorem mem_set_of_getElem {jobs : List PoolJob} {index : Nat} {job other : PoolJob}
    (found : jobs[index]? = some job) (new : PoolJob) (mem : other ∈ jobs) :
    other ∈ jobs.set index new ∨ other = job ∧ new ∈ jobs.set index new := by
  obtain ⟨inside, here⟩ := List.getElem?_eq_some_iff.mp found
  obtain ⟨i, hi, rfl⟩ := List.mem_iff_getElem.mp mem
  by_cases same : index = i
  · subst same
    exact Or.inr ⟨here, List.mem_set inside new⟩
  · left
    rw [List.mem_iff_getElem]
    exact ⟨i, by simpa using hi, by rw [List.getElem_set_ne same]⟩

theorem SubmittedBut.set {rest database : List FileEntry} {jobs : List PoolJob}
    (submitted : p.SubmittedBut rest database jobs) {index : Nat} {job : PoolJob}
    (found : jobs[index]? = some job) (status : JobStatus) :
    p.SubmittedBut rest database (jobs.set index { job with status := status }) := by
  intro e mem
  rcases submitted e mem with later | same | ⟨other, inside, kind, entry⟩
  · exact Or.inl later
  · exact Or.inr (Or.inl same)
  · right; right
    rcases mem_set_of_getElem found { job with status := status } inside with kept | ⟨rfl, set⟩
    · exact ⟨other, kept, kind, entry⟩
    · exact ⟨_, set, kind, entry⟩

theorem AllReturned.no_advance {jobs : List PoolJob} (all : AllReturned jobs) {index : Nat}
    {job : PoolJob} (found : jobs[index]? = some job) {succeeds : Bool} {status : JobStatus}
    (advanced : advanceJob succeeds job.kind job.status = some status) : False := by
  obtain ⟨outcome, returned⟩ := all job (List.mem_of_getElem? found)
  rw [returned] at advanced
  cases job.kind <;> cases advanced

theorem advanceJob_compress {succeeds : Bool} {status : JobStatus} {returned : Option JobOutcome}
    (advanced : advanceJob succeeds .compress status = some (.returned returned)) :
    ∃ outcome, returned = some outcome := by
  cases status <;> cases succeeds <;> simp [advanceJob] at advanced
  all_goals exact ⟨_, advanced.symm⟩

theorem JobsStored.jobStep (stored : p.JobsStored s) {index : Nat} {job : PoolJob}
    {succeeds : Bool} {status : JobStatus}
    (advanced : advanceJob succeeds job.kind job.status = some status) :
    p.JobsStored { s with
      jobs := s.jobs.set index { job with status := status }
      writes := s.writes ++ p.jobWrites job.entry status } := by
  intro other mem kind returned status'
  rcases List.mem_or_eq_of_mem_set mem with old | rfl
  · obtain ⟨outcome, some, written⟩ := stored other old kind returned status'
    exact ⟨outcome, some, List.mem_append_left _ written⟩
  · -- this is the job that returned just now, with what it wrote
    simp only at kind status'
    subst status'
    rw [kind] at advanced
    obtain ⟨outcome, rfl⟩ := advanceJob_compress advanced
    exact ⟨outcome, rfl, List.mem_append_right _ (List.mem_singleton_self _)⟩

theorem Invariant.jobStep (invariant : p.Invariant s) {index : Nat} {succeeds : Bool}
    (step : p.jobStep s index succeeds = some s') : p.Invariant s' := by
  obtain ⟨job, status, found, advanced, rfl⟩ := jobStep_cases step
  refine ⟨?_, invariant.stored.jobStep advanced⟩
  have phase := invariant.phase
  rw [PhaseInvariant] at phase ⊢
  cases at_ : s.phase with
  | loadMain | load | dead => simpa only [at_] using phase
  | submitHash rest => simpa only [at_] using phase
  | waitHash => simpa only [at_] using phase
  | submitCompress rest =>
    simp only [at_] at phase ⊢
    exact ⟨phase.1, phase.2.1, phase.2.2.set found status⟩
  | waitCompress =>
    simp only [at_] at phase ⊢
    exact ⟨phase.1, phase.2.1, phase.2.2.set found status⟩
  -- from here on all jobs have returned, and none can step
  | writeList =>
    simp only [at_] at phase
    exact (phase.2.2.2.no_advance found advanced).elim
  | openDatabase =>
    simp only [at_] at phase
    exact (phase.2.2.2.1.no_advance found advanced).elim
  | printDatabase rest =>
    simp only [at_] at phase
    exact (phase.1.no_advance found advanced).elim
  | finished =>
    simp only [at_] at phase
    exact (phase.1.no_advance found advanced).elim

/-! ### A step of the main thread -/

theorem SubmittedBut.add {rest database : List FileEntry} {jobs : List PoolJob}
    (submitted : p.SubmittedBut rest database jobs) (job : PoolJob) :
    p.SubmittedBut rest database (jobs ++ [job]) := by
  intro e mem
  rcases submitted e mem with later | same | ⟨other, inside, facts⟩
  · exact Or.inl later
  · exact Or.inr (Or.inl same)
  · exact Or.inr (Or.inr ⟨other, List.mem_append_left _ inside, facts⟩)

/-- The entry at hand is skipped as the same or gets its job. -/
theorem SubmittedBut.next {e : FileEntry} {rest database : List FileEntry} {jobs : List PoolJob}
    (submitted : p.SubmittedBut (e :: rest) database jobs)
    (handled : compareEntry e database = .eSame ∨
      ∃ job ∈ jobs, job.kind = .compress ∧ job.entry = e) :
    p.SubmittedBut rest database jobs := by
  intro f mem
  cases submitted f mem with
  | inl later =>
    rcases List.mem_cons.mp later with rfl | later
    · exact Or.inr handled
    · exact Or.inl later
  | inr known => exact Or.inr known

theorem JobsStored.queue (stored : p.JobsStored s) (kind : JobKind) (entry : FileEntry)
    (phase : Phase) :
    p.JobsStored { s with phase := phase, jobs := s.jobs ++ [⟨kind, entry, .queued⟩] } := by
  intro job mem compress returned status
  cases List.mem_append.mp mem with
  | inl old => exact stored job old compress returned status
  | inr new =>
    cases List.mem_singleton.mp new
    cases status

theorem savedText_concat (u : Bytes) (entries : List FileEntry) (e : FileEntry) :
    savedText u (entries ++ [e]) = savedText u entries ++ printEntry (storedEntry u e) := by
  simp [savedText, fileText]

variable (p) in
/-- All that a step of the main thread does. -/
inductive MainStep (s : ProcessState) : ProcessState → Prop where
  | loadFails (here : s.phase = .loadMain ∨ s.phase = .load) : MainStep s { s with phase := .dead }
  | loadMain {database : List FileEntry} (here : s.phase = .loadMain) :
      MainStep s { s with phase := .load, database := database }
  | load {found : Bool} {database : List FileEntry} (here : s.phase = .load)
      (read : readFileHashes p.conf.unittestPath (.faultless p.behind) s.databaseFile = .ok (found, database)) :
      MainStep s { s with phase := .submitHash p.entries, database := database }
  | submittedHash (here : s.phase = .submitHash []) : MainStep s { s with phase := .waitHash }
  | submitHash {e : FileEntry} {rest : List FileEntry} (here : s.phase = .submitHash (e :: rest)) :
      MainStep s { s with phase := .submitHash rest, jobs := s.jobs ++ [⟨.hash, e, .queued⟩] }
  | waitHash (here : s.phase = .waitHash) : MainStep s { s with phase := .submitCompress p.entries }
  | submittedCompress (here : s.phase = .submitCompress []) : MainStep s { s with phase := .waitCompress }
  | submitCompress {e : FileEntry} {rest : List FileEntry} (here : s.phase = .submitCompress (e :: rest))
      (changed : compareEntry e s.database ≠ .eSame) :
      MainStep s { s with phase := .submitCompress rest, jobs := s.jobs ++ [⟨.compress, e, .queued⟩] }
  | skip {e : FileEntry} {rest : List FileEntry} (here : s.phase = .submitCompress (e :: rest))
      (same : compareEntry e s.database = .eSame) : MainStep s { s with phase := .submitCompress rest }
  | waitCompress (here : s.phase = .waitCompress) (returned : AllReturned s.jobs) :
      MainStep s { s with phase := .writeList }
  | writeList (here : s.phase = .writeList) :
      MainStep s { s with phase := .openDatabase, writes := s.writes ++ [p.listWrite] }
  | openDatabase {merged : List FileEntry} (here : s.phase = .openDatabase)
      (eq : merged = mergeUpdates (mergeUpdates s.database p.entries) p.entries) :
      MainStep s { s with phase := .printDatabase merged, database := merged, databaseFile := some [] }
  | printed (here : s.phase = .printDatabase []) : MainStep s { s with phase := .finished }
  | printDatabase {e : FileEntry} {rest : List FileEntry} (here : s.phase = .printDatabase (e :: rest)) :
      MainStep s { s with
        phase := .printDatabase rest
        databaseFile := s.databaseFile.map (· ++ printEntry (storedEntry p.conf.unittestPath e)) }

theorem mainStep_cases (step : p.mainStep s = some s') : p.MainStep s s' := by
  rw [mainStep] at step
  split at step
  next here =>
    split at step <;> cases step
    · exact .loadFails (Or.inl here)
    · exact .loadMain here
  next here =>
    split at step <;> cases step
    · exact .loadFails (Or.inr here)
    next read => exact .load here read
  next here =>
    cases step
    exact .submittedHash here
  next here =>
    cases step
    exact .submitHash here
  next here =>
    split at step <;> cases step
    exact .waitHash here
  next here =>
    cases step
    exact .submittedCompress here
  next here =>
    split at step <;> cases step
    next changed => exact .submitCompress here changed
    next same => exact .skip here (not_not.mp same)
  next here =>
    split at step <;> cases step
    next returned => exact .waitCompress here (done_eq_true.mp returned)
  next here =>
    cases step
    exact .writeList here
  next here =>
    cases step
    exact .openDatabase here rfl
  next here =>
    cases step
    exact .printed here
  next here =>
    cases step
    exact .printDatabase here
  next => cases step
  next => cases step

theorem JobsStored.write (stored : p.JobsStored s) (phase : Phase) (write : Bytes × Stored) :
    p.JobsStored { s with phase := phase, writes := s.writes ++ [write] } := by
  intro job mem compress returned status
  obtain ⟨outcome, some, written⟩ := stored job mem compress returned status
  exact ⟨outcome, some, List.mem_append_left _ written⟩

theorem Invariant.mainStep (invariant : p.Invariant s) (step : p.mainStep s = some s') :
    p.Invariant s' := by
  have phase := invariant.phase
  have stored := invariant.stored
  rw [PhaseInvariant] at phase
  cases mainStep_cases step with
  | loadFails here =>
    rcases here with here | here
    · simp only [here] at phase
      exact ⟨phase, stored⟩
    · simp only [here] at phase
      exact ⟨phase, stored⟩
  | loadMain here =>
    simp only [here] at phase
    exact ⟨phase, stored⟩
  | load here read =>
    simp only [here] at phase
    exact ⟨⟨phase, _, phase ▸ read⟩, stored⟩
  | submittedHash here =>
    simp only [here] at phase
    exact ⟨phase, stored⟩
  | submitHash here =>
    simp only [here] at phase
    exact ⟨phase, stored.queue .hash _ _⟩
  | waitHash here =>
    simp only [here] at phase
    -- nothing is submitted yet: every entry is among the rest
    exact ⟨⟨phase.1, phase.2, fun e mem => Or.inl mem⟩, stored⟩
  | submittedCompress here =>
    simp only [here] at phase
    exact ⟨phase, stored⟩
  | @submitCompress e rest here changed =>
    simp only [here] at phase
    obtain ⟨file, isLoaded, submitted⟩ := phase
    have queued : ∃ job ∈ s.jobs ++ [⟨.compress, e, .queued⟩], job.kind = .compress ∧ job.entry = e :=
      ⟨⟨.compress, e, .queued⟩, by simp, rfl, rfl⟩
    exact ⟨⟨file, isLoaded, (submitted.add _).next (Or.inr queued)⟩, stored.queue .compress e _⟩
  | skip here same =>
    simp only [here] at phase
    obtain ⟨file, isLoaded, submitted⟩ := phase
    exact ⟨⟨file, isLoaded, submitted.next (Or.inl same)⟩, stored⟩
  | waitCompress here returned =>
    simp only [here] at phase
    obtain ⟨file, isLoaded, submitted⟩ := phase
    exact ⟨⟨file, isLoaded, submitted, returned⟩, stored⟩
  | writeList here =>
    simp only [here] at phase
    obtain ⟨file, isLoaded, submitted, returned⟩ := phase
    have list : p.listWrite ∈ s.writes ++ [p.listWrite] := List.mem_append_right _ (List.mem_singleton_self _)
    exact ⟨⟨file, isLoaded, submitted, returned, list⟩, stored.write _ _⟩
  | openDatabase here eq =>
    simp only [here] at phase
    obtain ⟨-, isLoaded, submitted, returned, list⟩ := phase
    rw [mergeUpdates_idem] at eq
    -- the file is empty: no line of the merge is printed yet
    exact ⟨⟨returned, list, s.database, [], isLoaded, submitted, eq, rfl⟩, stored⟩
  | printed here =>
    simp only [here] at phase
    obtain ⟨returned, list, loaded, printed, isLoaded, submitted, split, file⟩ := phase
    rw [List.append_nil] at split
    exact ⟨⟨returned, list, loaded, isLoaded, submitted, by rw [← split]; exact file⟩, stored⟩
  | @printDatabase e rest here =>
    simp only [here] at phase
    obtain ⟨returned, list, loaded, printed, isLoaded, submitted, split, file⟩ := phase
    -- one more line is in the file
    refine ⟨⟨returned, list, loaded, printed ++ [e], isLoaded, submitted, by simp [← split], ?_⟩, stored⟩
    simp [file, savedText_concat]

/-! ### Any step, and any run -/

/-- While a job has not returned, the database is not open yet. -/
theorem PhaseInvariant.untouched (phase : p.PhaseInvariant s)
    (notReturned : ¬ AllReturned s.jobs) : s.databaseFile = p.oldFile := by
  rw [PhaseInvariant] at phase
  cases at_ : s.phase with
  | loadMain | load | dead => simpa only [at_] using phase
  | submitHash rest => simp only [at_] at phase; exact phase.1
  | waitHash => simp only [at_] at phase; exact phase.1
  | submitCompress rest => simp only [at_] at phase; exact phase.1
  | waitCompress => simp only [at_] at phase; exact phase.1
  | writeList => simp only [at_] at phase; exact phase.1
  | openDatabase => simp only [at_] at phase; exact phase.1
  | printDatabase rest => simp only [at_] at phase; exact (notReturned phase.1).elim
  | finished => simp only [at_] at phase; exact (notReturned phase.1).elim

theorem Invariant.fire (invariant : p.Invariant s) {event : Event}
    (step : p.fire s event = some s') : p.Invariant s' := by
  unfold CreateProcess.fire at step
  split at step
  · cases step
  · cases event with
    | main => exact invariant.mainStep step
    | job index succeeds => exact invariant.jobStep step
    | exit =>
      simp only at step
      split at step
      · cases step
        obtain ⟨job, mem, exiting⟩ := List.any_eq_true.mp ‹_›
        -- a job that is in `exit` has not returned
        have notReturned : ¬ AllReturned s.jobs := by
          intro all
          obtain ⟨outcome, returned⟩ := all job mem
          simp [returned] at exiting
        exact ⟨invariant.phase.untouched notReturned, invariant.stored⟩
      · cases step

theorem Reachable.invariant (reachable : p.Reachable s) : p.Invariant s := by
  induction reachable with
  | refl => exact invariant_start
  | tail _ step ih =>
    obtain ⟨event, fired⟩ := step
    exact ih.fire fired

end CreateProcess

end BackupSuite.CtrlCenter
