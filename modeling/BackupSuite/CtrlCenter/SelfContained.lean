import BackupSuite.CtrlCenter.CreateProcess

/-! # What a created folder holds

Create runs follow each other over one database, each with an output folder of its own.
The `filehashes.txt` of a run lists all entries, and jobs were submitted for the new and
changed ones only: `Series.hasCounterpart_iff` says that these are the ones whose file
is in the folder, and that the database the run loaded had the others.
-/

namespace BackupSuite.CtrlCenter

open BackupSuite.Library

/-- The list has been written. -/
def Phase.listed : Phase → Bool
  | .openDatabase | .printDatabase _ | .finished => true
  | _ => false

/-- What a folder holds under a path: what was written to this file last. -/
def folderAt (writes : List (Bytes × Stored)) (path : Bytes) : Option Stored :=
  (lastWith (fun write => place write.1) (place path) writes).map Prod.snd

/-- The archive or the raw copy of the entry's file is in the folder. -/
def HasCounterpart (conf : Configuration) (writes : List (Bytes × Stored)) (e : FileEntry) : Prop :=
  ∃ outcome, folderAt writes (jobOutput conf e.mPath outcome) = some (.output e outcome)

theorem folderAt_of_mem {writes : List (Bytes × Stored)}
    (apart : (writes.map fun write => place write.1).Nodup) {path : Bytes} {stored : Stored}
    (mem : (path, stored) ∈ writes) : folderAt writes path = some stored := by
  rw [folderAt, lastWith_eq_lookup apart, lookup_of_mem apart mem]
  rfl

theorem mem_of_folderAt {writes : List (Bytes × Stored)} {path : Bytes} {stored : Stored}
    (held : folderAt writes path = some stored) : ∃ written, (written, stored) ∈ writes := by
  obtain ⟨write, found, rfl⟩ := Option.map_eq_some_iff.mp held
  exact ⟨write.1, List.mem_reverse.mp (mem_of_lookup found)⟩

namespace CreateProcess

variable {p : CreateProcess} {s s' : ProcessState}

theorem Loaded.unique {loaded other : List FileEntry} (left : p.Loaded loaded)
    (right : p.Loaded other) : loaded = other := by
  obtain ⟨_, left⟩ := left
  obtain ⟨_, right⟩ := right
  cases left.symm.trans right
  rfl

variable (p) in
/-- The run does not know the entry's path with the entry's hash. -/
def Changed (e : FileEntry) : Prop := ∀ loaded, p.Loaded loaded → compareEntry e loaded ≠ .eSame

variable (p) in
/-- Only changed files get a compress job, only such jobs write outputs, and but for
outputs there is one list, written once the jobs have returned. -/
structure FolderInvariant (s : ProcessState) : Prop where
  jobs : ∀ job ∈ s.jobs, job.kind = .compress → p.Changed job.entry
  outputs : ∀ path e outcome, (path, .output e outcome) ∈ s.writes → p.Changed e
  list : ∀ path t, (path, .list t) ∈ s.writes →
    s.phase.listed = true ∧ t = savedText p.conf.unittestPath p.entries

theorem folderInvariant_start : p.FolderInvariant p.start where
  jobs := fun _ mem => by cases mem
  outputs := fun _ _ _ mem => by cases mem
  list := fun _ _ mem => by cases mem

theorem FolderInvariant.quiet (folder : p.FolderInvariant s) (jobs : s'.jobs = s.jobs)
    (writes : s'.writes = s.writes) (listed : s.phase.listed = true → s'.phase.listed = true) :
    p.FolderInvariant s' where
  jobs := by
    rw [jobs]
    exact folder.jobs
  outputs := by
    rw [writes]
    exact folder.outputs
  list := fun path t mem => by
    rw [writes] at mem
    obtain ⟨before, text⟩ := folder.list path t mem
    exact ⟨listed before, text⟩

theorem advanceJob_hash {succeeds : Bool} {status : JobStatus} {outcome : JobOutcome} :
    advanceJob succeeds .hash status ≠ some (.returned (some outcome)) := by
  cases status <;> cases succeeds <;> simp [advanceJob]

theorem mem_jobWrites {job : PoolJob} {succeeds : Bool} {status : JobStatus}
    (advanced : advanceJob succeeds job.kind job.status = some status) {write : Bytes × Stored}
    (mem : write ∈ p.jobWrites job.entry status) :
    job.kind = .compress ∧ ∃ outcome, write.2 = .output job.entry outcome := by
  unfold jobWrites at mem
  split at mem
  · next outcome =>
    rw [List.mem_singleton.mp mem]
    cases kind : job.kind with
    | hash =>
      rw [kind] at advanced
      exact (advanceJob_hash advanced).elim
    | compress => exact ⟨rfl, outcome, rfl⟩
  · cases mem

theorem FolderInvariant.jobStep (folder : p.FolderInvariant s) {index : Nat} {succeeds : Bool}
    (step : p.jobStep s index succeeds = some s') : p.FolderInvariant s' := by
  obtain ⟨job, status, found, advanced, rfl⟩ := jobStep_cases step
  have here := folder.jobs job (List.mem_of_getElem? found)
  constructor
  case jobs =>
    intro other mem kind
    rcases List.mem_or_eq_of_mem_set mem with old | rfl
    · exact folder.jobs other old kind
    · exact here kind
  case outputs =>
    intro path e outcome mem
    cases List.mem_append.mp mem with
    | inl old => exact folder.outputs path e outcome old
    | inr new =>
      obtain ⟨kind, _, written⟩ := mem_jobWrites advanced new
      cases written
      exact here kind
  case list =>
    intro path t mem
    cases List.mem_append.mp mem with
    | inl old => exact folder.list path t old
    | inr new =>
      obtain ⟨_, _, written⟩ := mem_jobWrites advanced new
      cases written

theorem FolderInvariant.queue (folder : p.FolderInvariant s) {job : PoolJob} {phase : Phase}
    (changed : job.kind = .compress → p.Changed job.entry)
    (unlisted : s.phase.listed = false) :
    p.FolderInvariant { s with phase := phase, jobs := s.jobs ++ [job] } where
  jobs := by
    intro other mem kind
    cases List.mem_append.mp mem with
    | inl old => exact folder.jobs other old kind
    | inr new =>
      cases List.mem_singleton.mp new
      exact changed kind
  outputs := folder.outputs
  list := fun path t mem => by
    have listed := (folder.list path t mem).1
    rw [unlisted] at listed
    cases listed

theorem FolderInvariant.mainStep (folder : p.FolderInvariant s) (invariant : p.Invariant s)
    (step : p.mainStep s = some s') : p.FolderInvariant s' := by
  have phase := invariant.phase
  rw [PhaseInvariant] at phase
  cases mainStep_cases step with
  | loadFails here =>
    rcases here with here | here
    · exact folder.quiet rfl rfl (by simp [here, Phase.listed])
    · exact folder.quiet rfl rfl (by simp [here, Phase.listed])
  | loadMain here => exact folder.quiet rfl rfl (by simp [here, Phase.listed])
  | load here _ => exact folder.quiet rfl rfl (by simp [here, Phase.listed])
  | submittedHash here => exact folder.quiet rfl rfl (by simp [here, Phase.listed])
  | submitHash here => exact folder.queue (fun kind => by cases kind) (by rw [here]; rfl)
  | waitHash here => exact folder.quiet rfl rfl (by simp [here, Phase.listed])
  | submittedCompress here => exact folder.quiet rfl rfl (by simp [here, Phase.listed])
  | submitCompress here changed =>
    simp only [here] at phase
    refine folder.queue (fun _ loaded isLoaded => ?_) (by rw [here]; rfl)
    -- the database in memory is still the one that was loaded
    rwa [isLoaded.unique phase.2.1]
  | skip here _ => exact folder.quiet rfl rfl (by simp [here, Phase.listed])
  | waitCompress here _ => exact folder.quiet rfl rfl (by simp [here, Phase.listed])
  | writeList here =>
    constructor
    case jobs => exact folder.jobs
    case outputs =>
      intro path e outcome mem
      cases List.mem_append.mp mem with
      | inl old => exact folder.outputs path e outcome old
      | inr new => cases List.mem_singleton.mp new
    case list =>
      intro path t mem
      refine ⟨rfl, ?_⟩
      cases List.mem_append.mp mem with
      | inl old => exact (folder.list path t old).2
      | inr new =>
        cases List.mem_singleton.mp new
        rfl
  | openDatabase => exact folder.quiet rfl rfl (fun _ => rfl)
  | printed => exact folder.quiet rfl rfl (fun _ => rfl)
  | printDatabase => exact folder.quiet rfl rfl (fun _ => rfl)

theorem Invariant.allReturned (invariant : p.Invariant s) (listed : s.phase.listed = true) :
    AllReturned s.jobs := by
  have phase := invariant.phase
  rw [PhaseInvariant] at phase
  cases at_ : s.phase with
  | openDatabase =>
    simp only [at_] at phase
    exact phase.2.2.2.1
  | printDatabase rest =>
    simp only [at_] at phase
    exact phase.1
  | finished =>
    simp only [at_] at phase
    exact phase.1
  | _ => simp [at_, Phase.listed] at listed

theorem FolderInvariant.fire (folder : p.FolderInvariant s) (invariant : p.Invariant s)
    {event : Event} (step : p.fire s event = some s') : p.FolderInvariant s' := by
  unfold CreateProcess.fire at step
  split at step
  · cases step
  · cases event with
    | main => exact folder.mainStep invariant step
    | job index succeeds => exact folder.jobStep step
    | exit =>
      simp only at step
      split at step
      next exits =>
        cases step
        obtain ⟨job, mem, exiting⟩ := List.any_eq_true.mp exits
        -- no job is in `exit` any more once the list is written
        refine folder.quiet rfl rfl fun listed => ?_
        obtain ⟨outcome, returned⟩ := invariant.allReturned listed job mem
        simp [returned] at exiting
      next => cases step

theorem Reachable.folderInvariant (reachable : p.Reachable s) : p.FolderInvariant s := by
  induction reachable with
  | refl => exact folderInvariant_start
  | tail before step ih =>
    obtain ⟨event, fired⟩ := step
    exact ih.fire (Reachable.invariant before) fired

theorem Invariant.submitted (invariant : p.Invariant s) (listed : s.phase.listed = true) :
    ∃ loaded, p.Loaded loaded ∧ p.SubmittedBut [] loaded s.jobs := by
  have phase := invariant.phase
  rw [PhaseInvariant] at phase
  cases at_ : s.phase with
  | openDatabase =>
    simp only [at_] at phase
    exact ⟨s.database, phase.2.1, phase.2.2.1⟩
  | printDatabase rest =>
    simp only [at_] at phase
    obtain ⟨_, _, loaded, _, isLoaded, submitted, _⟩ := phase
    exact ⟨loaded, isLoaded, submitted⟩
  | finished =>
    simp only [at_] at phase
    obtain ⟨_, _, loaded, isLoaded, submitted, _⟩ := phase
    exact ⟨loaded, isLoaded, submitted⟩
  | _ => simp [at_, Phase.listed] at listed

/-- Among the listed entries, those that are not the same have their counterpart. -/
theorem Reachable.counterpart_iff (reachable : p.Reachable s)
    (apart : (s.writes.map fun write => place write.1).Nodup) {t : Bytes}
    (list : folderAt s.writes (filehashesName p.conf) = some (.list t)) :
    t = savedText p.conf.unittestPath p.entries ∧ ∃ loaded, p.Loaded loaded ∧ ∀ e ∈ p.entries,
      (HasCounterpart p.conf s.writes e ↔ compareEntry e loaded ≠ .eSame) := by
  have invariant := Reachable.invariant reachable
  have folder := Reachable.folderInvariant reachable
  obtain ⟨path, written⟩ := mem_of_folderAt list
  obtain ⟨listed, saved⟩ := folder.list path t written
  obtain ⟨loaded, isLoaded, submitted⟩ := invariant.submitted listed
  refine ⟨saved, loaded, isLoaded, fun e mem => ⟨?_, fun changed => ?_⟩⟩
  · rintro ⟨outcome, held⟩
    obtain ⟨path, output⟩ := mem_of_folderAt held
    exact folder.outputs path e outcome output loaded isLoaded
  · -- an entry that is not the same has a job, and what it wrote is still there
    rcases submitted e mem with absurd | same | ⟨job, inside, kind, entry⟩
    · cases absurd
    · exact (changed same).elim
    · obtain ⟨returned, status⟩ := invariant.allReturned listed job inside
      obtain ⟨outcome, _, output⟩ := invariant.stored job inside kind returned status
      rw [entry] at output
      exact ⟨outcome, folderAt_of_mem apart output⟩

end CreateProcess

/-! ## A series of runs -/

/-- Create runs that have ended, each into its own empty folder, and each from the
database file that the one before left. -/
inductive Series : Option Bytes → List (CreateProcess × ProcessState) → Prop
  | nil (file : Option Bytes) : Series file []
  | run {p : CreateProcess} {s : ProcessState} {runs : List (CreateProcess × ProcessState)}
      (reachable : p.Reachable s) (ended : Ended s)
      (rest : Series s.databaseFile runs) : Series p.oldFile ((p, s) :: runs)

/-- Every entry that the folder's list lists has its counterpart in the folder. -/
def SelfContained (p : CreateProcess) (s : ProcessState) : Prop :=
  ∀ t, folderAt s.writes (filehashesName p.conf) = some (.list t) →
    ∀ e ∈ p.entries, HasCounterpart p.conf s.writes e

theorem Series.reachable {file : Option Bytes} {runs : List (CreateProcess × ProcessState)}
    (series : Series file runs) {p : CreateProcess} {s : ProcessState} (mem : (p, s) ∈ runs) :
    p.Reachable s := by
  induction series with
  | nil => cases mem
  | run reachable _ _ ih =>
    cases mem with
    | head => exact reachable
    | tail _ later => exact ih later

/-- Where the run's files are apart, its list is that of all entries, the ones with a
counterpart are those that are not the same, and the database had the others. -/
theorem Series.hasCounterpart_iff {file : Option Bytes}
    {runs : List (CreateProcess × ProcessState)} (series : Series file runs) {p : CreateProcess}
    {s : ProcessState} (mem : (p, s) ∈ runs)
    (apart : (s.writes.map fun write => place write.1).Nodup) {t : Bytes}
    (list : folderAt s.writes (filehashesName p.conf) = some (.list t)) :
    t = savedText p.conf.unittestPath p.entries ∧ ∃ loaded, p.Loaded loaded ∧ ∀ e ∈ p.entries,
      (HasCounterpart p.conf s.writes e ↔ compareEntry e loaded ≠ .eSame) ∧
      (HasCounterpart p.conf s.writes e ∨
        ∃ known ∈ loaded, known.mPath = e.mPath ∧ known.mHashValue = e.mHashValue) := by
  obtain ⟨saved, loaded, isLoaded, held⟩ :=
    CreateProcess.Reachable.counterpart_iff (series.reachable mem) apart list
  refine ⟨saved, loaded, isLoaded, fun e inside => ⟨held e inside, ?_⟩⟩
  by_cases same : compareEntry e loaded = .eSame
  · obtain ⟨known, found, hash⟩ := compareEntry_eq_eSame.mp same
    exact Or.inr ⟨known, mem_of_lookup found, key_of_lookup found, hash⟩
  · exact Or.inl ((held e inside).mpr same)

/-- Where the process is after these events. -/
def endOf (p : CreateProcess) (events : List Event) : ProcessState :=
  (p.runEvents events p.start).getD p.start

theorem Series.of_events {p : CreateProcess} {events : List Event}
    (finished : (p.runEvents events p.start).map ProcessState.phase = some .finished)
    {runs : List (CreateProcess × ProcessState)} (rest : Series (endOf p events).databaseFile runs) :
    Series p.oldFile ((p, endOf p events) :: runs) := by
  obtain ⟨s, ran, phase⟩ := Option.map_eq_some_iff.mp finished
  have here : endOf p events = s := by rw [endOf, ran, Option.getD_some]
  rw [here] at rest ⊢
  exact .run (p.reachable_runEvents Relation.ReflTransGen.refl ran) (Or.inl phase) rest

/-- A run over one file, and one over this and a new file. -/
def firstRun : CreateProcess where
  conf := ⟨text "one/", text "bin/", text "/tmp/", [], false⟩
  real := rfl
  entries := [⟨text "MeowHash", text "A1", text "in/a"⟩]
  distinct := by decide
  oldFile := none
  mainBehind := []
  behind := []

def secondRun : CreateProcess where
  conf := ⟨text "two/", text "bin/", text "/tmp/", [], false⟩
  real := rfl
  entries := [⟨text "MeowHash", text "A1", text "in/a"⟩, ⟨text "MeowHash", text "B3", text "in/b"⟩]
  distinct := by decide
  oldFile := some (text "MeowHash A1 in/a\n")
  mainBehind := [0]
  behind := [0]

def firstEnd : ProcessState := endOf firstRun
  [.main, .main, .main, .main, .job 0 true, .job 0 true, .main, .main, .main, .job 1 true,
    .job 1 true, .main, .main, .main, .main, .main]

/-- The second hash job is done before the first. -/
def secondEnd : ProcessState := endOf secondRun
  [.main, .main, .main, .main, .main, .job 1 true, .job 0 true, .job 1 true, .job 0 true, .main,
    .main, .main, .main, .job 2 true, .job 2 true, .main, .main, .main, .main, .main, .main]

theorem series_two : Series none [(firstRun, firstEnd), (secondRun, secondEnd)] := by
  -- the second run loads what the first one left
  have left : firstEnd.databaseFile = secondRun.oldFile := by decide
  refine Series.of_events (p := firstRun) (by decide) ?_
  change Series firstEnd.databaseFile _
  rw [left]
  exact Series.of_events (by decide) (.nil _)

theorem Series.hasCounterpart_iff_two :
    ∃ t, folderAt secondEnd.writes (filehashesName secondRun.conf) = some (.list t) ∧
      t = savedText [] secondRun.entries ∧
      ∃ loaded, secondRun.Loaded loaded ∧ ∀ e ∈ secondRun.entries,
        (HasCounterpart secondRun.conf secondEnd.writes e ↔ compareEntry e loaded ≠ .eSame) ∧
        (HasCounterpart secondRun.conf secondEnd.writes e ∨
          ∃ known ∈ loaded, known.mPath = e.mPath ∧ known.mHashValue = e.mHashValue) := by
  have list : folderAt secondEnd.writes (filehashesName secondRun.conf) =
      some (.list (text "MeowHash A1 in/a\nMeowHash B3 in/b\n")) := by decide
  exact ⟨_, list, Series.hasCounterpart_iff series_two (by simp) (by decide) list⟩

/-- The second list has the unchanged file, and the second folder has not. -/
theorem not_selfContained :
    Series none [(firstRun, firstEnd), (secondRun, secondEnd)] ∧
      ¬ SelfContained secondRun secondEnd := by
  refine ⟨series_two, fun contained => ?_⟩
  have list : folderAt secondEnd.writes (filehashesName secondRun.conf) =
      some (.list (text "MeowHash A1 in/a\nMeowHash B3 in/b\n")) := by decide
  obtain ⟨outcome, held⟩ := contained _ list _ List.mem_cons_self
  revert held
  cases outcome <;> decide

end BackupSuite.CtrlCenter
