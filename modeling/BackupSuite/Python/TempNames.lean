import Mathlib
import BackupSuite.CtrlCenter.DatabaseFile
import BackupSuite.Python.Verify

/-! # The temporary folders of the compress jobs

Every job of the pool increments the shared counter when it starts, and a job that runs
`precomp-cpp` reads the counter later, for the name of its temporary folder.  Other workers may
increment or read it in between.  The counter is a C `int` and wraps around.
-/

namespace BackupSuite.Python

open BackupSuite.Library BackupSuite.CtrlCenter

/-! ## The command of a job -/

/-- `compressArgs` -/
structure CompressArgs where
  toolpath : Str
  outputpath : Str
  inputpath : Str
  tempfolder : Str

/-- `"-u%s/~precomp_temp_%d" % (tempfolder, counter.value())` -/
def tempArgument (tempfolder : Str) (value : Int) : Str :=
  "-u".toList ++ (tempfolder ++ ("/~precomp_temp_".toList ++ value.repr.toList))

/-- The second branch of precomp; `zip` has no dot there. -/
def recompresses (lowerExt : Str) : Bool :=
  lowerExt = ".png".toList ∨ lowerExt = ".pdf".toList ∨ lowerExt = "zip".toList ∨ lowerExt = ".gzip".toList ∨
    lowerExt = ".bzip2".toList

/-- The job reads the counter. -/
def usesPrecomp (file : Str) : Bool :=
  let lowerExt := lower (splitext file).2
  lowerExt = ".mp3".toList ∨ recompresses lowerExt

/-- The command line of `compressFiles`, with what the counter was when it was read. -/
def compressCommand (args : CompressArgs) (file : Str) (value : Int) : List Str :=
  let lowerExt := lower (splitext file).2
  let outputfile := join args.outputpath (eraseAll args.inputpath file)
  if lowerExt = ".jpg".toList ∨ lowerExt = ".jpeg".toList then
    [args.toolpath ++ "/lepton".toList, "-singlethread".toList, "-allowprogressive".toList, file,
      outputfile ++ ".lepton".toList]
  else if lowerExt = ".mp3".toList then
    [args.toolpath ++ "/precomp-cpp".toList, "-lt1".toList, "-cn".toList,
      "-o".toList ++ outputfile ++ ".pcf".toList, tempArgument args.tempfolder value, file]
  else if recompresses lowerExt then
    [args.toolpath ++ "/precomp-cpp".toList, "-lt1".toList, "-cl".toList,
      "-o".toList ++ outputfile ++ ".pcf".toList, tempArgument args.tempfolder value, file]
  else
    [args.toolpath ++ "/zpaq715".toList, "a".toList, outputfile ++ ".zpaq".toList, file, "-m4".toList, "-t1".toList]

/-! ## The pool -/

inductive Worker where
  | idle
  /-- has a job and has not incremented the counter -/
  | taken (file : Str)
  | counted (file : Str)

/-- The workers, the files that no worker has taken yet and the precomp jobs that were
started, with the numbers they read. -/
structure Pool (W : Type) where
  val : Int
  queue : List Str
  worker : W → Worker
  started : List (Str × Int)

inductive Event (W : Type) where
  | take (w : W)
  | increment (w : W)
  /-- the job reads the counter and runs precomp -/
  | value (w : W)
  /-- the job runs another tool -/
  | other (w : W)

section

variable {W : Type} [DecidableEq W]

/-- One step of one worker; `none` if it cannot do that now. -/
def step (pool : Pool W) : Event W → Option (Pool W)
  | .take w =>
    match pool.worker w, pool.queue with
    | .idle, file :: queue => some { pool with queue := queue, worker := Function.update pool.worker w (.taken file) }
    | _, _ => none
  | .increment w =>
    match pool.worker w with
    | .taken file =>
      some { pool with val := toInt (pool.val + 1), worker := Function.update pool.worker w (.counted file) }
    | _ => none
  | .value w =>
    match pool.worker w with
    | .counted file =>
      if usesPrecomp file then
        some { pool with
          worker := Function.update pool.worker w .idle, started := pool.started ++ [(file, pool.val)] }
      else none
    | _ => none
  | .other w =>
    match pool.worker w with
    | .counted file =>
      if usesPrecomp file then none else some { pool with worker := Function.update pool.worker w .idle }
    | _ => none

/-- The steps of all workers in the order in which they happen. -/
def run (pool : Pool W) (events : List (Event W)) : Option (Pool W) := events.foldlM step pool

/-- `Counter(0)`, and all files are waiting. -/
def Pool.start (files : List Str) : Pool W := ⟨0, files, fun _ => .idle, []⟩

/-- No two precomp jobs have been given the same temporary folder. -/
def DistinctTemps (tempfolder : Str) (pool : Pool W) : Prop :=
  (pool.started.map fun job => tempArgument tempfolder job.2).Nodup

end

section

variable {W : Type}

def Event.isIncrement : Event W → Bool
  | .increment _ => true
  | _ => false

def increments (events : List (Event W)) : Nat := events.countP Event.isIncrement

/-- Between any two jobs that read the counter it has been incremented, and not a multiple of 2^32 times. -/
def Separated (events : List (Event W)) : Prop :=
  ∀ before between behind w w', events = before ++ .value w :: (between ++ .value w' :: behind) →
    ¬ 4294967296 ∣ increments between

/-! ## The numbers that are read -/

/-- How often the counter has been incremented when it is read, one number for each reading. -/
def numbers : Nat → List (Event W) → List Nat
  | _, [] => []
  | count, .increment _ :: events => numbers (count + 1) events
  | count, .value _ :: events => count :: numbers count events
  | count, .take _ :: events => numbers count events
  | count, .other _ :: events => numbers count events

theorem increments_cons (event : Event W) (events : List (Event W)) :
    increments (event :: events) = increments [event] + increments events :=
  @List.countP_append _ Event.isIncrement [event] events

theorem numbers_skip {event : Event W} (notValue : ∀ w, event ≠ .value w) (count : Nat) (events : List (Event W)) :
    numbers count (event :: events) = numbers (count + increments [event]) events := by
  cases event with
  | take w => rfl
  | increment w => rfl
  | other w => rfl
  | value w => exact absurd rfl (notValue w)

theorem numbers_append (count : Nat) (event : Event W) (events : List (Event W)) :
    numbers count (event :: events) =
      numbers count [event] ++ numbers (count + increments [event]) events := by
  cases event <;> rfl

theorem mem_numbers {count n : Nat} {events : List (Event W)} : n ∈ numbers count events ↔
    ∃ before w behind, events = before ++ .value w :: behind ∧ n = count + increments before := by
  induction events generalizing count with
  | nil => simp [numbers]
  | cons event events ih =>
    -- only a reading adds a number, the other steps go into what is before it
    by_cases isValue : ∃ w, event = .value w
    · obtain ⟨w, rfl⟩ := isValue
      rw [numbers, List.mem_cons, ih]
      constructor
      · rintro (rfl | ⟨before, w', behind, rfl, same⟩)
        · exact ⟨[], w, events, rfl, rfl⟩
        · exact ⟨.value w :: before, w', behind, rfl, same⟩
      · rintro ⟨before, w', behind, split, same⟩
        cases before with
        | nil => exact Or.inl same
        | cons first before =>
          obtain ⟨rfl, rest⟩ := List.cons.inj split
          exact Or.inr ⟨before, w', behind, rest, same⟩
    · have notValue := not_exists.mp isValue
      rw [numbers_skip notValue, ih]
      constructor
      · rintro ⟨before, w, behind, rfl, same⟩
        exact ⟨event :: before, w, behind, rfl, by rw [same, increments_cons event before, Nat.add_assoc]⟩
      · rintro ⟨before, w, behind, split, same⟩
        cases before with
        | nil => exact absurd (List.cons.inj split).1 (notValue w)
        | cons first before =>
          obtain ⟨rfl, rest⟩ := List.cons.inj split
          exact ⟨before, w, behind, rest, by rw [same, increments_cons event before, Nat.add_assoc]⟩

theorem separated_value {w : W} {events : List (Event W)} : Separated (.value w :: events) ↔
    (∀ between w' behind, events = between ++ .value w' :: behind → ¬ 4294967296 ∣ increments between) ∧
      Separated events := by
  constructor
  · intro separated
    refine ⟨fun between w' behind split => ?_, fun before between behind first second split => ?_⟩
    · exact separated [] between behind w w' (by rw [split]; rfl)
    · exact separated (.value w :: before) between behind first second (by rw [split]; rfl)
  · rintro ⟨here, later⟩ before between behind first second split
    cases before with
    | nil => exact here between second behind (List.cons.inj split).2
    | cons event before => exact later before between behind first second (List.cons.inj split).2

theorem separated_skip {event : Event W} (notValue : ∀ w, event ≠ .value w) {events : List (Event W)} :
    Separated (event :: events) ↔ Separated events := by
  constructor
  · intro separated before between behind first second split
    exact separated (event :: before) between behind first second (by rw [split]; rfl)
  · intro separated before between behind first second split
    cases before with
    | nil => exact absurd (List.cons.inj split).1 (notValue first)
    | cons _ before => exact separated before between behind first second (List.cons.inj split).2

theorem toInt_add_eq_iff (count added : Nat) :
    toInt (count + added : Nat) = toInt count ↔ 4294967296 ∣ added := by
  rw [toInt, toInt]
  omega

/-- Equal numbers are a multiple of 2^32 apart. -/
theorem nodup_numbers_iff {count : Nat} {events : List (Event W)} :
    ((numbers count events).map fun n : Nat => toInt n).Nodup ↔ Separated events := by
  induction events generalizing count with
  | nil => exact iff_of_true List.nodup_nil fun before _ _ _ _ split => by simp at split
  | cons event events ih =>
    by_cases isValue : ∃ w, event = .value w
    · obtain ⟨w, rfl⟩ := isValue
      rw [numbers, List.map_cons, List.nodup_cons, ih, separated_value]
      refine and_congr_left fun _ => ?_
      constructor
      · rintro notIn between w' behind rfl divides
        refine notIn (List.mem_map.mpr ⟨count + increments between, ?_, (toInt_add_eq_iff _ _).mpr divides⟩)
        exact mem_numbers.mpr ⟨between, w', behind, rfl, rfl⟩
      · intro apart mem
        obtain ⟨n, inRest, same⟩ := List.mem_map.mp mem
        obtain ⟨between, w', behind, split, rfl⟩ := mem_numbers.mp inRest
        exact apart between w' behind split ((toInt_add_eq_iff _ _).mp same)
    · have notValue := not_exists.mp isValue
      rw [numbers_skip notValue, ih, separated_skip notValue]

/-- The numbers that precomp jobs have been given. -/
def Pool.numbers (pool : Pool W) : List Int := pool.started.map Prod.snd

theorem tempArgument_inj {tempfolder : Str} {value value' : Int}
    (same : tempArgument tempfolder value = tempArgument tempfolder value') : value = value' := by
  rw [tempArgument, tempArgument, List.append_cancel_left_eq, List.append_cancel_left_eq,
    List.append_cancel_left_eq, String.toList_inj] at same
  exact Int.repr_injective same

theorem distinctTemps_iff_numbers {tempfolder : Str} {pool : Pool W} :
    DistinctTemps tempfolder pool ↔ pool.numbers.Nodup := by
  have temps : (pool.started.map fun job => tempArgument tempfolder job.2) =
      pool.numbers.map (tempArgument tempfolder) := by
    rw [Pool.numbers, List.map_map]
    rfl
  rw [DistinctTemps, temps, List.nodup_map_iff fun _ _ => tempArgument_inj]

end

/-! ## Runs -/

section

variable {W : Type} [DecidableEq W]

/-- One step: the counter counts, and a reading takes what it has counted. -/
theorem step_numbers {pool next : Pool W} {event : Event W} (taken : step pool event = some next) {count : Nat}
    (val : pool.val = toInt count) :
    next.val = toInt (count + increments [event] : Nat) ∧
      next.numbers = pool.numbers ++ (Python.numbers count [event]).map fun n : Nat => toInt n := by
  cases event with
  | take w =>
    rw [step] at taken
    split at taken
    case h_1 =>
      cases taken
      exact ⟨val, (List.append_nil _).symm⟩
    case h_2 => cases taken
  | increment w =>
    rw [step] at taken
    split at taken
    case h_1 =>
      cases taken
      refine ⟨?_, (List.append_nil _).symm⟩
      rw [show increments [Event.increment w] = 1 from rfl]
      simp only [val, toInt]
      omega
    case h_2 => cases taken
  | value w =>
    rw [step] at taken
    split at taken
    case h_1 =>
      split at taken
      case isTrue =>
        cases taken
        have numbers : Python.numbers count [Event.value w] = [count] := rfl
        refine ⟨val, ?_⟩
        rw [numbers, List.map_singleton, ← val]
        exact List.map_append
      case isFalse => cases taken
    case h_2 => cases taken
  | other w =>
    rw [step] at taken
    split at taken
    case h_1 =>
      split at taken
      case isTrue => cases taken
      case isFalse =>
        cases taken
        exact ⟨val, (List.append_nil _).symm⟩
    case h_2 => cases taken

theorem run_numbers {pool after : Pool W} {events : List (Event W)} (ran : run pool events = some after) {count : Nat}
    (val : pool.val = toInt count) :
    after.numbers = pool.numbers ++ (Python.numbers count events).map fun n : Nat => toInt n := by
  induction events generalizing pool count with
  | nil =>
    cases ran
    exact (List.append_nil _).symm
  | cons event events ih =>
    rw [run, List.foldlM_cons] at ran
    obtain ⟨next, taken, rest⟩ := Option.bind_eq_some_iff.mp ran
    obtain ⟨nextVal, nextNumbers⟩ := step_numbers taken val
    rw [ih rest nextVal, nextNumbers, numbers_append count event events, List.map_append, List.append_assoc]

/-- In every state that a run reaches, the temporary folders are distinct if and only if the
readings of the counter were separated. -/
theorem distinctTemps_iff {files : List Str} {events : List (Event W)} {pool : Pool W}
    (ran : run (.start files) events = some pool) (tempfolder : Str) :
    DistinctTemps tempfolder pool ↔ Separated events := by
  have val : (Pool.start files : Pool W).val = toInt (0 : Nat) := rfl
  have numbers : pool.numbers = (Python.numbers 0 events).map fun n : Nat => toInt n := run_numbers ran val
  rw [distinctTemps_iff_numbers, numbers, nodup_numbers_iff]

def twoFiles : List Str := ["in/a.mp3".toList, "in/b.pdf".toList]

/-- Two workers, one after the other. -/
def inTurn : List (Event Bool) := [.take true, .increment true, .value true, .take false, .increment false, .value false]

theorem distinctTemps_inTurn : ∃ pool, run (.start twoFiles) inTurn = some pool ∧ DistinctTemps tmp pool := by
  have separated : Separated inTurn := (@nodup_numbers_iff Bool 0 inTurn).mp (by decide)
  obtain ⟨pool, ran⟩ : ∃ pool, run (.start twoFiles) inTurn = some pool := ⟨_, rfl⟩
  exact ⟨pool, ran, (distinctTemps_iff ran tmp).mpr separated⟩

def atOnce : List (Event Bool) :=
  [.take true, .take false, .increment true, .increment false, .value true, .value false]

/-- Both workers increment the counter before one of them reads it. -/
theorem not_distinctTemps : ¬ ∀ (W : Type) [DecidableEq W] (files : List Str) (events : List (Event W)) (pool : Pool W)
    (tempfolder : Str), run (.start files) events = some pool → DistinctTemps tempfolder pool := by
  intro all
  obtain ⟨pool, ran, numbers⟩ : ∃ pool, run (.start twoFiles) atOnce = some pool ∧ pool.numbers = [2, 2] := ⟨_, rfl, rfl⟩
  have distinct := all Bool twoFiles atOnce pool tmp ran
  rw [distinctTemps_iff_numbers, numbers] at distinct
  exact absurd distinct (by decide)

/-- The argument stands in the command line of every job that reads the counter. -/
theorem tempArgument_mem (args : CompressArgs) {file : Str} (precomp : usesPrecomp file = true) (value : Int) :
    tempArgument args.tempfolder value ∈ compressCommand args file value := by
  rw [usesPrecomp] at precomp
  simp only [compressCommand]
  generalize lower (splitext file).2 = lowerExt at *
  rw [decide_eq_true_iff] at precomp
  have notJpg : ¬ (lowerExt = ".jpg".toList ∨ lowerExt = ".jpeg".toList) := by
    rintro (rfl | rfl)
    · exact absurd precomp (by decide)
    · exact absurd precomp (by decide)
  rw [if_neg notJpg]
  split
  case isTrue => simp
  case isFalse notMp3 =>
    rw [if_pos (precomp.resolve_left notMp3)]
    simp

end

end BackupSuite.Python
