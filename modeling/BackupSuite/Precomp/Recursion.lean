import BackupSuite.Precomp.TempFiles

/-! # What precomp's recursion leaves of the names

`recursion_pop` puts slices of a fixed length over the names of the inner level, so the
digits behind them stay as the inner level has them, and `recursion_compress` deletes
the path that all levels share.  `namesSurvive_iff` says for which calls the names come
back nevertheless.
-/

namespace BackupSuite.Precomp

open BackupSuite.Library BackupSuite.CtrlCenter

/-- The recursive calls that are made while one file is worked on, each with those that
are made inside of it.  A call that `max_recursion_depth` turns away does nothing. -/
inductive Calls where
  | done
  | call (kind : Kind) (around : Surroundings) (inner next : Calls)

/-- The strings that the names lead to. -/
structure View where
  names : Names
  temporaryPathName : Option Bytes
deriving DecidableEq, Repr

def State.view (s : State) : View := ⟨s.names, s.path⟩

/-- A recursive call that has returned. -/
structure Return where
  before : View
  after : View
deriving DecidableEq, Repr

namespace Calls

/-- The calls one after the other, with what each of them found and left. -/
def run : Calls → State → Option (State × List Return)
  | done, s => some (s, [])
  | call kind around inner next, s => do
    let entered ← step s .enter
    let opened ← step entered (.init around)
    let (worked, below) ← inner.run opened
    let closed ← step worked .denit
    let left ← step closed (.leave kind)
    let (ended, behind) ← next.run left
    return (ended, below ++ ⟨s.view, left.view⟩ :: behind)

def events : Calls → List Event
  | done => []
  | call kind around inner next =>
    .enter :: .init around :: (inner.events ++ .denit :: .leave kind :: next.events)

theorem run_events (calls : Calls) (s : State) :
    Precomp.run s calls.events = (calls.run s).map Prod.fst := by
  induction calls generalizing s with
  | done => rfl
  | call kind around inner next ihInner ihNext =>
    simp only [Precomp.run] at ihInner ihNext
    simp only [Precomp.run, events, run, List.foldlM_cons, List.foldlM_append, ihInner, ihNext,
      Option.bind_eq_bind, Option.map_eq_bind, Option.bind_assoc, Option.bind_some, Function.comp_def,
      Option.pure_def]

end Calls

/-- The whole run on one file. -/
def whole (option : Option TemporaryPath) (around : Surroundings) (calls : Calls) :
    Option (State × List Return) := do
  let opened ← step (start option) (.init around)
  let (worked, returns) ← calls.run opened
  let closed ← step worked .denit
  return (closed, returns)

/-- No deleted name is read, and every recursive call leaves the names as it found them. -/
def NamesSurvive (option : Option TemporaryPath) (around : Surroundings) (calls : Calls) : Prop :=
  ∃ result ∈ whole option around calls, ∀ call ∈ result.2, call.after = call.before

/-! ## When the names come back -/

/-- The eight digits of `metatempfile` as a number. -/
def digits (metaInstance number : Nat) : Nat := metaInstance % 10 ^ 2 * 10 ^ 6 + number % 10 ^ 6

/-- Of these digits, how many lie behind the saved slice. -/
def unsaved (length : Nat) : Nat := min 8 (length - 4)

/-- No call compresses, and the digits of the inner level agree with the outer ones where
they are not saved. -/
def Calls.Agree (length : Nat) : Nat → Calls → Prop
  | _, done => True
  | outer, call kind around inner next =>
    kind = .decompress ∧
      digits 0 around.numbersTaken % 10 ^ unsaved length = outer % 10 ^ unsaved length ∧
      inner.Agree length (digits 0 around.numbersTaken) ∧ next.Agree length outer

theorem digit_inj : ∀ a < 10, ∀ b < 10, digit a = digit b → a = b := by decide

theorem numeral_digits (metaInstance number : Nat) :
    numeral 10 digit 2 metaInstance ++ numeral 10 digit 6 number =
      numeral 10 digit 8 (digits metaInstance number) := by
  have high : digits metaInstance number / 10 ^ 6 % 10 ^ 2 = metaInstance % 10 ^ 2 := by
    rw [digits]
    omega
  have low : digits metaInstance number % 10 ^ 6 = number % 10 ^ 6 := by
    rw [digits]
    omega
  rw [numeral_add 2 6, (numeral_inj digit_inj (by decide)).mpr high,
    (numeral_inj digit_inj (by decide)).mpr low]

theorem digits_mod {width : Nat} (low : width ≤ 6) (metaInstance number : Nat) :
    digits metaInstance number % 10 ^ width = number % 10 ^ width := by
  have divides : 10 ^ width ∣ 10 ^ 6 := Nat.pow_dvd_pow 10 low
  rw [digits, Nat.add_mod, Nat.mod_mod_of_dvd _ divides, Nat.mod_eq_zero_of_dvd (divides.mul_left _),
    Nat.zero_add, Nat.mod_mod]

theorem popBytes_take_iff {n : Nat} {outer inner : Bytes} (long : n ≤ outer.length) :
    popBytes (outer.take n) inner = outer ↔ inner.drop n = outer.drop n := by
  rw [popBytes, List.length_take, Nat.min_eq_left long]
  nth_rewrite 2 [← List.take_append_drop n outer]
  exact List.append_right_inj _

theorem name_eq (path last : Bytes) (instanceNumber number : Nat) :
    path ++ text "/~temp" ++ numeral 10 digit 2 instanceNumber ++ (numeral 10 digit 6 number ++ last) =
      path ++ text "/~temp" ++ numeral 10 digit 8 (digits instanceNumber number) ++ last := by
  rw [← numeral_digits]
  simp only [List.append_assoc]

/-- What is popped over the inner name is the outer name again when the digits behind the
slice agree. -/
theorem popBytes_numeral_iff {front last : Bytes} {saved : Nat}
    (long : saved ≤ front.length + 8 + last.length) (outer inner : Nat) :
    popBytes ((front ++ numeral 10 digit 8 outer ++ last).take saved) (front ++ numeral 10 digit 8 inner ++ last) =
        front ++ numeral 10 digit 8 outer ++ last ↔
      inner % 10 ^ (8 - (saved - front.length)) = outer % 10 ^ (8 - (saved - front.length)) := by
  have inside : saved ≤ (front ++ numeral 10 digit 8 outer ++ last).length := by
    rw [List.length_append, List.length_append, length_numeral]
    exact long
  have dropped (n : Nat) : (front ++ numeral 10 digit 8 n ++ last).drop saved =
      front.drop saved ++ (numeral 10 digit (8 - (saved - front.length)) n ++
        last.drop (saved - front.length - 8)) := by
    rw [List.append_assoc, List.drop_append, List.drop_append, drop_numeral, length_numeral]
  rw [popBytes_take_iff inside, dropped, dropped, List.append_right_inj, List.append_left_inj,
    numeral_inj digit_inj (by decide)]

/-- How a name with its eight digits comes out of the recursion. -/
theorem popBytes_name_iff {path last : Bytes} {saved : Nat} (long : saved ≤ 14 + last.length)
    (outer inner : Nat) :
    popBytes ((path ++ text "/~temp" ++ numeral 10 digit 8 outer ++ last).take saved)
        (path ++ text "/~temp" ++ numeral 10 digit 8 inner ++ last) =
        path ++ text "/~temp" ++ numeral 10 digit 8 outer ++ last ↔
      inner % 10 ^ (8 - (saved - (path.length + 6))) = outer % 10 ^ (8 - (saved - (path.length + 6))) := by
  rw [popBytes_numeral_iff (by rw [length_front]; omega), length_front]

/-- The instance is the same on all levels, so the tempfiles agree where `metatempfile` does:
one digit less of them is not saved. -/
theorem digits_agree (instanceNumber : Nat) {length metaInstance metaInstance' number number' : Nat}
    (agree : digits metaInstance' number' % 10 ^ unsaved length =
      digits metaInstance number % 10 ^ unsaved length) :
    digits instanceNumber number' % 10 ^ min 8 (length - 5) =
      digits instanceNumber number % 10 ^ min 8 (length - 5) := by
  rcases Nat.lt_or_ge 6 (min 8 (length - 5)) with all | low
  · -- all six digits of the number are compared
    have six : 10 ^ 6 ∣ 10 ^ unsaved length := Nat.pow_dvd_pow 10 (by rw [unsaved]; omega)
    have numbers := congrArg (· % 10 ^ 6) agree
    simp only [Nat.mod_mod_of_dvd _ six, digits_mod le_rfl] at numbers
    rw [digits, digits, numbers]
  · have fewer : 10 ^ min 8 (length - 5) ∣ 10 ^ unsaved length :=
      Nat.pow_dvd_pow 10 (by rw [unsaved]; omega)
    have numbers := congrArg (· % 10 ^ min 8 (length - 5)) agree
    simp only [Nat.mod_mod_of_dvd _ fewer, digits_mod low] at numbers
    rw [digits_mod low, digits_mod low, numbers]

theorem popInto_namesFor_iff {path : Bytes} {instanceNumber metaInstance metaInstance' number number' : Nat} :
    (namesFor path instanceNumber metaInstance number).slices.popInto
        (namesFor path instanceNumber metaInstance' number') =
        namesFor path instanceNumber metaInstance number ↔
      digits metaInstance' number' % 10 ^ unsaved path.length =
        digits metaInstance number % 10 ^ unsaved path.length := by
  have metaWidth : 8 - (18 - (path.length + 6)) = unsaved path.length := by
    rw [unsaved]
    omega
  have width : 8 - (19 - (path.length + 6)) = min 8 (path.length - 5) := by omega
  simp only [namesFor, name_eq]
  constructor
  · intro same
    have metatempfile := congrArg Names.metatempfile same
    rw [← metaWidth]
    exact (popBytes_name_iff (by decide) _ _).mp metatempfile
  · intro agree
    have tempfile := digits_agree instanceNumber agree
    rw [← metaWidth] at agree
    rw [← width] at tempfile
    rw [Names.slices, Names.popInto, Names.mk.injEq]
    exact ⟨(popBytes_name_iff (by decide) _ _).mpr agree,
      (popBytes_name_iff (by decide) _ _).mpr tempfile,
      (popBytes_name_iff (by decide) _ _).mpr tempfile, (popBytes_name_iff (by decide) _ _).mpr tempfile,
      (popBytes_name_iff (by decide) _ _).mpr tempfile⟩

/-! ## One call -/

section

variable {s : State} {path : Bytes} (around : Surroundings) (table : Bytes)

def State.withList (table : Bytes) (s : State) : State := { s with tempfilelist := table }

/-- The inner level is closed and its names are still there. -/
def State.closed (path : Bytes) (around : Surroundings) (table : Bytes) (s : State) : State :=
  { s.enter with names := namesFor path s.tempfileInstance 0 around.numbersTaken, tempfilelist := table }

theorem step_enter (isOpen : s.levels ≠ []) : step s .enter = some s.enter := if_neg isOpen

theorem step_init (reads : s.path = some path) : step s (.init around) = some (s.opened path around) :=
  State.initTempFiles_of_path reads around

theorem levels_opened_ne_nil (s : State) : (s.opened path around).levels ≠ [] := by simp [State.opened]

theorem exists_step_denit (reads : s.path = some path) (isOpen : s.levels ≠ []) :
    ∃ closed, step s .denit = some closed := by
  rw [step, if_neg isOpen, State.denit, reads]
  exact ⟨_, rfl⟩

theorem step_denit_opened (reads : s.path = some path) :
    ∃ table', step ((s.enter.opened path around).withList table) .denit = some (s.closed path around table') := by
  have path_worked : ((s.enter.opened path around).withList table).path = some path := reads
  have isOpen : ((s.enter.opened path around).withList table).levels ≠ [] := levels_opened_ne_nil around s.enter
  refine ⟨table.take ((path.length + 20) * s.tempfilelistCount), ?_⟩
  rw [step, if_neg isOpen, State.denit, path_worked]
  simp [State.withList, State.closed, State.opened, State.namesMade, State.enter, State.recursionPush]

/-- `recursion_decompress` changes the names only. -/
theorem step_leave_decompress :
    step (s.closed path around table) (.leave .decompress) =
      some { s.withList table with
        names := s.names.slices.popInto (namesFor path s.tempfileInstance 0 around.numbersTaken) } := rfl

/-- `recursion_compress` leaves a pointer to a string that it deleted. -/
theorem step_leave_compress (reads : s.path = some path) :
    ∃ left, step (s.closed path around table) (.leave .compress) = some left ∧ left.path = none := by
  obtain ⟨pointer, temporaryPathName, -⟩ := State.temporaryPathName_of_path reads
  have path_closed : (s.closed path around table).path = some path := reads
  have pointer_closed : (s.closed path around table).temporaryPathName = some pointer := temporaryPathName
  refine ⟨{ s with
    heap := s.heap.set pointer none
    names := s.names.slices.popInto (namesFor path s.tempfileInstance 0 around.numbersTaken)
    tempfilelist := table }, ?_, ?_⟩
  · rw [step, State.leave, State.deletePath, pointer_closed, path_closed]
    rfl
  · exact State.path_of_deleted temporaryPathName rfl

end

/-! ## All calls -/

namespace Calls

/-- A call whose path can be read gets as far as the calls inside of it. -/
theorem run_call {s : State} {path : Bytes} (reads : s.path = some path) (isOpen : s.levels ≠ [])
    (kind : Kind) (around : Surroundings) (inner next : Calls) :
    (call kind around inner next).run s =
      (inner.run (s.enter.opened path around)).bind fun worked =>
        (step worked.1 .denit).bind fun closed =>
          (step closed (.leave kind)).bind fun left =>
            (next.run left).bind fun ended =>
              some (ended.1, worked.2 ++ ⟨s.view, left.view⟩ :: ended.2) := by
  have opened : step s.enter (.init around) = some (s.enter.opened path around) := step_init around reads
  rw [run, step_enter isOpen, Option.bind_eq_bind, Option.bind_some, opened]
  rfl

/-- Calls that agree change nothing but the list. -/
theorem run_of_agree (calls : Calls) {s : State} {path : Bytes} {metaInstance number : Nat}
    (reads : s.path = some path) (isOpen : s.levels ≠ [])
    (names : s.names = namesFor path s.tempfileInstance metaInstance number)
    (agree : calls.Agree path.length (digits metaInstance number)) :
    ∃ table returns, calls.run s = some (s.withList table, returns) ∧
      ∀ call ∈ returns, call.after = call.before := by
  induction calls generalizing s metaInstance number with
  | done => exact ⟨s.tempfilelist, [], rfl, by simp⟩
  | call kind around inner next ihInner ihNext =>
    obtain ⟨rfl, sameDigits, innerAgree, nextAgree⟩ := agree
    obtain ⟨table, below, ranInner, keptBelow⟩ := ihInner (s := s.enter.opened path around) reads
      (levels_opened_ne_nil around s.enter) rfl innerAgree
    obtain ⟨table', closed⟩ := step_denit_opened around table reads
    have restored : s.names.slices.popInto (namesFor path s.tempfileInstance 0 around.numbersTaken) = s.names := by
      rw [names]
      exact popInto_namesFor_iff.mpr sameDigits
    have left : step (s.closed path around table') (.leave .decompress) = some (s.withList table') := by
      rw [step_leave_decompress, restored]
      rfl
    obtain ⟨table'', behind, ranNext, keptBehind⟩ := ihNext (s := s.withList table') reads isOpen names nextAgree
    refine ⟨table'', below ++ ⟨s.view, (s.withList table').view⟩ :: behind, ?_, ?_⟩
    · rw [run_call reads isOpen, ranInner, Option.bind_some, closed, Option.bind_some, left, Option.bind_some,
        ranNext]
      rfl
    · intro call mem
      rcases List.mem_append.mp mem with mem | mem
      · exact keptBelow call mem
      · rcases List.mem_cons.mp mem with rfl | mem
        · rfl
        · exact keptBehind call mem

/-- Calls after which every name is back agree. -/
theorem agree_of_run (calls : Calls) {s : State} {path : Bytes} {metaInstance number : Nat}
    {result : State × List Return} (reads : s.path = some path) (isOpen : s.levels ≠ [])
    (names : s.names = namesFor path s.tempfileInstance metaInstance number)
    (ran : calls.run s = some result) (kept : ∀ call ∈ result.2, call.after = call.before) :
    calls.Agree path.length (digits metaInstance number) := by
  induction calls generalizing s metaInstance number result with
  | done => trivial
  | call kind around inner next ihInner ihNext =>
    rw [run_call reads isOpen] at ran
    simp only [Option.bind_eq_some_iff, Option.some.injEq] at ran
    obtain ⟨⟨worked, below⟩, ranInner, closed, ranDenit, left, ranLeave, ⟨ended, behind⟩, ranNext, rfl⟩ := ran
    have innerAgree := ihInner (s := s.enter.opened path around) reads (levels_opened_ne_nil around s.enter)
      rfl ranInner fun call mem => kept call (List.mem_append_left _ mem)
    -- so the inner calls changed nothing, and the state behind them is known
    obtain ⟨table, returns, ranInner', -⟩ := run_of_agree inner (s := s.enter.opened path around) reads
      (levels_opened_ne_nil around s.enter) rfl innerAgree
    cases ranInner.symm.trans ranInner'
    obtain ⟨table', ranDenit'⟩ := step_denit_opened around table reads
    cases ranDenit.symm.trans ranDenit'
    have back : left.view = s.view := kept ⟨s.view, left.view⟩ (by simp)
    cases kind with
    | compress =>
      obtain ⟨left', ranLeave', deleted⟩ := step_leave_compress around table' reads
      cases ranLeave.symm.trans ranLeave'
      have path_back := congrArg View.temporaryPathName back
      rw [State.view, State.view, deleted, reads] at path_back
      cases path_back
    | decompress =>
      rw [step_leave_decompress] at ranLeave
      cases ranLeave
      have names_back : s.names.slices.popInto (namesFor path s.tempfileInstance 0 around.numbersTaken) = s.names :=
        congrArg View.names back
      rw [names_back] at ranNext
      have nextAgree := ihNext (s := s.withList table') reads isOpen names ranNext
        fun call mem => kept call (List.mem_append_right _ (List.mem_cons_of_mem _ mem))
      rw [names] at names_back
      exact ⟨rfl, popInto_namesFor_iff.mp names_back, innerAgree, nextAgree⟩

end Calls

/-! ## The whole run -/

theorem path_start (option : Option TemporaryPath) : (start option).withPath.path = some (pathOf option) := by
  cases option with
  | none => rfl
  | some given => rfl

theorem step_start (option : Option TemporaryPath) (around : Surroundings) :
    step (start option) (.init around) = some ((start option).withPath.opened (pathOf option) around) := by
  rw [step, State.initTempFiles_eq, path_start, Option.map_some]

theorem names_start (option : Option TemporaryPath) (around : Surroundings) :
    ((start option).withPath.opened (pathOf option) around).names =
      namesFor (pathOf option) ((start option).withPath.opened (pathOf option) around).tempfileInstance
        around.instancesTaken around.numbersTaken := by
  cases option with
  | none => rfl
  | some given => rfl

/-- The names come back from every call exactly if the calls agree. -/
theorem namesSurvive_iff (option : Option TemporaryPath) (around : Surroundings) (calls : Calls) :
    NamesSurvive option around calls ↔
      calls.Agree (pathOf option).length (digits around.instancesTaken around.numbersTaken) := by
  have reads : ((start option).withPath.opened (pathOf option) around).path = some (pathOf option) :=
    path_start option
  have isOpen : ((start option).withPath.opened (pathOf option) around).levels ≠ [] :=
    levels_opened_ne_nil around (start option).withPath
  rw [NamesSurvive, whole, step_start]
  constructor
  · rintro ⟨result, ran, kept⟩
    simp only [Option.bind_eq_bind, Option.bind_some, Option.mem_def, Option.bind_eq_some_iff,
      Option.pure_def, Option.some.injEq] at ran
    obtain ⟨⟨worked, returns⟩, ran, closed, -, rfl⟩ := ran
    exact calls.agree_of_run reads isOpen (names_start option around) ran kept
  · intro agree
    obtain ⟨table, returns, ran, kept⟩ := calls.run_of_agree reads isOpen (names_start option around) agree
    obtain ⟨closed, ranDenit⟩ := exists_step_denit
      (s := ((start option).withPath.opened (pathOf option) around).withList table) reads isOpen
    refine ⟨(closed, returns), ?_, kept⟩
    rw [Option.bind_eq_bind, Option.bind_some, ran, Option.bind_eq_bind, Option.bind_some]
    exact congrArg (Option.bind · fun closed => some (closed, returns)) ranDenit

/-- With or without `-u`, one stream that is compressed recursively deletes the path; and below
`/tmp/x` the names of a recursive call stay when its number is another one. -/
theorem names_lost :
    let around (numbersTaken : Nat) : Surroundings := ⟨0, numbersTaken, fun _ => 0⟩
    let given : TemporaryPath := ⟨text "/tmp/x", by decide, by decide⟩
    ¬ NamesSurvive none (around 0) (.call .compress (around 0) .done .done) ∧
      ¬ NamesSurvive (some given) (around 0) (.call .decompress (around 1) .done .done) := by
  intro around given
  constructor
  · rintro ⟨result, ran, -⟩
    -- the path is deleted when the outer level is closed
    have undefinedRun : whole none (around 0) (.call .compress (around 0) .done .done) = none := by decide
    rw [undefinedRun] at ran
    cases ran
  · rintro ⟨result, ran, kept⟩
    have differs : (whole (some given) (around 0) (.call .decompress (around 1) .done .done)).map
        (fun result => decide (∀ call ∈ result.2, call.after = call.before)) = some false := by decide
    rw [Option.mem_def.mp ran, Option.map_some, Option.some.injEq] at differs
    exact of_decide_eq_false differs kept

end BackupSuite.Precomp
