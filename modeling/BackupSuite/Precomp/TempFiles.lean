import BackupSuite.Library.Numeral
import BackupSuite.Library.SlotTable
import BackupSuite.CtrlCenter.ParseBuffer

/-! # precomp's temporary files

The names that `init_temp_files` makes below the folder of `-u`, the list of them that
the handler of ctrl-c reads, and the stack on which `recursion_push` saves them.  A
recursive call is `enter`, then `init` and `denit` of the file that is worked on, then
`leave`.
-/

namespace BackupSuite.Precomp

open BackupSuite.Library BackupSuite.CtrlCenter

/-- What `-u` gives: it needs a value, and that is a C string. -/
structure TemporaryPath where
  path : Bytes
  nonempty : path ≠ []
  noNul : 0 ∉ path

structure Names where
  metatempfile : Bytes
  tempfile0 : Bytes
  tempfile1 : Bytes
  tempfile2 : Bytes
  tempfile3 : Bytes
deriving DecidableEq, Repr

/-- What `init_temp_files` meets: how many of the names in each of its two loops are taken
by files, and what is in the memory that `realloc` adds. -/
structure Surroundings where
  instancesTaken : Nat
  numbersTaken : Nat
  fresh : Nat → UInt8

/-- What `recursion_push` saves of the names: a pointer and five slices. -/
structure Saved where
  temporaryPathName : Option Nat
  slices : Names
deriving DecidableEq, Repr

structure State where
  /-- What `new` gave for `temporary_path_name`; a string that was deleted is `none`. -/
  heap : List (Option Bytes)
  temporaryPathName : Option Nat
  names : Names
  recursionDepth : Nat
  tempfileInstance : Nat
  recursionStack : List Saved
  tempfilelist : Bytes
  tempfilelistCount : Nat
  /-- Not in the source: the names that the open levels were given. -/
  levels : List Names

/-- Which of the two recursive calls. -/
inductive Kind where
  | compress
  | decompress
deriving DecidableEq, Repr

inductive Event where
  | init (around : Surroundings)
  | denit
  | enter
  | leave (kind : Kind)

/-! ## Names -/

def digit (k : Nat) : UInt8 := 48 + k.toUInt8

/-- `do { …; i++ } while (file_exists(name))` when `taken` of the names exist. -/
def firstFree (position width : Nat) : Nat → Bytes → Bytes
  | 0, name => putNumeral 10 digit position width 0 name
  | taken + 1, name => putNumeral 10 digit position width (taken + 1) (firstFree position width taken name)

/-- The four numbered names have the same digits put in. -/
def numbered (offsetToFilename instanceNumber number : Nat) (name : Bytes) : Bytes :=
  putNumeral 10 digit (offsetToFilename + 5) 2 instanceNumber
    (putNumeral 10 digit (offsetToFilename + 5 + 2) 6 number name)

/-- What `recursion_push` saves: the first 18 bytes of the one name and 19 of the others. -/
def Names.slices (names : Names) : Names where
  metatempfile := names.metatempfile.take 18
  tempfile0 := names.tempfile0.take 19
  tempfile1 := names.tempfile1.take 19
  tempfile2 := names.tempfile2.take 19
  tempfile3 := names.tempfile3.take 19

/-- `recursion_stack_pop`, into the buffer that the pointer leads to now. -/
def popBytes (slice buffer : Bytes) : Bytes := slice ++ buffer.drop slice.length

def Names.popInto (slices names : Names) : Names where
  metatempfile := popBytes slices.metatempfile names.metatempfile
  tempfile0 := popBytes slices.tempfile0 names.tempfile0
  tempfile1 := popBytes slices.tempfile1 names.tempfile1
  tempfile2 := popBytes slices.tempfile2 names.tempfile2
  tempfile3 := popBytes slices.tempfile3 names.tempfile3

/-! ## The list of temporary files -/

/-- `strcpy(tempfilelist + i * width, name)`, which writes the NUL too. -/
def storeName (width : Nat) (table : Bytes) (i : Nat) (name : Bytes) : Bytes :=
  writeAt 0 table (i * width) (name ++ [0])

/-- What `init_temp_files` adds to the list; `count` has been raised already. -/
def updateList (width : Nat) (fresh : Nat → UInt8) (names : Names) (count : Nat) (table : Bytes) : Bytes :=
  let table := resize fresh (width * count) table
  let table := storeName width table (count - 8) names.metatempfile
  let table := storeName width table (count - 7) names.tempfile0
  let table := storeName width table (count - 6) names.tempfile1
  -- recursion input file
  let table := storeName width table (count - 5) names.tempfile1
  let table := writeAt 0 table ((count - 5) * width + 18) [95]
  let table := writeAt 0 table ((count - 5) * width + 19) [0]
  let table := storeName width table (count - 4) names.tempfile2
  storeName width table (count - 2) names.tempfile3

/-! ## The functions -/

namespace State

/-- The string behind `temporary_path_name`; there is none if it was deleted. -/
def path (s : State) : Option Bytes := s.temporaryPathName.bind fun pointer => s.heap[pointer]?.join

def allocate (s : State) (string : Bytes) : State :=
  { s with heap := s.heap ++ [some string], temporaryPathName := some s.heap.length }

/-- The first lines of `init_temp_files`; a path that was given exists or is made. -/
def withPath (s : State) : State := if s.temporaryPathName = none then s.allocate (text ".") else s

def initTempFiles (around : Surroundings) (s : State) : Option State := do
  let s := s.withPath
  let path ← s.path
  let offsetToFilename := path.length + 1
  let metatempfile := path ++ text "/~temp00000000.dat"
  let (metatempfile, tempfileInstance) :=
    if s.recursionDepth = 0 then
      (firstFree (offsetToFilename + 5) 2 around.instancesTaken metatempfile, around.instancesTaken)
    else (metatempfile, s.tempfileInstance)
  let numbered := numbered offsetToFilename tempfileInstance around.numbersTaken
  let names : Names :=
    { metatempfile := firstFree (offsetToFilename + 5 + 2) 6 around.numbersTaken metatempfile
      tempfile0 := numbered (path ++ text "/~temp000000000.dat")
      tempfile1 := numbered (path ++ text "/~temp000000001.dat")
      tempfile2 := numbered (path ++ text "/~temp000000002.dat")
      tempfile3 := numbered (path ++ text "/~temp000000003.dat") }
  let tempfilelistCount := s.tempfilelistCount + 8
  return { s with
    names
    tempfileInstance
    tempfilelistCount
    tempfilelist := updateList (path.length + 20) around.fresh names tempfilelistCount s.tempfilelist
    levels := s.levels ++ [names] }

/-- What `denit_compress` and `denit_decompress` do with the names: both read the path and
shrink the list. -/
def denit (s : State) : Option State := do
  let path ← s.path
  let tempfilelistCount := s.tempfilelistCount - 8
  return { s with
    tempfilelistCount
    tempfilelist := s.tempfilelist.take ((path.length + 20) * tempfilelistCount)
    levels := s.levels.dropLast }

/-- `delete[] temporary_path_name`, which is undefined for a string that was deleted. -/
def deletePath (s : State) : Option State :=
  match s.temporaryPathName with
  | none => some s
  | some pointer => s.path.map fun _ => { s with heap := s.heap.set pointer none }

def recursionPush (s : State) : State :=
  { s with recursionStack := ⟨s.temporaryPathName, s.names.slices⟩ :: s.recursionStack }

def recursionPop (s : State) : Option State :=
  match s.recursionStack with
  | [] => none
  | saved :: recursionStack =>
    some { s with
      recursionStack
      temporaryPathName := saved.temporaryPathName
      names := saved.slices.popInto s.names }

/-- What `recursion_compress` and `recursion_decompress` do in front of the recursive call. -/
def enter (s : State) : State := { s.recursionPush with recursionDepth := s.recursionDepth + 1 }

/-- What they do behind it: only `recursion_compress` deletes the path. -/
def leave (kind : Kind) (s : State) : Option State := do
  let s ←
    match kind with
    | .compress => s.deletePath
    | .decompress => some s
  recursionPop { s with recursionDepth := s.recursionDepth - 1 }

end State

/-- A file is worked on between its `init` and its `denit`, and only there a recursive
call is made. -/
def step (s : State) : Event → Option State
  | .init around => s.initTempFiles around
  | .denit => if s.levels = [] then none else s.denit
  | .enter => if s.levels = [] then none else some s.enter
  | .leave kind => s.leave kind

def run (s : State) (events : List Event) : Option State := events.foldlM step s

/-- In front of the first `init_temp_files`: what `-u` gave, if anything. -/
def start (option : Option TemporaryPath) : State :=
  { heap := (option.map fun given => some given.path).toList
    temporaryPathName := option.map fun _ => 0
    names := ⟨[], [], [], [], []⟩
    recursionDepth := 0
    tempfileInstance := 0
    recursionStack := []
    tempfilelist := []
    tempfilelistCount := 0
    levels := [] }

/-- The path that all names are made with. -/
def pathOf (option : Option TemporaryPath) : Bytes := option.elim (text ".") TemporaryPath.path

/-! ## The names that are made -/

/-- The five names with their digits: two for the instance, which `metatempfile` has on the
first level only, and six for the number. -/
def namesFor (path : Bytes) (instanceNumber metaInstance number : Nat) : Names :=
  let front := path ++ text "/~temp"
  let back (last : String) := numeral 10 digit 6 number ++ text last
  { metatempfile := front ++ numeral 10 digit 2 metaInstance ++ back ".dat"
    tempfile0 := front ++ numeral 10 digit 2 instanceNumber ++ back "0.dat"
    tempfile1 := front ++ numeral 10 digit 2 instanceNumber ++ back "1.dat"
    tempfile2 := front ++ numeral 10 digit 2 instanceNumber ++ back "2.dat"
    tempfile3 := front ++ numeral 10 digit 2 instanceNumber ++ back "3.dat" }

theorem firstFree_eq {position width : Nat} {front old : Bytes} (front_length : front.length = position)
    (old_length : old.length = width) (back : Bytes) (taken : Nat) :
    firstFree position width taken (front ++ old ++ back) = front ++ numeral 10 digit width taken ++ back := by
  induction taken with
  | zero => exact putNumeral_eq front_length old_length back 0
  | succ taken ih =>
    rw [firstFree, ih]
    exact putNumeral_eq front_length (length_numeral _ _) back _

section

variable (path : Bytes)

theorem length_front : (path ++ text "/~temp").length = path.length + 1 + 5 := by
  rw [List.length_append]
  rfl

theorem length_front_append {pair : Bytes} (twoDigits : pair.length = 2) :
    (path ++ text "/~temp" ++ pair).length = path.length + 1 + 5 + 2 := by
  rw [List.length_append, length_front, twoDigits]

theorem numbered_eq (literal last : Bytes)
    (parts : literal = text "/~temp" ++ text "00" ++ text "000000" ++ last) (instanceNumber number : Nat) :
    numbered (path.length + 1) instanceNumber number (path ++ literal) =
      path ++ text "/~temp" ++ numeral 10 digit 2 instanceNumber ++ (numeral 10 digit 6 number ++ last) := by
  have whole : path ++ literal = path ++ text "/~temp" ++ text "00" ++ text "000000" ++ last := by
    rw [parts]
    simp only [List.append_assoc]
  rw [numbered, whole, putNumeral_eq (length_front_append path (by rfl)) (by rfl),
    List.append_assoc _ _ last, putNumeral_eq (length_front path) (by rfl)]

theorem metatempfile_literal :
    path ++ text "/~temp00000000.dat" = path ++ text "/~temp" ++ text "00" ++ text "000000.dat" := by
  simp only [List.append_assoc]
  rfl

theorem firstFree_instance (taken : Nat) :
    firstFree (path.length + 1 + 5) 2 taken (path ++ text "/~temp00000000.dat") =
      path ++ text "/~temp" ++ numeral 10 digit 2 taken ++ text "000000.dat" := by
  rw [metatempfile_literal]
  exact firstFree_eq (length_front path) (by rfl) _ _

theorem firstFree_number {pair : Bytes} (twoDigits : pair.length = 2) (taken : Nat) :
    firstFree (path.length + 1 + 5 + 2) 6 taken (path ++ text "/~temp" ++ pair ++ text "000000.dat") =
      path ++ text "/~temp" ++ pair ++ (numeral 10 digit 6 taken ++ text ".dat") := by
  have parts : text "000000.dat" = text "000000" ++ text ".dat" := rfl
  rw [parts, ← List.append_assoc, ← List.append_assoc]
  exact firstFree_eq (length_front_append path twoDigits) (by rfl) _ _

end

/-! ## One level -/

namespace State

/-- The names that `init_temp_files` makes in the folder. -/
def namesMade (path : Bytes) (around : Surroundings) (s : State) : Names :=
  if s.recursionDepth = 0 then
    namesFor path around.instancesTaken around.instancesTaken around.numbersTaken
  else namesFor path s.tempfileInstance 0 around.numbersTaken

/-- What `init_temp_files` leaves. -/
def opened (path : Bytes) (around : Surroundings) (s : State) : State :=
  let names := s.namesMade path around
  { s with
    names
    tempfileInstance := if s.recursionDepth = 0 then around.instancesTaken else s.tempfileInstance
    tempfilelistCount := s.tempfilelistCount + 8
    tempfilelist := updateList (path.length + 20) around.fresh names (s.tempfilelistCount + 8) s.tempfilelist
    levels := s.levels ++ [names] }

theorem temporaryPathName_of_path {s : State} {path : Bytes} (reads : s.path = some path) :
    ∃ pointer, s.temporaryPathName = some pointer ∧ s.heap[pointer]? = some (some path) := by
  cases temporaryPathName : s.temporaryPathName with
  | none => simp [State.path, temporaryPathName] at reads
  | some pointer =>
    rw [State.path, temporaryPathName, Option.bind_some, Option.join_eq_some_iff] at reads
    exact ⟨pointer, rfl, reads⟩

theorem withPath_of_ne_none {s : State} (given : s.temporaryPathName ≠ none) : s.withPath = s := if_neg given

theorem withPath_of_path {s : State} {path : Bytes} (reads : s.path = some path) : s.withPath = s := by
  obtain ⟨pointer, temporaryPathName, -⟩ := temporaryPathName_of_path reads
  exact withPath_of_ne_none (by simp [temporaryPathName])

theorem path_withPath (s : State) :
    s.withPath.path = if s.temporaryPathName = none then some (text ".") else s.path := by
  rw [withPath]
  split
  · simp [allocate, path]
  · rfl

theorem path_congr {s s' : State} (pointer : s'.temporaryPathName = s.temporaryPathName)
    (heap : s'.heap = s.heap) : s'.path = s.path := by
  rw [path, path, pointer, heap]

theorem path_withPath_congr {s s' : State} (pointer : s'.temporaryPathName = s.temporaryPathName)
    (heap : s'.heap = s.heap) : s'.withPath.path = s.withPath.path := by
  rw [path_withPath, path_withPath, pointer, path_congr pointer heap]

theorem path_of_deleted {s : State} {pointer : Nat} {heap : List (Option Bytes)}
    (given : s.temporaryPathName = some pointer) (deleted : s.heap = heap.set pointer none) : s.path = none := by
  rw [path, given, Option.bind_some, deleted, List.getElem?_set, if_pos rfl]
  split <;> rfl

theorem temporaryPathName_withPath (s : State) : s.withPath.temporaryPathName ≠ none := by
  rw [withPath]
  split
  · simp [allocate]
  · assumption

@[simp] theorem levels_withPath (s : State) : s.withPath.levels = s.levels := by
  rw [withPath]
  split <;> rfl

@[simp] theorem recursionStack_withPath (s : State) : s.withPath.recursionStack = s.recursionStack := by
  rw [withPath]
  split <;> rfl

@[simp] theorem tempfilelist_withPath (s : State) : s.withPath.tempfilelist = s.tempfilelist := by
  rw [withPath]
  split <;> rfl

@[simp] theorem tempfilelistCount_withPath (s : State) :
    s.withPath.tempfilelistCount = s.tempfilelistCount := by
  rw [withPath]
  split <;> rfl

theorem initTempFiles_eq (around : Surroundings) (s : State) :
    s.initTempFiles around = s.withPath.path.map (s.withPath.opened · around) := by
  rw [initTempFiles]
  cases s.withPath.path with
  | none => rfl
  | some path =>
    have name0 := numbered_eq path (text "/~temp000000000.dat") (text "0.dat") rfl
    have name1 := numbered_eq path (text "/~temp000000001.dat") (text "1.dat") rfl
    have name2 := numbered_eq path (text "/~temp000000002.dat") (text "2.dat") rfl
    have name3 := numbered_eq path (text "/~temp000000003.dat") (text "3.dat") rfl
    simp only [Option.bind_eq_bind, Option.bind_some, Option.map_some, Option.pure_def, opened, namesMade,
      Option.some.injEq, name0, name1, name2, name3]
    split
    · rw [firstFree_instance, firstFree_number path (length_numeral 2 _)]
      rfl
    · rw [metatempfile_literal, firstFree_number path (by rfl)]
      rfl

theorem initTempFiles_of_path {s : State} {path : Bytes} (reads : s.path = some path)
    (around : Surroundings) : s.initTempFiles around = some (s.opened path around) := by
  rw [initTempFiles_eq, withPath_of_path reads, reads, Option.map_some]

end State

/-! ## What a step can do -/

/-- What `denit` leaves when it reads this path. -/
def State.shrunk (path : Bytes) (s : State) : State :=
  { s with
    tempfilelistCount := s.tempfilelistCount - 8
    tempfilelist := s.tempfilelist.take ((path.length + 20) * (s.tempfilelistCount - 8))
    levels := s.levels.dropLast }

/-- What `leave` leaves when it pops this frame and `recursion_compress` has done its part
on the heap. -/
def State.popped (heap : List (Option Bytes)) (saved : Saved) (recursionStack : List Saved) (s : State) :
    State :=
  { s with
    heap
    temporaryPathName := saved.temporaryPathName
    names := saved.slices.popInto s.names
    recursionDepth := s.recursionDepth - 1
    recursionStack }

theorem deletePath_eq_some {s s' : State} (deleted : s.deletePath = some s') :
    ∃ heap, s' = { s with heap } ∧
      (heap = s.heap ∨ ∃ pointer, s.temporaryPathName = some pointer ∧ heap = s.heap.set pointer none) := by
  rw [State.deletePath] at deleted
  split at deleted
  · cases deleted
    exact ⟨s.heap, rfl, Or.inl rfl⟩
  · rename_i pointer temporaryPathName
    obtain ⟨-, -, rfl⟩ := Option.map_eq_some_iff.mp deleted
    exact ⟨s.heap.set pointer none, rfl, Or.inr ⟨pointer, temporaryPathName, rfl⟩⟩

theorem recursionPop_eq_some {s s' : State} (ran : s.recursionPop = some s') :
    ∃ saved recursionStack, s.recursionStack = saved :: recursionStack ∧
      s' = { s with
        temporaryPathName := saved.temporaryPathName
        names := saved.slices.popInto s.names
        recursionStack } := by
  rw [State.recursionPop] at ran
  split at ran
  · cases ran
  · rename_i saved recursionStack frames
    cases ran
    exact ⟨saved, recursionStack, frames, rfl⟩

theorem leave_eq_some {kind : Kind} {s s' : State} (ran : s.leave kind = some s') :
    ∃ heap saved recursionStack, s.recursionStack = saved :: recursionStack ∧
      (heap = s.heap ∨ ∃ pointer, s.temporaryPathName = some pointer ∧ heap = s.heap.set pointer none) ∧
      s' = s.popped heap saved recursionStack := by
  cases kind with
  | compress =>
    obtain ⟨deleted, ranDelete, ranPop⟩ := Option.bind_eq_some_iff.mp ran
    obtain ⟨heap, rfl, changed⟩ := deletePath_eq_some ranDelete
    obtain ⟨saved, recursionStack, frames, rfl⟩ := recursionPop_eq_some ranPop
    exact ⟨heap, saved, recursionStack, frames, changed, rfl⟩
  | decompress =>
    obtain ⟨saved, recursionStack, frames, rfl⟩ := recursionPop_eq_some ran
    exact ⟨s.heap, saved, recursionStack, frames, Or.inl rfl, rfl⟩

/-- What each event needs and what it changes. -/
theorem step_cases {s s' : State} {event : Event} (ran : step s event = some s') :
    (∃ around path, event = .init around ∧ s.withPath.path = some path ∧
      s' = s.withPath.opened path around) ∨
    (∃ path, event = .denit ∧ s.levels ≠ [] ∧ s.path = some path ∧ s' = s.shrunk path) ∨
    (event = .enter ∧ s.levels ≠ [] ∧ s' = s.enter) ∨
    (∃ kind heap saved recursionStack, event = .leave kind ∧
      s.recursionStack = saved :: recursionStack ∧
      (heap = s.heap ∨ ∃ pointer, s.temporaryPathName = some pointer ∧ heap = s.heap.set pointer none) ∧
      s' = s.popped heap saved recursionStack) := by
  cases event with
  | init around =>
    rw [step, State.initTempFiles_eq] at ran
    obtain ⟨path, reads, rfl⟩ := Option.map_eq_some_iff.mp ran
    exact Or.inl ⟨around, path, rfl, reads, rfl⟩
  | denit =>
    rw [step] at ran
    split at ran
    · cases ran
    · rename_i isOpen
      obtain ⟨path, reads, shrunk⟩ := Option.bind_eq_some_iff.mp ran
      cases shrunk
      exact Or.inr (Or.inl ⟨path, rfl, isOpen, reads, rfl⟩)
  | enter =>
    rw [step] at ran
    split at ran
    · cases ran
    · rename_i isOpen
      cases ran
      exact Or.inr (Or.inr (Or.inl ⟨rfl, isOpen, rfl⟩))
  | leave kind =>
    obtain ⟨heap, saved, recursionStack, frames, changed, eq⟩ := leave_eq_some ran
    exact Or.inr (Or.inr (Or.inr ⟨kind, heap, saved, recursionStack, rfl, frames, changed, eq⟩))

/-- What holds at the start and is kept by every step holds in every state that is reached. -/
theorem run_induction {motive : State → Prop} {s : State} (initial : motive s)
    (kept : ∀ s s' event, motive s → step s event = some s' → motive s') {events : List Event} {s' : State}
    (ran : run s events = some s') : motive s' := by
  induction events generalizing s with
  | nil =>
    cases ran
    exact initial
  | cons event events ih =>
    rw [run, List.foldlM_cons] at ran
    obtain ⟨next, ranStep, ranRest⟩ := Option.bind_eq_some_iff.mp ran
    exact ih (kept s next event initial ranStep) ranRest

end BackupSuite.Precomp
