import BackupSuite.Precomp.TempFiles

/-! # precomp's list of temporary files

Eight slots for each open level, written by `init_temp_files` and read by the handler
of ctrl-c.  Five of them hold names, with any path (`levelHeld_of_run`); the name of the
recursion's output file does not fit into a slot (`tableExact_iff`), and the handler
looks for a name that starts with `~`, as no name with a folder does
(`removes_iff`).
-/

namespace BackupSuite.Precomp

open BackupSuite.Library BackupSuite.CtrlCenter

/-- What `ctrl_c_handler` removes, in order.  There is none where it reads the path after it
was deleted. -/
def State.ctrlCHandler (s : State) : Option (List Bytes) :=
  if 0 < s.tempfilelistCount then
    s.path.map fun path =>
      (List.range s.tempfilelistCount).filterMap fun i =>
        let entry := s.tempfilelist.drop (i * (path.length + 20))
        -- just to be safe
        if entry.head? = some 126 then some (cStr entry) else none
  else some []

/-- The files of a level: `tempfile1` with an underscore is the output of a recursive call. -/
def Names.files (names : Names) : List Bytes :=
  [names.metatempfile, names.tempfile0, names.tempfile1, names.tempfile1 ++ [95], names.tempfile2,
    names.tempfile3]

/-- The name with its NUL, in one of the eight slots of the level. -/
def HoldsName (width : Nat) (table : Bytes) (level : Nat) (name : Bytes) : Prop :=
  ∃ i, 8 * level ≤ i ∧ i < 8 * level + 8 ∧ name ++ [0] <+: slot width table i

/-- The list has exactly the files of each open level, and the handler removes them. -/
structure TableExact (s : State) : Prop where
  holds : ∀ level names, s.levels[level]? = some names → ∃ path, s.path = some path ∧
    ∀ name, HoldsName (path.length + 20) s.tempfilelist level name ↔ name ∈ names.files
  removes : ∀ names ∈ s.levels, ∃ removed, s.ctrlCHandler = some removed ∧
    ∀ name ∈ names.files, name ∈ removed

/-! ## What the slots of a level hold -/

/-- The slots of a level that are written: the fourth has what is left of `tempfile1` with
the underscore at a fixed place. -/
structure LevelHeld (width : Nat) (table : Bytes) (level : Nat) (names : Names) : Prop where
  metatempfile : names.metatempfile ++ [0] <+: slot width table (8 * level)
  tempfile0 : names.tempfile0 ++ [0] <+: slot width table (8 * level + 1)
  tempfile1 : names.tempfile1 ++ [0] <+: slot width table (8 * level + 2)
  recursionInput : names.tempfile1.take 18 ++ [95, 0] <+: slot width table (8 * level + 3)
  tempfile2 : names.tempfile2 ++ [0] <+: slot width table (8 * level + 4)
  tempfile3 : names.tempfile3 ++ [0] <+: slot width table (8 * level + 6)

/-- The names fit into a slot of this width. -/
structure Names.Fit (width : Nat) (names : Names) : Prop where
  wide : 20 ≤ width
  metatempfile : names.metatempfile.length + 2 = width
  tempfile0 : names.tempfile0.length + 1 = width
  tempfile1 : names.tempfile1.length + 1 = width
  tempfile2 : names.tempfile2.length + 1 = width
  tempfile3 : names.tempfile3.length + 1 = width

theorem fit_namesFor (path : Bytes) (instanceNumber metaInstance number : Nat) :
    (namesFor path instanceNumber metaInstance number).Fit (path.length + 20) := by
  constructor <;> simp [namesFor, text]

theorem State.exists_namesMade (path : Bytes) (around : Surroundings) (s : State) :
    ∃ instanceNumber metaInstance number,
      s.namesMade path around = namesFor path instanceNumber metaInstance number := by
  rw [State.namesMade]
  split
  · exact ⟨_, _, _, rfl⟩
  · exact ⟨_, _, _, rfl⟩

theorem State.fit_namesMade (path : Bytes) (around : Surroundings) (s : State) :
    (s.namesMade path around).Fit (path.length + 20) := by
  obtain ⟨instanceNumber, metaInstance, number, eq⟩ := s.exists_namesMade path around
  rw [eq]
  exact fit_namesFor path instanceNumber metaInstance number

/-- The writes of `init_temp_files` for one level. -/
def levelWrites (level : Nat) (names : Names) : List (SlotWrite UInt8) :=
  [⟨8 * level, 0, names.metatempfile ++ [0]⟩, ⟨8 * level + 1, 0, names.tempfile0 ++ [0]⟩,
    ⟨8 * level + 2, 0, names.tempfile1 ++ [0]⟩, ⟨8 * level + 3, 0, names.tempfile1 ++ [0]⟩,
    ⟨8 * level + 3, 18, [95]⟩, ⟨8 * level + 3, 19, [0]⟩,
    ⟨8 * level + 4, 0, names.tempfile2 ++ [0]⟩, ⟨8 * level + 6, 0, names.tempfile3 ++ [0]⟩]

theorem updateList_eq (width : Nat) (fresh : Nat → UInt8) (names : Names) (level : Nat) (table : Bytes) :
    updateList width fresh names (8 * level + 8) table =
      writeSlots 0 width (resize fresh (width * (8 * level + 8)) table) (levelWrites level names) := rfl

theorem levelWrites_fit {width : Nat} {names : Names} (fit : names.Fit width) (level : Nat) :
    ∀ write ∈ levelWrites level names, write.Fits width (width * (8 * level + 8)) := by
  obtain ⟨wide, metatempfile, tempfile0, tempfile1, tempfile2, tempfile3⟩ := fit
  have inBuffer {i : Nat} (inLevel : i + 1 ≤ 8 * level + 8) : (i + 1) * width ≤ width * (8 * level + 8) := by
    rw [Nat.mul_comm width]
    exact Nat.mul_le_mul_right width inLevel
  intro write mem
  simp only [levelWrites, List.mem_cons, List.not_mem_nil, or_false] at mem
  rcases mem with rfl | rfl | rfl | rfl | rfl | rfl | rfl | rfl <;> constructor
  -- within the slot, then within the level
  all_goals first
    | exact inBuffer (by dsimp only; omega)
    | simp only [List.length_append, List.length_singleton]; omega

/-- The buffer has been grown for them before. -/
theorem levelWrites_fit_resize {width : Nat} {names : Names} (fit : names.Fit width) (fresh : Nat → UInt8)
    (level : Nat) (table : Bytes) :
    ∀ write ∈ levelWrites level names,
      write.Fits width (resize fresh (width * (8 * level + 8)) table).length := by
  rw [length_resize]
  exact levelWrites_fit fit level

theorem prefix_writeAt_zero (content bytes : Bytes) : bytes <+: writeAt 0 content 0 bytes :=
  prefix_writeAt 0 List.nil_prefix bytes

/-- The copy of `tempfile1` is cut at the place of the underscore. -/
theorem prefix_recursionInput {tempfile1 : Bytes} (long : 19 ≤ tempfile1.length) (content : Bytes) :
    tempfile1.take 18 ++ [95, 0] <+:
      writeAt 0 (writeAt 0 (writeAt 0 content 0 (tempfile1 ++ [0])) 18 [95]) 19 [0] := by
  have front_length : (tempfile1.take 18).length = 18 := by
    rw [List.length_take]
    omega
  have copied : tempfile1 <+: writeAt 0 content 0 (tempfile1 ++ [0]) :=
    (List.prefix_append _ _).trans (prefix_writeAt_zero content (tempfile1 ++ [0]))
  have marked := prefix_writeAt 0 ((List.take_prefix 18 tempfile1).trans copied) [95]
  rw [front_length] at marked
  have ended := prefix_writeAt 0 marked [0]
  rw [List.length_append, front_length, List.append_assoc] at ended
  exact ended

theorem levelHeld_updateList {width : Nat} {names : Names} (fit : names.Fit width) (fresh : Nat → UInt8)
    (level : Nat) (table : Bytes) :
    LevelHeld width (updateList width fresh names (8 * level + 8) table) level names := by
  rw [updateList_eq]
  -- of the writes, those to the slot in question are left
  constructor <;> rw [slot_writeSlots 0 (levelWrites_fit_resize fit fresh level table)]
  · simp [levelWrites, prefix_writeAt_zero]
  · simp [levelWrites, prefix_writeAt_zero]
  · simp [levelWrites, prefix_writeAt_zero]
  · have long : 19 ≤ names.tempfile1.length := by
      have := fit.wide
      have := fit.tempfile1
      omega
    simpa [levelWrites] using prefix_recursionInput long _
  · simp [levelWrites, prefix_writeAt_zero]
  · simp [levelWrites, prefix_writeAt_zero]

theorem le_slot_of_mem (level : Nat) (names : Names) : ∀ write ∈ levelWrites level names, 8 * level ≤ write.slot := by
  simp [levelWrites]

/-- The slots of the levels below stay. -/
theorem slot_updateList_of_lt {width : Nat} {names : Names} (fit : names.Fit width) (fresh : Nat → UInt8)
    {level : Nat} {table : Bytes} (length : table.length = width * (8 * level)) {i : Nat} (below : i < 8 * level) :
    slot width (updateList width fresh names (8 * level + 8) table) i = slot width table i := by
  have others : (levelWrites level names).filter (·.slot = i) = [] := by
    rw [List.filter_eq_nil_iff]
    intro write mem
    have above := le_slot_of_mem level names write mem
    rw [decide_eq_true_eq]
    omega
  have kept : (i + 1) * width ≤ width * (8 * level) := by
    rw [Nat.mul_comm width]
    exact Nat.mul_le_mul_right width below
  rw [updateList_eq, slot_writeSlots 0 (levelWrites_fit_resize fit fresh level table), others,
    List.foldl_nil, slot_resize]
  · exact kept.trans (Nat.mul_le_mul_left width (by omega))
  · rw [length]
    exact kept

theorem length_updateList {width : Nat} {names : Names} (fit : names.Fit width) (fresh : Nat → UInt8)
    (level : Nat) (table : Bytes) :
    (updateList width fresh names (8 * level + 8) table).length = width * (8 * level + 8) := by
  rw [updateList_eq, length_writeSlots 0 (levelWrites_fit_resize fit fresh level table), length_resize]

theorem LevelHeld.of_slots {width : Nat} {table table' : Bytes} {level : Nat} {names : Names}
    (held : LevelHeld width table level names)
    (same : ∀ i < 8 * level + 8, slot width table' i = slot width table i) :
    LevelHeld width table' level names := by
  obtain ⟨metatempfile, tempfile0, tempfile1, recursionInput, tempfile2, tempfile3⟩ := held
  constructor <;> rw [same _ (by omega)] <;> assumption

/-! ## Over a run -/

/-- What every state of a run has, where `path` is what the names are made with. -/
structure ListInv (path : Bytes) (s : State) : Prop where
  reads : ∀ read, s.withPath.path = some read → read = path
  saved : ∀ saved ∈ s.recursionStack, saved.temporaryPathName = s.temporaryPathName
  unopened : s.temporaryPathName = none → s.levels = [] ∧ s.recursionStack = []
  count : s.tempfilelistCount = 8 * s.levels.length
  length : s.tempfilelist.length = (path.length + 20) * (8 * s.levels.length)
  made : ∀ names ∈ s.levels, ∃ instanceNumber metaInstance number,
    names = namesFor path instanceNumber metaInstance number
  held : ∀ level names, s.levels[level]? = some names →
    LevelHeld (path.length + 20) s.tempfilelist level names

theorem listInv_start (option : Option TemporaryPath) : ListInv (pathOf option) (start option) where
  reads read reads := by
    cases option with
    | none => exact (Option.some.inj reads).symm
    | some given => exact (Option.some.inj reads).symm
  saved := by simp [start]
  unopened _ := ⟨rfl, rfl⟩
  count := rfl
  length := rfl
  made := by simp [start]
  held := by simp [start]

namespace ListInv

variable {path : Bytes} {s : State} (inv : ListInv path s)

include inv

theorem path_eq {read : Bytes} (reads : s.path = some read) : read = path := by
  apply inv.reads
  rw [State.withPath_of_path reads]
  exact reads

/-- A level more leaves the slots of the others and fills its own. -/
theorem held_concat {names : Names} (fit : names.Fit (path.length + 20)) (fresh : Nat → UInt8) {level : Nat}
    {names' : Names} (here : (s.levels ++ [names])[level]? = some names') :
    LevelHeld (path.length + 20)
      (updateList (path.length + 20) fresh names (8 * s.levels.length + 8) s.tempfilelist) level names' := by
  rcases Nat.lt_trichotomy level s.levels.length with below | rfl | above
  · rw [List.getElem?_append_left below] at here
    apply (inv.held level names' here).of_slots
    intro i inLevel
    exact slot_updateList_of_lt fit fresh inv.length (by omega)
  · rw [List.getElem?_concat_length, Option.some.injEq] at here
    rw [← here]
    exact levelHeld_updateList fit fresh s.levels.length s.tempfilelist
  · rw [List.getElem?_eq_none (by simp; omega)] at here
    cases here

theorem of_opened (reads : s.withPath.path = some path) (around : Surroundings) :
    ListInv path (s.withPath.opened path around) := by
  have pointer := State.temporaryPathName_withPath s
  have fit := s.withPath.fit_namesMade path around
  have levels : (s.withPath.opened path around).levels = s.levels ++ [s.withPath.namesMade path around] := by
    rw [State.opened, State.levels_withPath]
  have list : (s.withPath.opened path around).tempfilelist =
      updateList (path.length + 20) around.fresh (s.withPath.namesMade path around) (8 * s.levels.length + 8)
        s.tempfilelist := by
    rw [State.opened, State.tempfilelist_withPath, State.tempfilelistCount_withPath, inv.count]
  constructor
  · intro read reads'
    have given : (s.withPath.opened path around).withPath = s.withPath.opened path around :=
      State.withPath_of_ne_none pointer
    rw [given] at reads'
    exact Option.some.inj (reads'.symm.trans reads)
  · intro saved mem
    rw [State.opened, State.recursionStack_withPath] at mem
    by_cases given : s.temporaryPathName = none
    · rw [(inv.unopened given).2] at mem
      cases mem
    · rw [State.opened, State.withPath_of_ne_none given]
      exact inv.saved saved mem
  · intro none
    exact absurd none pointer
  · rw [levels, List.length_append, List.length_singleton, Nat.mul_add, State.opened,
      State.tempfilelistCount_withPath, inv.count]
  · rw [levels, list, length_updateList fit, List.length_append, List.length_singleton, Nat.mul_add 8]
  · intro names mem
    rw [levels, List.mem_append, List.mem_singleton] at mem
    rcases mem with mem | rfl
    · exact inv.made names mem
    · exact s.withPath.exists_namesMade path around
  · intro level names here
    rw [levels] at here
    rw [list]
    exact inv.held_concat fit around.fresh here

theorem of_shrunk (isOpen : s.levels ≠ []) : ListInv path (s.shrunk path) := by
  have count : s.tempfilelistCount - 8 = 8 * s.levels.dropLast.length := by
    rw [inv.count, List.length_dropLast, Nat.mul_sub]
  have samePath : (s.shrunk path).withPath.path = s.withPath.path := State.path_withPath_congr rfl rfl
  refine ⟨?_, inv.saved, ?_, count, ?_, ?_, ?_⟩
  · rw [samePath]
    exact inv.reads
  · intro none
    exact absurd (inv.unopened none).1 isOpen
  · have shorter : (path.length + 20) * (s.tempfilelistCount - 8) ≤ s.tempfilelist.length := by
      rw [inv.length, inv.count]
      exact Nat.mul_le_mul_left _ (Nat.sub_le _ _)
    show (s.tempfilelist.take ((path.length + 20) * (s.tempfilelistCount - 8))).length =
      (path.length + 20) * (8 * s.levels.dropLast.length)
    rw [List.length_take, Nat.min_eq_left shorter, count]
  · intro names mem
    exact inv.made names (s.levels.dropLast_subset mem)
  · intro level names here
    change s.levels.dropLast[level]? = some names at here
    have inFront : level < s.levels.dropLast.length := (List.getElem?_eq_some_iff.mp here).1
    have there : s.levels[level]? = some names := by
      rw [List.length_dropLast] at inFront
      rwa [List.getElem?_dropLast, if_pos inFront] at here
    apply (inv.held level names there).of_slots
    intro i inLevel
    refine slot_take ?_ s.tempfilelist
    rw [count, Nat.mul_comm (path.length + 20)]
    exact Nat.mul_le_mul_right _ (by omega)

theorem of_enter (isOpen : s.levels ≠ []) : ListInv path s.enter := by
  have samePath : s.enter.withPath.path = s.withPath.path := State.path_withPath_congr rfl rfl
  refine ⟨?_, ?_, ?_, inv.count, inv.length, inv.made, inv.held⟩
  · rw [samePath]
    exact inv.reads
  · intro saved mem
    rcases List.mem_cons.mp mem with rfl | mem
    · rfl
    · exact inv.saved saved mem
  · intro none
    exact absurd (inv.unopened none).1 isOpen

theorem of_popped {heap : List (Option Bytes)} {saved : Saved} {recursionStack : List Saved}
    (frames : s.recursionStack = saved :: recursionStack)
    (changed : heap = s.heap ∨ ∃ pointer, s.temporaryPathName = some pointer ∧ heap = s.heap.set pointer none) :
    ListInv path (s.popped heap saved recursionStack) := by
  have pointer : saved.temporaryPathName = s.temporaryPathName := by
    apply inv.saved
    rw [frames]
    exact List.mem_cons_self
  refine ⟨?_, ?_, ?_, inv.count, inv.length, inv.made, inv.held⟩
  · intro read reads
    rcases changed with same | ⟨name, given, deleted⟩
    · exact inv.reads read ((State.path_withPath_congr pointer same).symm.trans reads)
    · have given' : (s.popped heap saved recursionStack).temporaryPathName = some name := pointer.trans given
      rw [State.path_withPath, if_neg (by simp [given']), State.path_of_deleted given' deleted] at reads
      cases reads
  · intro other mem
    rw [State.popped, pointer]
    apply inv.saved
    rw [frames]
    exact List.mem_cons_of_mem _ mem
  · intro none
    rw [State.popped, pointer] at none
    rw [(inv.unopened none).2] at frames
    cases frames

end ListInv

theorem listInv_run {option : Option TemporaryPath} {events : List Event} {s : State}
    (ran : run (start option) events = some s) : ListInv (pathOf option) s := by
  refine run_induction (listInv_start option) ?_ ran
  intro s s' event inv ranStep
  rcases step_cases ranStep with ⟨around, path, -, reads, rfl⟩ | ⟨path, -, isOpen, reads, rfl⟩ |
    ⟨-, isOpen, rfl⟩ | ⟨kind, heap, saved, recursionStack, -, frames, changed, rfl⟩
  · cases inv.reads path reads
    exact inv.of_opened reads around
  · rw [inv.path_eq reads]
    exact inv.of_shrunk isOpen
  · exact inv.of_enter isOpen
  · exact inv.of_popped frames changed

/-- Whatever the path, five names and what is left of the sixth are where they belong. -/
theorem levelHeld_of_run {option : Option TemporaryPath} {events : List Event} {s : State}
    (ran : run (start option) events = some s) {level : Nat} {names : Names}
    (isOpen : s.levels[level]? = some names) :
    LevelHeld ((pathOf option).length + 20) s.tempfilelist level names :=
  (listInv_run ran).held level names isOpen

/-! ## What is missing from the list -/

/-- The name of the recursion's output file is one byte too long for a slot. -/
theorem not_holdsName_output {path : Bytes} {names : Names} (fit : names.Fit (path.length + 20)) (table : Bytes)
    (level : Nat) : ¬ HoldsName (path.length + 20) table level (names.tempfile1 ++ [95]) := by
  rintro ⟨i, -, -, holds⟩
  have long := holds.length_le
  have width : (slot (path.length + 20) table i).length ≤ path.length + 20 := List.length_take_le _ _
  have length := fit.tempfile1
  simp only [List.length_append, List.length_singleton] at long
  omega

theorem fit_of_run {option : Option TemporaryPath} {events : List Event} {s : State}
    (ran : run (start option) events = some s) {names : Names} (mem : names ∈ s.levels) :
    names.Fit ((pathOf option).length + 20) := by
  obtain ⟨instanceNumber, metaInstance, number, rfl⟩ := (listInv_run ran).made names mem
  exact fit_namesFor _ _ _ _

theorem not_tableExact {option : Option TemporaryPath} {events : List Event} {s : State}
    (ran : run (start option) events = some s) (isOpen : s.levels ≠ []) : ¬ TableExact s := by
  intro isExact
  obtain ⟨names, others, levels⟩ := List.exists_cons_of_ne_nil isOpen
  have first : s.levels[0]? = some names := by simp [levels]
  have mem : names ∈ s.levels := by simp [levels]
  obtain ⟨path, reads, holds⟩ := isExact.holds 0 names first
  rw [(listInv_run ran).path_eq reads] at holds
  exact not_holdsName_output (fit_of_run ran mem) s.tempfilelist 0 ((holds _).mpr (by simp [Names.files]))

/-- The list is exact only while no level is open. -/
theorem tableExact_iff (option : Option TemporaryPath) (events : List Event) {s : State}
    (ran : run (start option) events = some s) : TableExact s ↔ s.levels = [] := by
  constructor
  · intro isExact
    by_contra isOpen
    exact not_tableExact ran isOpen isExact
  · intro closed
    constructor
    · intro level names isOpen
      rw [closed] at isOpen
      cases isOpen
    · intro names mem
      rw [closed] at mem
      cases mem

/-- The theorem for a level that is opened without `-u`. -/
theorem tableExact_opened :
    ∃ s, run (start none) [.init ⟨0, 0, fun _ => 0⟩] = some s ∧ (TableExact s ↔ s.levels = []) :=
  ⟨_, rfl, tableExact_iff none [.init ⟨0, 0, fun _ => 0⟩] rfl⟩

/-- `-u/tmp/x`, and the first file has been opened. -/
theorem list_not_exact :
    let given : TemporaryPath := ⟨text "/tmp/x", by decide, by decide⟩
    ∃ s, run (start (some given)) [.init ⟨0, 0, fun _ => 0⟩] = some s ∧ ¬ TableExact s := by
  intro given
  have reads : (start (some given)).path = some (text "/tmp/x") := rfl
  have ran : run (start (some given)) [.init ⟨0, 0, fun _ => 0⟩] =
      some ((start (some given)).opened (text "/tmp/x") ⟨0, 0, fun _ => 0⟩) := by
    rw [run, List.foldlM_cons, step, State.initTempFiles_of_path reads]
    rfl
  exact ⟨_, ran, not_tableExact ran (by simp [State.opened])⟩

/-! ## What the handler removes -/

/-- The names that do have a slot. -/
def Names.listed (names : Names) : List Bytes :=
  [names.metatempfile, names.tempfile0, names.tempfile1, names.tempfile2, names.tempfile3]

theorem holdsName_of_listed {width : Nat} {table : Bytes} {level : Nat} {names : Names}
    (held : LevelHeld width table level names) {name : Bytes} (listed : name ∈ names.listed) :
    HoldsName width table level name := by
  obtain ⟨metatempfile, tempfile0, tempfile1, -, tempfile2, tempfile3⟩ := held
  simp only [Names.listed, List.mem_cons, List.not_mem_nil, or_false] at listed
  rcases listed with rfl | rfl | rfl | rfl | rfl
  · exact ⟨8 * level, by omega, by omega, metatempfile⟩
  · exact ⟨8 * level + 1, by omega, by omega, tempfile0⟩
  · exact ⟨8 * level + 2, by omega, by omega, tempfile1⟩
  · exact ⟨8 * level + 4, by omega, by omega, tempfile2⟩
  · exact ⟨8 * level + 6, by omega, by omega, tempfile3⟩

theorem noNul_numeral (width n : Nat) : 0 ∉ numeral 10 digit width n := by
  intro mem
  obtain ⟨k, small, isNul⟩ := mem_numeral (by decide) mem
  have isDigit : ∀ k < 10, 0 ≠ digit k := by decide
  exact isDigit k small isNul

/-- The names start with the path, and as C strings they are whole. -/
theorem listed_namesFor {path : Bytes} (noNul : 0 ∉ path) {instanceNumber metaInstance number : Nat} {name : Bytes}
    (listed : name ∈ (namesFor path instanceNumber metaInstance number).listed) : path <+: name ∧ 0 ∉ name := by
  have literals : 0 ∉ text "/~temp" ∧ 0 ∉ text ".dat" ∧ 0 ∉ text "0.dat" ∧ 0 ∉ text "1.dat" ∧
      0 ∉ text "2.dat" ∧ 0 ∉ text "3.dat" := by decide
  simp only [Names.listed, List.mem_cons, List.not_mem_nil, or_false] at listed
  rcases listed with rfl | rfl | rfl | rfl | rfl <;>
    simp [namesFor, noNul, noNul_numeral, literals]

theorem pathOf_noNul (option : Option TemporaryPath) : 0 ∉ pathOf option := by
  cases option with
  | none => decide
  | some given => exact given.noNul

theorem pathOf_ne_nil (option : Option TemporaryPath) : pathOf option ≠ [] := by
  cases option with
  | none => decide
  | some given => exact given.nonempty

/-- The handler removes the listed names of the open levels only where the folder itself
starts with a tilde. -/
theorem removes_iff {option : Option TemporaryPath} {events : List Event} {s : State}
    (ran : run (start option) events = some s) {names : Names} (mem : names ∈ s.levels) {removed : List Bytes}
    (handled : s.ctrlCHandler = some removed) {name : Bytes} (listed : name ∈ names.listed) :
    name ∈ removed ↔ (pathOf option).head? = some 126 := by
  have inv := listInv_run ran
  obtain ⟨level, inLevels⟩ := List.mem_iff_getElem?.mp mem
  have below : level < s.levels.length := (List.getElem?_eq_some_iff.mp inLevels).1
  have counted : 0 < s.tempfilelistCount := by
    rw [inv.count]
    omega
  rw [State.ctrlCHandler, if_pos counted, Option.map_eq_some_iff] at handled
  obtain ⟨path, reads, rfl⟩ := handled
  cases inv.path_eq reads
  obtain ⟨instanceNumber, metaInstance, number, rfl⟩ := inv.made names mem
  obtain ⟨front, noNul⟩ := listed_namesFor (pathOf_noNul option) listed
  have head : name.head? = (pathOf option).head? := by
    obtain ⟨rest, rfl⟩ := front
    exact List.head?_append_of_ne_nil _ (pathOf_ne_nil option)
  rw [← head, List.mem_filterMap]
  constructor
  · rintro ⟨i, -, removedHere⟩
    obtain ⟨tilde, content⟩ := Option.ite_none_right_eq_some.mp removedHere
    obtain ⟨rest, entry⟩ := List.head?_eq_some_iff.mp tilde
    rw [entry, Option.some.injEq] at content
    rw [← content]
    rfl
  · intro tilde
    obtain ⟨i, -, inside, holds⟩ := holdsName_of_listed (inv.held level _ inLevels) listed
    obtain ⟨rest, entry⟩ := holds.trans (List.take_prefix _ _)
    refine ⟨i, List.mem_range.mpr (by rw [inv.count]; omega), ?_⟩
    have nonempty : name ≠ [] := by
      intro nil
      rw [nil] at tilde
      cases tilde
    have head : (name ++ [0] ++ rest).head? = some 126 := by
      rw [List.append_assoc, List.head?_append_of_ne_nil _ nonempty, tilde]
    rw [← entry, if_pos head, List.append_assoc, cStr_append noNul]
    simp [cStr]

end BackupSuite.Precomp
