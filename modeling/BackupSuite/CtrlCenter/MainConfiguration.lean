import BackupSuite.CtrlCenter.Paths

/-! # The configuration that `main` sets up

Every folder goes through `normalizeDirPath`, which looks at the last character of what
trimming left, and there need not be one.  `configuration_iff` says for which arguments
and environments the folders come out as the rest of the program needs them.
-/

namespace BackupSuite.CtrlCenter

open BackupSuite.Library

/-- What `arg_parse` stores, for `-i` and for the options that may be left out. -/
structure Arguments where
  input : Bytes
  output : Option Bytes
  tools : Option Bytes
  database : Option Bytes
  unittestpath : Option Bytes
  dryrun : Bool

/-- `gConfiguration` without the database itself. -/
structure GlobalConfiguration extends Configuration where
  inputFolder : Bytes
  databaseFilename : Bytes

/-- `filename[0]`: the table holds the empty string for an option that was not given. -/
def filename (option : Option Bytes) : Bytes := option.getD []

/-- `normalizeDirPath` with `none` where it is undefined: `retStr.back()` on the empty string. -/
def normalizeDirPath? (input : Bytes) : Option Bytes := do
  let retStr := normalizeFilePath input
  let back ← retStr.getLast?
  return if back ≠ 47 then retStr ++ [47] else retStr

/-- An option that has a default, which is taken as it is. -/
def optionalDirPath (default : Bytes) : Option Bytes → Option Bytes
  | none => some default
  | some argument => normalizeDirPath? argument

def getEnvVar (getenv : Bytes → Option Bytes) (key : Bytes) : Bytes := (getenv key).getD []

def getTemporaryFolder (getenv : Bytes → Option Bytes) : Bytes :=
  let tmpdir := getEnvVar getenv (text "TMPDIR")
  let tmp := getEnvVar getenv (text "TMP")
  let temp := getEnvVar getenv (text "TEMP")
  let tempdir := getEnvVar getenv (text "TEMPDIR")
  if tmpdir.length ≠ 0 then tmpdir
  else if tmp.length ≠ 0 then tmp
  else if temp.length ≠ 0 then temp
  else if tempdir.length ≠ 0 then tempdir
  else text "/tmp"

/-- What `main` does between the parsed arguments and the modes. -/
def mainConfiguration (getenv : Bytes → Option Bytes) (args : Arguments) :
    Option GlobalConfiguration := do
  let inputFolder ← normalizeDirPath? args.input
  let outputFolder ← normalizeDirPath? (filename args.output)
  let toolsFolder ← optionalDirPath (text "bin_lnx64_release") args.tools
  let databaseFilename :=
    match args.database with
    | none => text "database.txt"
    | some database => normalizeFilePath database
  let unittestPath ← optionalDirPath [] args.unittestpath
  let temporaryFolder ← normalizeDirPath? (getTemporaryFolder getenv)
  return { inputFolder, outputFolder, toolsFolder, databaseFilename, unittestPath, temporaryFolder,
           dryRunFlag := args.dryrun }

/-! ## What the rest of the program needs -/

structure WellFormedFolder (folder : Bytes) : Prop where
  slash : folder.getLast? = some 47
  noBackslash : 92 ∉ folder
  fixed : normalizeDirPath? folder = some folder

structure WellFormedFolders (conf : GlobalConfiguration) : Prop where
  input : WellFormedFolder conf.inputFolder
  output : WellFormedFolder conf.outputFolder
  tools : WellFormedFolder conf.toolsFolder
  temporary : WellFormedFolder conf.temporaryFolder

/-- `main` gets through its configuration and every folder is in its normal form. -/
def ConfigurationWellFormed (getenv : Bytes → Option Bytes) (args : Arguments) : Prop :=
  ∃ conf, mainConfiguration getenv args = some conf ∧ WellFormedFolders conf

/-- Nothing is left of it by trimming. -/
def Blank (s : Bytes) : Prop := ∀ c ∈ s, ws c = true

/-! ## One folder -/

theorem blank_replaceAll (s : Bytes) : Blank (replaceAll s 92 47) ↔ Blank s := by
  have kept (c : UInt8) : ws (if c = 92 then 47 else c) = ws c := by
    split
    · rename_i backslash
      rw [backslash]
      rfl
    · rfl
  simp only [Blank, replaceAll, List.forall_mem_map, kept]

theorem normalizeFilePath_eq_nil {s : Bytes} : normalizeFilePath s = [] ↔ Blank s := by
  rw [← blank_replaceAll, normalizeFilePath, trim, ltrim, rtrim, List.dropWhile_eq_nil_iff]
  constructor
  · intro left c mem
    -- a first character that is not blank would end what is trimmed from the right
    obtain ⟨dropped, split, blank⟩ := exists_rdropWhile ws (replaceAll s 92 47)
    rw [split, List.mem_append] at mem
    exact mem.elim (left c) (blank c)
  · intro blank c mem
    exact blank c ((List.rdropWhile_prefix _ _).subset mem)

theorem normalizeDirPath?_eq_some {input folder : Bytes} :
    normalizeDirPath? input = some folder ↔ ¬ Blank input ∧ folder = normalizeDirPath input := by
  rw [← normalizeFilePath_eq_nil, normalizeDirPath?, normalizeDirPath]
  cases back : (normalizeFilePath input).getLast? with
  | none => simp [List.getLast?_eq_none_iff.mp back]
  | some c =>
    have nonempty : normalizeFilePath input ≠ [] := by
      intro nil
      rw [nil] at back
      cases back
    by_cases slash : c = 47
    · simp [nonempty, slash, eq_comm]
    · simp [nonempty, slash, eq_comm]

/-- A path that is in normal form goes through unchanged. -/
theorem normalizeDirPath_of_normal {folder : Bytes} (slash : folder.getLast? = some 47)
    (noBackslash : 92 ∉ folder) (starts : Stops ws folder) :
    normalizeDirPath folder = folder := by
  have replaced : replaceAll folder 92 47 = folder := by
    rw [replaceAll]
    nth_rewrite 2 [← List.map_id folder]
    apply List.map_congr_left
    intro c mem
    have ne : c ≠ 92 := fun backslash => noBackslash (backslash ▸ mem)
    rw [if_neg ne, id]
  have right : rtrim folder = folder := by
    apply List.rdropWhile_eq_self_iff.mpr
    intro nonempty
    rw [List.getLast?_eq_getLast_of_ne_nil nonempty, Option.some.injEq] at slash
    rw [slash]
    decide
  have left : ltrim folder = folder := by
    cases folder with
    | nil => rfl
    | cons c folder =>
      rw [stops_cons] at starts
      rw [ltrim, List.dropWhile_cons_of_neg (by rw [starts]; decide)]
  rw [normalizeDirPath, normalizeFilePath, replaced, trim, right, left]
  exact if_neg (not_not.mpr slash)

theorem wellFormedFolder_normalizeDirPath (input : Bytes) : WellFormedFolder (normalizeDirPath input) := by
  have slash := getLast_normalizeDirPath input
  have noBackslash := no_backslash_normalizeDirPath input
  refine ⟨slash, noBackslash, normalizeDirPath?_eq_some.mpr ⟨?_, ?_⟩⟩
  · intro blank
    have isBlank := blank 47 (List.mem_of_getLast? slash)
    cases isBlank
  · exact (normalizeDirPath_of_normal slash noBackslash (stops_normalizeDirPath input)).symm

/-! ## The configuration -/

/-- The default of the tools folder does not go through `normalizeDirPath`. -/
theorem not_wellFormedFolder_default : ¬ WellFormedFolder (text "bin_lnx64_release") := by
  intro wellFormed
  have slash := wellFormed.slash
  revert slash
  decide

/-- What the arguments and the environment have to be: no folder is left empty by trimming,
and none but the unittest path is left out. -/
structure UsableArguments (getenv : Bytes → Option Bytes) (args : Arguments) : Prop where
  input : ¬ Blank args.input
  output : ∃ output ∈ args.output, ¬ Blank output
  tools : ∃ tools ∈ args.tools, ¬ Blank tools
  unittestpath : ∀ unittestpath ∈ args.unittestpath, ¬ Blank unittestpath
  temporary : ¬ Blank (getTemporaryFolder getenv)

theorem not_blank_filename {option : Option Bytes} :
    ¬ Blank (filename option) ↔ ∃ value ∈ option, ¬ Blank value := by
  cases option with
  | none => simp [filename, Blank]
  | some value => simp [filename]

theorem mainConfiguration_eq_some {getenv : Bytes → Option Bytes} {args : Arguments}
    {conf : GlobalConfiguration} (ran : mainConfiguration getenv args = some conf) :
    normalizeDirPath? args.input = some conf.inputFolder ∧
      normalizeDirPath? (filename args.output) = some conf.outputFolder ∧
      optionalDirPath (text "bin_lnx64_release") args.tools = some conf.toolsFolder ∧
      optionalDirPath [] args.unittestpath = some conf.unittestPath ∧
      normalizeDirPath? (getTemporaryFolder getenv) = some conf.temporaryFolder := by
  simp only [mainConfiguration, Option.bind_eq_bind, Option.bind_eq_some_iff, Option.pure_def] at ran
  obtain ⟨input, inputEq, output, outputEq, tools, toolsEq, unittest, unittestEq, temporary,
    temporaryEq, conf⟩ := ran
  cases conf
  exact ⟨inputEq, outputEq, toolsEq, unittestEq, temporaryEq⟩

/-- The folders are well-formed exactly for usable arguments. -/
theorem configuration_iff (getenv : Bytes → Option Bytes) (args : Arguments) :
    ConfigurationWellFormed getenv args ↔ UsableArguments getenv args := by
  constructor
  · rintro ⟨conf, ran, folders⟩
    obtain ⟨input, output, tools, unittest, temporary⟩ := mainConfiguration_eq_some ran
    constructor
    · exact (normalizeDirPath?_eq_some.mp input).1
    · exact not_blank_filename.mp (normalizeDirPath?_eq_some.mp output).1
    · cases given : args.tools with
      | none =>
        rw [given, optionalDirPath, Option.some.injEq] at tools
        exact absurd (tools ▸ folders.tools) not_wellFormedFolder_default
      | some argument =>
        rw [given] at tools
        exact ⟨argument, rfl, (normalizeDirPath?_eq_some.mp tools).1⟩
    · intro argument given
      rw [Option.mem_def.mp given] at unittest
      exact (normalizeDirPath?_eq_some.mp unittest).1
    · exact (normalizeDirPath?_eq_some.mp temporary).1
  · intro usable
    have normalized {argument : Bytes} (notBlank : ¬ Blank argument) :
        normalizeDirPath? argument = some (normalizeDirPath argument) :=
      normalizeDirPath?_eq_some.mpr ⟨notBlank, rfl⟩
    obtain ⟨tools, toolsGiven, toolsNotBlank⟩ := usable.tools
    have toolsEq : optionalDirPath (text "bin_lnx64_release") args.tools = some (normalizeDirPath tools) := by
      rw [Option.mem_def.mp toolsGiven, optionalDirPath, normalized toolsNotBlank]
    obtain ⟨unittest, unittestEq⟩ : ∃ unittest, optionalDirPath [] args.unittestpath = some unittest := by
      cases given : args.unittestpath with
      | none => exact ⟨[], rfl⟩
      | some argument => exact ⟨_, normalized (usable.unittestpath argument given)⟩
    have ran := mainConfiguration.eq_1 getenv args
    simp only [normalized usable.input, normalized (not_blank_filename.mpr usable.output), toolsEq,
      unittestEq, normalized usable.temporary, Option.bind_eq_bind, Option.bind_some, Option.pure_def] at ran
    exact ⟨_, ran, wellFormedFolder_normalizeDirPath _, wellFormedFolder_normalizeDirPath _,
      wellFormedFolder_normalizeDirPath _, wellFormedFolder_normalizeDirPath _⟩

/-- `-i in` alone: the output folder is normalised from the empty string. -/
theorem configuration_not_wellFormed :
    ¬ ConfigurationWellFormed (fun _ => none) ⟨text "in", none, none, none, none, false⟩ := by
  rintro ⟨conf, ran, -⟩
  exact nomatch ran

end BackupSuite.CtrlCenter
