import BackupSuite.CtrlCenter.FileHashes
import BackupSuite.CtrlCenter.OutputNames
import BackupSuite.CtrlCenter.Paths

/-! # The folders below the output folder

`createOrUpdateArchive` makes the folders of the changed files before it starts the
compress jobs.  The folder is cut off the normalised path, where a backslash counts as a
slash, and the job's output name is made from the path as it is.  What the loop makes is
all folders on the way to the outputs that the paths would have with slashes in them
(`has_createFolders`), whatever the one-element cache skips.
-/

namespace BackupSuite.CtrlCenter

open BackupSuite.Library

/-! ## `smartCreate` -/

inductive MkdirResult where
  | made
  /-- `EEXIST` -/
  | exists
  | failed
deriving DecidableEq, Repr

section

variable {σ : Type} (mkdir : Bytes → σ → MkdirResult × σ) (dirExists : Bytes → σ → Bool)

def createSingleDir (dir : Bytes) (s : σ) : Bool × σ :=
  let dir := if dir.getLast? = some 47 then dir.dropLast else dir
  let res := mkdir dir s
  (res.1 ≠ .failed, res.2)

/-- The loop: `before` is what lies in front of the cursor or has no slash in it yet, and
`found` says that the cursor has moved.  The positions are `int`s in the code: the
strings are made of an argument and a scanned path and are shorter than 2^31. -/
def smartCreateFrom (directory : Bytes) : Bytes → Bytes → Bool → σ → Bool × σ
  | _, [], found, s =>
    -- without any separator it is a single folder
    if found = false ∧ dirExists directory s = false then createSingleDir mkdir directory s
    else (true, s)
  | before, c :: rest, found, s =>
    if c = 47 then
      smartCreateFrom directory (before ++ [c]) rest true
        (if before = [] then s else (createSingleDir mkdir before s).2)
    else smartCreateFrom directory (before ++ [c]) rest found s

def smartCreate (directory : Bytes) (s : σ) : Bool × σ :=
  smartCreateFrom mkdir dirExists directory [] directory false s

end

/-! ## The folders that exist -/

/-- The root is always there. -/
def Has (folders : List FolderPath) (folder : FolderPath) : Prop := folder = [] ∨ folder ∈ folders

instance (folders : List FolderPath) (folder : FolderPath) : Decidable (Has folders folder) :=
  inferInstanceAs (Decidable (_ ∨ _))

/-- `mkdir` where a missing folder whose parent exists can always be made.  Slashes at
the end of the path count for nothing. -/
def mkdirIn (cwd : FolderPath) (path : Bytes) (folders : List FolderPath) : MkdirResult × List FolderPath :=
  let bare := path.rdropWhile (· == 47)
  let folder := walk 47 46 true (startOf cwd path) [] bare
  let passed : List FolderPath := way 47 46 true (startOf cwd path) [] bare
  if path = [] then (.failed, folders)
  else if ∀ parent ∈ passed, Has folders parent then
    if Has folders folder then (.exists, folders) else (.made, folder :: folders)
  else (.failed, folders)

def dirExistsIn (cwd : FolderPath) (path : Bytes) (folders : List FolderPath) : Bool :=
  decide ((∀ passed ∈ wayTo cwd path, Has folders passed) ∧ Has folders (folderOf cwd path))

/-! ## The loop of `createOrUpdateArchive` -/

section

variable (conf : Configuration) (cwd : FolderPath)

/-- The folder that is made for a path. -/
def extractedFolder (path : Bytes) : Bytes :=
  conf.outputFolder ++ withoutUnittestPath conf.unittestPath (extractFolderFromFilePath path)

/-- The loop over the entries and what they were classified as. -/
def createFolders : List (FileEntry × CompareResult) → Bytes → List FolderPath → List FolderPath
  | [], _, folders => folders
  | (entry, result) :: rest, cachedDir, folders =>
    if result ≠ .eSame then
      let folder := extractFolderFromFilePath entry.mPath
      if cachedDir ≠ folder then
        createFolders rest folder
          (if conf.dryRunFlag then folders
          else (smartCreate (mkdirIn cwd) (dirExistsIn cwd) (extractedFolder conf entry.mPath) folders).2)
      else createFolders rest cachedDir folders
    else createFolders rest cachedDir folders

/-- The parent of every file that a compress job can write exists. -/
def ParentsExist (entries : List (FileEntry × CompareResult)) (folders : List FolderPath) : Prop :=
  conf.dryRunFlag = false → ∀ e ∈ entries, e.2 ≠ .eSame → ∀ outcome : JobOutcome,
    ∀ folder ∈ wayTo cwd (jobOutput conf e.1.mPath outcome), Has folders folder

end

/-! ## What is made -/

variable {conf : Configuration} {cwd : FolderPath}

theorem has_cons {folders : List FolderPath} {made folder : FolderPath} :
    Has (made :: folders) folder ↔ Has folders folder ∨ folder = made := by
  rw [Has, Has, List.mem_cons, or_assoc]
  exact or_congr_right or_comm

theorem has_mkdirIn {path : Bytes} {folders : List FolderPath} (bare : path.rdropWhile (· == 47) = path)
    (nonempty : path ≠ []) (passed : ∀ parent ∈ wayTo cwd path, Has folders parent) (folder : FolderPath) :
    Has (mkdirIn cwd path folders).2 folder ↔ Has folders folder ∨ folder = folderOf cwd path := by
  have result : mkdirIn cwd path folders =
      if Has folders (folderOf cwd path) then (.exists, folders)
      else (.made, folderOf cwd path :: folders) := by
    rw [wayTo] at passed
    rw [mkdirIn, bare, if_neg nonempty, if_pos passed]
    rfl
  rw [result]
  split
  case isTrue already =>
    refine ⟨Or.inl, fun h => h.elim id ?_⟩
    rintro rfl
    exact already
  case isFalse => exact has_cons

theorem mkdirIn_of_has {path : Bytes} {folders : List FolderPath}
    (already : Has folders (walk 47 46 true (startOf cwd path) [] (path.rdropWhile (· == 47)))) :
    (mkdirIn cwd path folders).2 = folders := by
  simp only [mkdirIn, if_pos already]
  split
  · rfl
  · split <;> rfl

theorem walk_rdropWhile_slash (stack : FolderPath) (path : Bytes) :
    walk 47 46 true stack [] (path.rdropWhile (· == 47)) = walk 47 46 true stack [] path := by
  obtain ⟨dropped, split, slashes⟩ := exists_rdropWhile (· == 47) path
  have replicate : dropped = List.replicate dropped.length 47 :=
    List.eq_replicate_iff.mpr ⟨rfl, fun c mem => by simpa using slashes c mem⟩
  conv => rhs; rw [split, replicate, walk_append_replicate_sep]

/-- One turn of `smartCreate`: the folder in front of a slash is there afterwards, and no
other one was made. -/
theorem has_createSingleDir {before : Bytes} (nonempty : before ≠ []) {folders : List FolderPath}
    (passed : ∀ parent ∈ wayTo cwd before, Has folders parent) (folder : FolderPath) :
    Has (createSingleDir (mkdirIn cwd) before folders).2 folder ↔
      Has folders folder ∨ folder = folderOf cwd before := by
  rw [createSingleDir]
  by_cases slash : before.getLast? = some 47
  · -- behind a double slash: the folder was made at the first one
    obtain ⟨front, rfl⟩ := List.getLast?_eq_some_iff.mp slash
    have same : folderOf cwd (front ++ [47]) = walk 47 46 true (startOf cwd (front ++ [47])) [] front :=
      walk_concat_sep _ _ _ _
    have already : Has folders (folderOf cwd (front ++ [47])) := by
      cases front with
      | nil => exact Or.inl rfl
      | cons c front =>
        refine passed _ ?_
        rw [wayTo_append_slash (by simp), same]
        exact List.mem_append_right _ (List.mem_singleton.mpr rfl)
    have unchanged : (mkdirIn cwd front folders).2 = folders := by
      cases front with
      | nil => rfl
      | cons c front =>
        refine mkdirIn_of_has ?_
        rw [walk_rdropWhile_slash]
        rwa [same] at already
    simp only [slash, if_true, List.dropLast_concat, unchanged]
    refine ⟨Or.inl, fun h => h.elim id ?_⟩
    rintro rfl
    exact already
  · have bare : before.rdropWhile (· == 47) = before := by
      rw [List.rdropWhile_eq_self_iff]
      intro _ last
      exact slash (by rw [List.getLast?_eq_some_getLast nonempty]; simpa using last)
    simp only [slash, if_false]
    exact has_mkdirIn bare nonempty passed folder

/-- The loop of `smartCreate` makes the folders on the way to its string. -/
theorem has_smartCreateFrom (directory : Bytes) {before rest : Bytes} {found : Bool}
    (more : found = true ∨ 47 ∈ rest) {folders : List FolderPath}
    (passed : ∀ parent ∈ wayTo cwd before, Has folders parent) (folder : FolderPath) :
    Has (smartCreateFrom (mkdirIn cwd) (dirExistsIn cwd) directory before rest found folders).2 folder ↔
      Has folders folder ∨ folder ∈ wayTo cwd (before ++ rest) := by
  induction rest generalizing before found folders with
  | nil =>
    have moved : found = true := more.resolve_right (by simp)
    rw [smartCreateFrom, moved, if_neg (by simp), List.append_nil]
    exact ⟨Or.inl, fun h => h.elim id (passed folder)⟩
  | cons c rest ih =>
    have whole : before ++ c :: rest = before ++ [c] ++ rest := by simp
    rw [smartCreateFrom, whole]
    by_cases slash : c = 47
    · subst slash
      rw [if_pos rfl]
      by_cases nonempty : before = []
      · -- a slash in front: the root is there
        subst nonempty
        rw [if_pos rfl]
        refine ih (Or.inl rfl) ?_
        intro parent mem
        exact Or.inl (List.mem_singleton.mp mem)
      · rw [if_neg nonempty]
        have made := has_createSingleDir nonempty passed
        have here : folderOf cwd before ∈ wayTo cwd (before ++ [47] ++ rest) := by
          refine wayTo_subset_append (by simp) rest ?_
          rw [wayTo_append_slash nonempty]
          exact List.mem_append_right _ (List.mem_singleton.mpr rfl)
        rw [ih (Or.inl rfl), made, or_assoc]
        · refine or_congr_right ⟨fun h => h.elim ?_ id, Or.inr⟩
          rintro rfl
          exact here
        · intro parent mem
          rw [wayTo_append_slash nonempty, List.mem_append, List.mem_singleton] at mem
          exact (made parent).mpr (mem.imp_left (passed parent))
    · have more' : found = true ∨ 47 ∈ rest := by
        simpa [List.mem_cons, Ne.symm slash] using more
      have noSep : 47 ∉ [c] := by simpa using Ne.symm slash
      rw [if_neg slash]
      refine ih more' ?_
      rwa [wayTo_append_of_noSep noSep]

theorem has_smartCreate {directory : Bytes} (slash : 47 ∈ directory) (folders : List FolderPath)
    (folder : FolderPath) :
    Has (smartCreate (mkdirIn cwd) (dirExistsIn cwd) directory folders).2 folder ↔
      Has folders folder ∨ folder ∈ wayTo cwd directory :=
  has_smartCreateFrom directory (Or.inr slash) (by simp [wayTo, way]) folder

/-- The folders that are there after the loop: the cache only skips what was made for the
entry before. -/
theorem has_createFolders (real : conf.dryRunFlag = false) (slash : 47 ∈ conf.outputFolder)
    {entries : List (FileEntry × CompareResult)}
    (proper : ∀ e ∈ entries, extractFolderFromFilePath e.1.mPath ≠ []) {cachedDir : Bytes}
    {folders : List FolderPath}
    (cached : cachedDir = [] ∨ ∀ parent ∈ wayTo cwd (conf.outputFolder ++
      withoutUnittestPath conf.unittestPath cachedDir), Has folders parent) (folder : FolderPath) :
    Has (createFolders conf cwd entries cachedDir folders) folder ↔ Has folders folder ∨
      ∃ e ∈ entries, e.2 ≠ .eSame ∧ folder ∈ wayTo cwd (extractedFolder conf e.1.mPath) := by
  induction entries generalizing cachedDir folders with
  | nil => simp [createFolders]
  | cons e entries ih =>
    obtain ⟨entry, result⟩ := e
    have properRest := fun e mem => proper e (List.mem_cons_of_mem _ mem)
    rw [createFolders]
    by_cases changed : result = .eSame
    · rw [if_neg (not_not.mpr changed), ih properRest cached]
      simp [changed]
    · rw [if_pos changed]
      by_cases hit : cachedDir = extractFolderFromFilePath entry.mPath
      · -- the folder of the entry before, whose whole way exists
        have there := cached.resolve_left (hit ▸ proper _ List.mem_cons_self)
        rw [if_neg (not_not.mpr hit), ih properRest cached]
        rw [hit, ← extractedFolder] at there
        simp only [List.mem_cons, exists_eq_or_imp, changed, ne_eq, not_false_eq_true, true_and]
        exact ⟨Or.imp_right Or.inr, fun h => h.elim Or.inl fun h => h.imp (there folder) id⟩
      · have made := @has_smartCreate cwd _
          (List.mem_append_left (withoutUnittestPath conf.unittestPath
            (extractFolderFromFilePath entry.mPath)) slash) folders
        rw [← extractedFolder] at made
        simp only [if_pos hit, real, Bool.false_eq_true, if_false]
        rw [ih properRest (Or.inr fun parent mem => (made parent).mpr (Or.inr mem)), made, or_assoc]
        simp [changed]

/-! ## The folder that is made and the folder of the output -/

/-- What the two normalisations drop behind the folder has no slash. -/
theorem exists_extractFolderFromFilePath {path : Bytes} (start : Stops ws path) :
    ∃ name, replaceAll path 92 47 = extractFolderFromFilePath path ++ name ∧ 47 ∉ name := by
  have slashedStart : Stops ws (replaceAll path 92 47) := by
    cases path with
    | nil => exact stops_nil
    | cons c path =>
      refine stops_cons.mpr ?_
      dsimp only
      split
      · rfl
      · exact stops_cons.mp start
  have untouched : normalizeFilePath path = rtrim (replaceAll path 92 47) :=
    advance_of_stops (slashedStart.of_isFront (List.rdropWhile_prefix _ _))
  obtain ⟨blanks, trimmed, areBlank⟩ := exists_rdropWhile ws (replaceAll path 92 47)
  obtain ⟨last, cut, noSlash⟩ := exists_rdropWhile (· != 47) (normalizeFilePath path)
  refine ⟨last ++ blanks, ?_, ?_⟩
  · rw [extractFolderFromFilePath, ← List.append_assoc, ← cut, untouched]
    exact trimmed
  · rw [List.mem_append]
    rintro (inLast | inBlanks)
    · simpa using noSlash 47 inLast
    · exact absurd (areBlank 47 inBlanks) (by decide)

/-- A unittest path as `main` sets it. -/
def IsUnittestPath (unittestPath : Bytes) : Prop :=
  unittestPath = [] ∨ ∃ argument, unittestPath = normalizeDirPath argument

theorem withoutUnittestPath_append_of_noSep {unittestPath name : Bytes}
    (unittest : IsUnittestPath unittestPath) (noSep : 47 ∉ name) (folder : Bytes) :
    withoutUnittestPath unittestPath (folder ++ name) =
      withoutUnittestPath unittestPath folder ++ name := by
  cases unittest with
  | inl empty =>
    rw [empty]
    rfl
  | inr normalized =>
    obtain ⟨argument, rfl⟩ := normalized
    have last := getLast_normalizeDirPath argument
    have nonempty : (normalizeDirPath argument).length ≠ 0 := by
      intro empty
      rw [List.eq_nil_of_length_eq_zero empty] at last
      cases last
    rw [withoutUnittestPath, withoutUnittestPath, if_pos nonempty, if_pos nonempty]
    exact eraseFirst_append_of_not_mem last noSep folder

/-- The folder is made for the output that the path would have with slashes in it. -/
theorem wayTo_extractedFolder (unittest : IsUnittestPath conf.unittestPath) {path : Bytes}
    (start : Stops ws path) :
    wayTo cwd (extractedFolder conf path) =
      wayTo cwd (outputFilename conf (replaceAll path 92 47)) := by
  obtain ⟨name, split, noSep⟩ := exists_extractFolderFromFilePath start
  rw [outputFilename, split, withoutUnittestPath_append_of_noSep unittest noSep, ← List.append_assoc,
    wayTo_append_of_noSep noSep, extractedFolder]

theorem wayTo_jobOutput (path : Bytes) (outcome : JobOutcome) :
    wayTo cwd (jobOutput conf path outcome) = wayTo cwd (outputFilename conf path) := by
  cases outcome with
  | copied => rfl
  | archived =>
    rw [jobOutput, archiveName]
    exact wayTo_append_of_noSep (by cases codecOf path <;> decide) _

/-! ## Scanned paths -/

/-- A path that the scan finds below an input folder as `main` sets it. -/
def IsScanned (argument path : Bytes) : Prop :=
  ∃ file : InputPath, path = file.path (stripSeparators (normalizeDirPath argument))

theorem IsScanned.stops {argument path : Bytes} (scanned : IsScanned argument path) : Stops ws path := by
  obtain ⟨file, rfl⟩ := scanned
  have base : Stops ws (stripSeparators (normalizeDirPath argument)) :=
    (stops_normalizeDirPath argument).of_isFront (stripSeparators_isFront _)
  exact base.append (stops_cons.mpr rfl)

theorem IsScanned.extractFolder_ne_nil {argument path : Bytes} (scanned : IsScanned argument path) :
    extractFolderFromFilePath path ≠ [] := by
  obtain ⟨name, split, noSep⟩ := exists_extractFolderFromFilePath scanned.stops
  intro empty
  rw [empty, List.nil_append] at split
  rw [← split] at noSep
  obtain ⟨file, rfl⟩ := scanned
  refine noSep (List.mem_map.mpr ⟨47, ?_, rfl⟩)
  exact List.mem_append_right _ List.mem_cons_self

section

variable (conf : Configuration) (cwd : FolderPath)

/-- Each folder on the way to the output of a changed entry was there before, or lies on
the way to the output that some changed entry would have with slashes for the
backslashes in its path. -/
def WaysCovered (entries : List (FileEntry × CompareResult)) (folders : List FolderPath) : Prop :=
  conf.dryRunFlag = false → ∀ e ∈ entries, e.2 ≠ .eSame →
    ∀ folder ∈ wayTo cwd (outputFilename conf e.1.mPath), Has folders folder ∨
      ∃ e' ∈ entries, e'.2 ≠ .eSame ∧
        folder ∈ wayTo cwd (outputFilename conf (replaceAll e'.1.mPath 92 47))

end

theorem waysCovered_of_no_backslash {entries : List (FileEntry × CompareResult)}
    (clean : ∀ e ∈ entries, e.2 ≠ .eSame → 92 ∉ e.1.mPath) (folders : List FolderPath) :
    WaysCovered conf cwd entries folders := by
  intro real e mem changed folder onWay
  refine Or.inr ⟨e, mem, changed, ?_⟩
  rwa [replaceAll_of_not_mem (clean e mem changed)]

/-- When the jobs start, the parents of all outputs exist exactly when every way is covered. -/
theorem parentsExist_iff {output input : Bytes} (normalized : conf.outputFolder = normalizeDirPath output)
    (unittest : IsUnittestPath conf.unittestPath) {entries : List (FileEntry × CompareResult)}
    (scanned : ∀ e ∈ entries, IsScanned input e.1.mPath) (folders : List FolderPath) :
    ParentsExist conf cwd entries (createFolders conf cwd entries [] folders) ↔
      WaysCovered conf cwd entries folders := by
  have slash : 47 ∈ conf.outputFolder :=
    normalized ▸ List.mem_of_getLast? (getLast_normalizeDirPath output)
  have made (real : conf.dryRunFlag = false) (folder : FolderPath) :
      Has (createFolders conf cwd entries [] folders) folder ↔ Has folders folder ∨
        ∃ e ∈ entries, e.2 ≠ .eSame ∧
          folder ∈ wayTo cwd (outputFilename conf (replaceAll e.1.mPath 92 47)) := by
    rw [has_createFolders real slash (fun e mem => (scanned e mem).extractFolder_ne_nil) (Or.inl rfl)]
    refine or_congr_right (exists_congr fun e => and_congr_right fun mem => and_congr_right fun _ => ?_)
    rw [wayTo_extractedFolder unittest (scanned e mem).stops]
  constructor
  · intro exist real e mem changed folder onWay
    exact (made real folder).mp (exist real e mem changed .copied folder onWay)
  · intro covered real e mem changed outcome folder onWay
    rw [wayTo_jobOutput] at onWay
    exact (made real folder).mpr (covered real e mem changed folder onWay)

/-- A run into `out/`. -/
def intoOut (unittestPath : Bytes) : Configuration :=
  ⟨text "out/", text "tools/", text "tmp/", unittestPath, false⟩

/-- A file in a folder of `in`. -/
def fileIn (folder : Bytes) (isName : IsName 47 46 folder) : InputPath :=
  ⟨[folder], text "f", by simpa using isName, by constructor <;> decide⟩

/-- The files of two folders, without the input folder. -/
theorem parentsExist_two :
    ParentsExist (intoOut (text "in/")) [text "home"]
      [(⟨text "MeowHash", text "0-0-0-0", text "in/a/f"⟩, .eNew),
        (⟨text "MeowHash", text "1-0-0-0", text "in/b/f"⟩, .eChanged)]
      (createFolders (intoOut (text "in/")) [text "home"]
        [(⟨text "MeowHash", text "0-0-0-0", text "in/a/f"⟩, .eNew),
          (⟨text "MeowHash", text "1-0-0-0", text "in/b/f"⟩, .eChanged)] [] []) := by
  refine (@parentsExist_iff _ _ (text "out") (text "in") (by decide) (Or.inr ⟨text "in", by decide⟩) _ ?_
    _).mpr (waysCovered_of_no_backslash (by decide) _)
  intro e mem
  simp only [List.mem_cons, List.not_mem_nil, or_false] at mem
  cases mem with
  | inl first =>
    rw [first]
    exact ⟨fileIn (text "a") (by constructor <;> decide), by decide⟩
  | inr second =>
    rw [second]
    exact ⟨fileIn (text "b") (by constructor <;> decide), by decide⟩

/-- A folder with a backslash in its name: another one is made in its place. -/
theorem not_parentsExist :
    ¬ ∀ (conf : Configuration) (cwd : FolderPath) (output input : Bytes)
      (entries : List (FileEntry × CompareResult)) (folders : List FolderPath),
      conf.outputFolder = normalizeDirPath output → IsUnittestPath conf.unittestPath →
      (∀ e ∈ entries, IsScanned input e.1.mPath) →
      ParentsExist conf cwd entries (createFolders conf cwd entries [] folders) := by
  intro claim
  have scanned : IsScanned (text "in") (text "in/" ++ [97, 92, 98] ++ text "/f") :=
    ⟨fileIn [97, 92, 98] (by constructor <;> decide), by decide⟩
  have exist := claim (intoOut []) [text "home"] (text "out") (text "in")
    [(⟨text "MeowHash", text "0-0-0-0", text "in/" ++ [97, 92, 98] ++ text "/f"⟩, .eNew)] []
    (by decide) (Or.inl rfl) (by simpa using scanned) rfl _ List.mem_cons_self (by decide) .copied
  exact absurd (exist [[97, 92, 98], text "in", text "out", text "home"] (by decide)) (by decide)

end BackupSuite.CtrlCenter
