import BackupSuite.CtrlCenter.SmartCreate

/-! # What `smartCreate` answers

The answers of `createSingleDir` are dropped inside the loop, and `EEXIST` counts as success.
So with a slash in the string the answer is `true` whatever the loop has made, and
`tellsTruth_iff` says when that is the truth.
-/

namespace BackupSuite.CtrlCenter

open BackupSuite.Library

/-- With a slash in the string: everything on the way is there or can be made, and behind the
last slash nothing new is named.  A string that is too long for a path goes well only when the
first position becomes `-1` as an `int`.  Without a slash the folder must be there, or `mkdir`
must fail for another reason than that something is there. -/
def AnswersTruly (disk : Disk) (directory : Bytes) : Prop :=
  if 47 ∈ directory then
    if directory.length < pathMax then
      (∀ folder ∈ wayTo disk.cwd directory, Allows disk.node folder) ∧
        (folderOf disk.cwd directory ∈ wayTo disk.cwd directory ∨
          isFolder disk.node (folderOf disk.cwd directory) = true)
    else foundPos directory 0 = -1
  else
    directory = [] ∨ pathMax ≤ directory.length ∨ isFolder disk.node (folderOf disk.cwd directory) = true ∨
      disk.node (folderOf disk.cwd directory) = none ∧ mayMake disk.node (folderOf disk.cwd directory) = false

theorem dirExistsOn_iff {path : Bytes} {disk : Disk} : dirExistsOn path disk = true ↔
    (path ≠ [] ∧ path.length < pathMax) ∧ (∀ p ∈ wayTo disk.cwd path, isFolder disk.node p = true) ∧
      isFolder disk.node (folderOf disk.cwd path) = true := by
  rw [dirExistsOn, Bool.and_eq_true, Bool.and_eq_true, decide_eq_true_iff, List.all_eq_true, and_assoc]

theorem tellsTruth_of_result {disk after : Disk} {directory : Bytes} {answer : Bool} {fuel : Nat}
    (result : smartCreateOn disk directory fuel = some (answer, after)) :
    TellsTruth disk directory ↔
      (∀ folder, isFolder after.node folder = true → isFolder disk.node folder = true ∨
        ∃ front, front ++ [47] <+: directory ∧ folder = folderOf disk.cwd front) ∧
      (answer = true → dirExistsOn directory after = true) := by
  constructor
  · rintro ⟨-, makes, truthful⟩
    exact ⟨makes fuel answer after result, fun isTrue => truthful fuel after (isTrue ▸ result)⟩
  · rintro ⟨makes, truthful⟩
    refine ⟨⟨fuel, _, result⟩, fun fuel' answer' after' result' => ?_, fun fuel' after' result' => ?_⟩
    · cases smartCreateLoop_unique result result'
      exact makes
    · cases smartCreateLoop_unique result result'
      exact truthful rfl

/-! ### Strings with a slash -/

theorem tellsTruth_slash {disk : Disk} {directory : Bytes} (slash : 47 ∈ directory)
    (short : directory.length < pathMax) : TellsTruth disk directory ↔
      (∀ folder ∈ wayTo disk.cwd directory, Allows disk.node folder) ∧
        (folderOf disk.cwd directory ∈ wayTo disk.cwd directory ∨
          isFolder disk.node (folderOf disk.cwd directory) = true) := by
  have more : false = true ∨ 47 ∈ directory := Or.inr slash
  have whole : directory = [] ++ directory := (List.nil_append directory).symm
  obtain ⟨after, returns, makes⟩ := smartCreateFrom_makes whole more disk
  have result : smartCreateOn disk directory (directory.length + 1) = some (true, after) := by
    have short : directory.length < 2147483648 := short.trans (by decide)
    have loop := @smartCreateLoop_eq Disk mkdirOn dirExistsOn directory short [] directory rfl disk
    rw [decide_eq_false (not_not_intro rfl), returns] at loop
    exact loop
  have nonempty : directory ≠ [] := List.ne_nil_of_mem slash
  rw [tellsTruth_of_result result, dirExistsOn_iff, makes.cwd]
  constructor
  · rintro ⟨-, truthful⟩
    -- the answer is `true`, so the folder is there with all on the way
    obtain ⟨-, way, there⟩ := truthful rfl
    refine ⟨fun folder mem => (makes.allows_iff folder).mp (Or.inl (way folder mem)), ?_⟩
    cases makes.of_isFolder there with
    | inl old => exact Or.inr old
    | inr new => exact Or.inl new.mem_wayTo
  · rintro ⟨allows, last⟩
    have way : ∀ p ∈ wayTo disk.cwd directory, isFolder after.node p = true := by
      have start : ∀ p ∈ wayTo disk.cwd [], isFolder disk.node p = true := fun p mem => absurd mem List.not_mem_nil
      rw [whole] at short allows ⊢
      have all := @isFolder_smartCreateFrom directory [] directory short false more disk start allows
      rwa [returns] at all
    refine ⟨fun folder there => (makes.of_isFolder there).imp_right ?_, fun _ => ⟨⟨nonempty, short⟩, way, ?_⟩⟩
    · rintro ⟨front, -, isFront, same⟩
      exact ⟨front, isFront, same⟩
    · cases last with
      | inl onWay => exact way _ onWay
      | inr old => exact makes.isFolder old

theorem foundPos_range (directory : Bytes) (cursor : Int) :
    -2147483648 ≤ foundPos directory cursor ∧ foundPos directory cursor < 2147483648 := by
  rw [foundPos]
  split
  · rw [toInt]
    omega
  · decide

/-- Behind the first round the function does not answer `false` any more. -/
theorem smartCreateLoop_true {directory : Bytes} {fuel : Nat} {cursor : Int} (moved : cursor ≠ 0) {disk after : Disk}
    {answer : Bool} (result : smartCreateLoop mkdirOn dirExistsOn directory fuel cursor disk = some (answer, after)) :
    answer = true := by
  induction fuel generalizing cursor disk with
  | zero => cases result
  | succ fuel ih =>
    have range := foundPos_range directory cursor
    simp only [smartCreateLoop] at result
    split at result
    case isTrue =>
      rw [if_neg (fun h => moved h.1)] at result
      cases result
      rfl
    case isFalse found =>
      have next : toInt (foundPos directory cursor + 1) ≠ 0 := by
        rw [toInt]
        omega
      split at result
      · exact ih next result
      · exact ih next result

theorem findSlash_lt {directory : Bytes} {pos : Nat} (found : findSlash directory 0 = some pos) :
    pos < directory.length := by
  rw [findSlash, List.drop_zero, Option.map_eq_some_iff] at found
  obtain ⟨i, isFirst, rfl⟩ := found
  have inside := (List.findIdx?_eq_some_iff_getElem.mp isFirst).1
  omega

theorem mkdirOn_of_long {path : Bytes} (long : pathMax ≤ path.length) (disk : Disk) :
    mkdirOn path disk = (.failed, disk) := by
  rw [mkdirOn, if_pos (Or.inr long)]

/-- When the first position is taken for `npos`, the answer is that of `createSingleDir` for the
whole string. -/
theorem smartCreateOn_of_npos {directory : Bytes} (found : foundPos directory 0 = -1) (disk : Disk) :
    smartCreateOn disk directory 1 =
      if dirExistsOn directory disk = false then some (createSingleDir mkdirOn directory disk)
      else some (true, disk) := by
  simp only [smartCreateOn, smartCreateLoop, found, true_and, if_true]

theorem tellsTruth_of_npos {disk : Disk} {directory : Bytes} (found : foundPos directory 0 = -1)
    (missing : dirExistsOn directory disk = false) (fails : createSingleDir mkdirOn directory disk = (false, disk)) :
    TellsTruth disk directory := by
  have result := smartCreateOn_of_npos found disk
  rw [if_pos missing, fails] at result
  exact (tellsTruth_of_result result).mpr ⟨fun folder there => Or.inl there, Bool.noConfusion⟩

/-- A string that no path can be as long as is never there. -/
theorem tellsTruth_long {disk : Disk} {directory : Bytes} (slash : 47 ∈ directory)
    (long : pathMax ≤ directory.length) : TellsTruth disk directory ↔ foundPos directory 0 = -1 := by
  have notThere (after : Disk) : dirExistsOn directory after = false := by
    rw [Bool.eq_false_iff, Ne, dirExistsOn_iff]
    exact fun h => absurd h.1.2 (by omega)
  constructor
  · rintro ⟨⟨fuel, ⟨answer, after⟩, result⟩, -, truthful⟩
    by_contra found
    -- the first position is not taken for `npos`, and from then on the answer is `true`
    have isTrue : answer = true := by
      have range := foundPos_range directory 0
      have next : toInt (foundPos directory 0 + 1) ≠ 0 := by
        rw [toInt]
        omega
      cases fuel with
      | zero => cases result
      | succ fuel =>
        simp only [smartCreateOn, smartCreateLoop, if_neg found] at result
        split at result
        · exact smartCreateLoop_true next result
        · exact smartCreateLoop_true next result
    have there := truthful fuel after (isTrue ▸ result)
    rw [notThere] at there
    cases there
  · intro found
    -- the first slash is so far behind that no path is as long
    have far : 4294967295 < directory.length := by
      obtain ⟨mid, rest, split, noSep⟩ := List.eq_append_cons_of_mem slash
      have first : findSlash directory 0 = some mid.length := by
        have here := findSlash_some noSep [] rest
        rwa [List.nil_append, List.length_nil, Nat.zero_add, ← split] at here
      have lt := findSlash_lt first
      rw [foundPos, show sizeT 0 = 0 by decide, first] at found
      simp only [toInt] at found
      omega
    have fails : createSingleDir mkdirOn directory disk = (false, disk) := by
      have shorter : pathMax ≤ (if directory.getLast? = some 47 then directory.dropLast else directory).length := by
        rw [pathMax]
        split
        · rw [List.length_dropLast]
          omega
        · omega
      rw [createSingleDir, mkdirOn_of_long shorter]
      rfl
    exact tellsTruth_of_npos found (notThere disk) fails

/-! ### Strings without a slash -/

theorem foundPos_noSlash {directory : Bytes} (noSlash : 47 ∉ directory) : foundPos directory 0 = -1 := by
  have nowhere := findSlash_none noSlash []
  rw [foundPos, show sizeT 0 = 0 by decide, show findSlash directory 0 = none from nowhere]

theorem createSingleDir_noSlash {directory : Bytes} (noSlash : 47 ∉ directory) (disk : Disk) :
    createSingleDir mkdirOn directory disk =
      (decide ((mkdirOn directory disk).1 ≠ .failed), (mkdirOn directory disk).2) := by
  have noLast : directory.getLast? ≠ some 47 := fun last => noSlash (List.mem_of_getLast? last)
  simp only [createSingleDir, if_neg noLast]

theorem tellsTruth_of_fails {disk : Disk} {directory : Bytes} (noSlash : 47 ∉ directory)
    (missing : dirExistsOn directory disk = false) (failed : mkdirOn directory disk = (.failed, disk)) :
    TellsTruth disk directory := by
  have single := createSingleDir_noSlash noSlash disk
  rw [failed] at single
  exact tellsTruth_of_npos (foundPos_noSlash noSlash) missing single

/-- A folder that is made by its own name is in front of no slash. -/
theorem not_tellsTruth_of_made {disk : Disk} {directory : Bytes} (noSlash : 47 ∉ directory)
    (missing : dirExistsOn directory disk = false)
    (absent : isFolder disk.node (folderOf disk.cwd directory) = false) {after : Disk} {answer : MkdirResult}
    (mkdir : mkdirOn directory disk = (answer, after))
    (there : isFolder after.node (folderOf disk.cwd directory) = true) : ¬ TellsTruth disk directory := by
  have result := smartCreateOn_of_npos (foundPos_noSlash noSlash) disk
  rw [if_pos missing, createSingleDir_noSlash noSlash, mkdir] at result
  rw [tellsTruth_of_result result]
  rintro ⟨makes, -⟩
  cases makes _ there with
  | inl old => exact Bool.false_ne_true (absent.symm.trans old)
  | inr inFront =>
    obtain ⟨front, isFront, -⟩ := inFront
    exact noSlash (isFront.subset (List.mem_append_right _ (List.mem_singleton_self _)))

theorem tellsTruth_noSlash {disk : Disk} {directory : Bytes} (noSlash : 47 ∉ directory) : TellsTruth disk directory ↔
    directory = [] ∨ pathMax ≤ directory.length ∨ isFolder disk.node (folderOf disk.cwd directory) = true ∨
      disk.node (folderOf disk.cwd directory) = none ∧ mayMake disk.node (folderOf disk.cwd directory) = false := by
  have found := smartCreateOn_of_npos (foundPos_noSlash noSlash) disk
  have wayNil : wayTo disk.cwd directory = [] := way_of_noSep noSlash true _ []
  by_cases empty : directory = []
  · have failed : mkdirOn directory disk = (.failed, disk) := by rw [mkdirOn, if_pos (Or.inl empty)]
    exact iff_of_true (tellsTruth_of_fails noSlash (by simp [dirExistsOn, empty]) failed) (Or.inl empty)
  by_cases long : pathMax ≤ directory.length
  · refine iff_of_true (tellsTruth_of_fails noSlash ?_ (mkdirOn_of_long long disk)) (Or.inr (Or.inl long))
    rw [Bool.eq_false_iff, Ne, dirExistsOn_iff]
    exact fun h => absurd h.1.2 (by omega)
  by_cases there : isFolder disk.node (folderOf disk.cwd directory) = true
  · have dirExists : dirExistsOn directory disk = true := by
      rw [dirExistsOn_iff, wayNil]
      exact ⟨⟨empty, by omega⟩, fun p mem => absurd mem List.not_mem_nil, there⟩
    rw [dirExists, if_neg Bool.false_ne_true.symm] at found
    exact iff_of_true ((tellsTruth_of_result found).mpr ⟨fun folder there => Or.inl there, fun _ => dirExists⟩)
      (Or.inr (Or.inr (Or.inl there)))
  have missing : dirExistsOn directory disk = false := by
    rw [Bool.eq_false_iff, Ne, dirExistsOn_iff]
    exact fun h => there h.2.2
  have bare : directory.rdropWhile (· == 47) = directory := by
    rw [List.rdropWhile_eq_self_iff]
    intro nonempty last
    exact noSlash (beq_iff_eq.mp last ▸ List.getLast_mem nonempty)
  have mkdir := mkdirOn_eq empty bare disk
  rw [if_neg long, wayNil, List.all_nil, if_neg Bool.false_ne_true.symm] at mkdir
  simp only [empty, long, there, Bool.false_eq_true, false_or]
  by_cases taken : disk.node (folderOf disk.cwd directory) = none
  · rw [if_neg (not_not_intro taken)] at mkdir
    split at mkdir
    case isTrue may =>
      -- the string itself is made
      have isThere := isFolder_iff.mpr ⟨true, addFolder_self disk.node (folderOf disk.cwd directory)⟩
      exact iff_of_false (not_tellsTruth_of_made noSlash missing (Bool.eq_false_iff.mpr there) mkdir isThere)
        (fun h => Bool.false_ne_true (h.2.symm.trans may))
    case isFalse mayNot =>
      exact iff_of_true (tellsTruth_of_fails noSlash missing mkdir) ⟨taken, Bool.eq_false_iff.mpr mayNot⟩
  · -- something else is in the way
    rw [if_pos taken] at mkdir
    rw [if_pos missing, createSingleDir_noSlash noSlash, mkdir] at found
    rw [tellsTruth_of_result found]
    refine iff_of_false ?_ (fun h => taken h.1)
    rintro ⟨-, truthful⟩
    rw [missing] at truthful
    exact Bool.false_ne_true (truthful rfl)

/-- Exactly then `smartCreate` tells the truth. -/
theorem tellsTruth_iff (disk : Disk) (directory : Bytes) : TellsTruth disk directory ↔ AnswersTruly disk directory := by
  rw [AnswersTruly]
  split
  case isTrue slash =>
    split
    case isTrue short => exact tellsTruth_slash slash short
    case isFalse long => exact tellsTruth_long slash (Nat.not_lt.mp long)
  case isFalse noSlash => exact tellsTruth_noSlash noSlash

/-- A folder with a regular file `f` in it. -/
def fileDisk : Disk where
  cwd := []
  node := fun l => if l = [] then some (.folder true) else if l = [text "f"] then some .file else none
  root := rfl
  closed := by
    intro name parent there
    by_cases inRoot : parent = []
    · subst inRoot
      rfl
    · simp [inRoot] at there
  inFolder := rfl

/-- Where a regular file has the name of the folder, the answer is `true` too. -/
theorem not_tellsTruth : ¬ ∀ (disk : Disk) (directory : Bytes), TellsTruth disk directory := by
  intro all
  have answer : smartCreateOn fileDisk (text "f/") 3 = some (true, fileDisk) := by rfl
  have there := (all fileDisk (text "f/")).truthful 3 fileDisk answer
  exact absurd there (by decide)

end BackupSuite.CtrlCenter
