import BackupSuite.CtrlCenter.OutputFolders

/-! # `smartCreate` on any disk

The loop keeps the position of a separator in an `int` and compares it with `npos`; as long
as the string is shorter than 2^31 bytes this is the loop over the string itself
(`smartCreateLoop_eq`).  It runs on a disk with folders, files and folders that nothing may be
made in.  A path has no NUL in it.
-/

namespace BackupSuite.CtrlCenter

open BackupSuite.Library

/-! ## The loop and its positions -/

/-- Conversion to `size_t`. -/
def sizeT (n : Int) : Nat := (n % 18446744073709551616).toNat

/-- `directory.find("/", pos)`, where `none` is `npos`. -/
def findSlash (directory : Bytes) (pos : Nat) : Option Nat :=
  ((directory.drop pos).findIdx? (· == 47)).map (pos + ·)

/-- `int foundPos = directory.find("/", cursor)`; as an `int`, `npos` is `-1`. -/
def foundPos (directory : Bytes) (cursor : Int) : Int :=
  match findSlash directory (sizeT cursor) with
  | some pos => toInt pos
  | none => -1

section

variable {σ : Type} (mkdir : Bytes → σ → MkdirResult × σ) (dirExists : Bytes → σ → Bool)

/-- `fuel` bounds the rounds. -/
def smartCreateLoop (directory : Bytes) : Nat → Int → σ → Option (Bool × σ)
  | 0, _, _ => none
  | fuel + 1, cursor, s =>
    let foundPos := foundPos directory cursor
    -- `foundPos == std::string::npos`
    if foundPos = -1 then
      if cursor = 0 ∧ dirExists directory s = false then some (createSingleDir mkdir directory s)
      else some (true, s)
    else if foundPos = 0 then smartCreateLoop directory fuel (toInt (foundPos + 1)) s
    else
      let subDir := directory.take (sizeT foundPos)
      smartCreateLoop directory fuel (toInt (foundPos + 1)) (createSingleDir mkdir subDir s).2

variable {mkdir dirExists}

theorem smartCreateLoop_mono {directory : Bytes} {fuel more : Nat} (le : fuel ≤ more) {cursor : Int} {s : σ}
    {r : Bool × σ} (h : smartCreateLoop mkdir dirExists directory fuel cursor s = some r) :
    smartCreateLoop mkdir dirExists directory more cursor s = some r := by
  induction fuel generalizing more cursor s with
  | zero => cases h
  | succ fuel ih =>
    obtain ⟨more, rfl⟩ : ∃ n, more = n + 1 := ⟨more - 1, by omega⟩
    simp only [smartCreateLoop] at h ⊢
    split at h
    case isTrue last => rwa [if_pos last]
    case isFalse next =>
      rw [if_neg next]
      split at h
      case isTrue front =>
        rw [if_pos front]
        exact ih (by omega) h
      case isFalse inside =>
        rw [if_neg inside]
        exact ih (by omega) h

theorem smartCreateLoop_unique {directory : Bytes} {fuel fuel' : Nat} {cursor : Int} {s : σ} {r r' : Bool × σ}
    (h : smartCreateLoop mkdir dirExists directory fuel cursor s = some r)
    (h' : smartCreateLoop mkdir dirExists directory fuel' cursor s = some r') : r = r' := by
  have both := smartCreateLoop_mono (Nat.le_max_left fuel fuel') h
  rw [smartCreateLoop_mono (Nat.le_max_right fuel fuel') h'] at both
  exact (Option.some.inj both).symm

/-! ### Short strings -/

theorem findIdx?_slash {mid : Bytes} (noSep : 47 ∉ mid) (rest : Bytes) :
    (mid ++ 47 :: rest).findIdx? (· == 47) = some mid.length := by
  induction mid with
  | nil => rfl
  | cons c mid ih =>
    rw [List.mem_cons, not_or] at noSep
    have notHere : (c == 47) = false := by simpa using Ne.symm noSep.1
    rw [List.cons_append, List.findIdx?_cons, notHere, ih noSep.2]
    rfl

theorem findSlash_some {mid : Bytes} (noSep : 47 ∉ mid) (before rest : Bytes) :
    findSlash (before ++ (mid ++ 47 :: rest)) before.length = some (before.length + mid.length) := by
  rw [findSlash, List.drop_left, findIdx?_slash noSep]
  rfl

theorem findSlash_none {rest : Bytes} (noSep : 47 ∉ rest) (before : Bytes) :
    findSlash (before ++ rest) before.length = none := by
  have nowhere : rest.findIdx? (· == 47) = none := by
    rw [List.findIdx?_eq_none_iff]
    intro c mem
    have other : c ≠ 47 := fun isSep => noSep (isSep ▸ mem)
    simpa using other
  rw [findSlash, List.drop_left, nowhere]
  rfl

theorem toInt_of_short {n : Nat} (short : n < 2147483648) : toInt n = n := by
  rw [toInt]
  omega

theorem sizeT_natCast {n : Nat} (short : n < 2147483648) : sizeT n = n := by
  rw [sizeT]
  omega

theorem smartCreateFrom_of_noSep (directory : Bytes) {mid : Bytes} (noSep : 47 ∉ mid) (before rest : Bytes)
    (found : Bool) (s : σ) : smartCreateFrom mkdir dirExists directory before (mid ++ rest) found s =
      smartCreateFrom mkdir dirExists directory (before ++ mid) rest found s := by
  induction mid generalizing before with
  | nil => rw [List.nil_append, List.append_nil]
  | cons c mid ih =>
    rw [List.mem_cons, not_or] at noSep
    rw [List.cons_append, smartCreateFrom, if_neg (Ne.symm noSep.1), ih noSep.2, List.append_assoc,
      List.singleton_append]

/-- With positions that fit, the loop is the one over the string. -/
theorem smartCreateLoop_eq {directory : Bytes} (short : directory.length < 2147483648) {before rest : Bytes}
    (split : directory = before ++ rest) (s : σ) :
    smartCreateLoop mkdir dirExists directory (rest.length + 1) before.length s =
      some (smartCreateFrom mkdir dirExists directory before rest (decide (before ≠ [])) s) := by
  -- from one separator to the next
  induction size : rest.length using Nat.strong_induction_on generalizing before rest s with
  | _ n ih =>
    subst size
    have lengths := congrArg List.length split
    rw [List.length_append] at lengths
    have start : sizeT before.length = before.length := sizeT_natCast (by omega)
    by_cases slash : 47 ∈ rest
    · obtain ⟨mid, behind, rfl, noSep⟩ := List.eq_append_cons_of_mem slash
      rw [List.length_append, List.length_cons] at lengths
      have found : foundPos directory before.length = (before ++ mid).length := by
        rw [foundPos, start, split, findSlash_some noSep, List.length_append]
        exact toInt_of_short (by omega)
      have cursor : toInt (((before ++ mid).length : Int) + 1) = (before ++ mid ++ [47]).length := by
        have short : (before ++ mid).length + 1 < 2147483648 := by rw [List.length_append]; omega
        have size : (before ++ mid ++ [47]).length = (before ++ mid).length + 1 := List.length_append
        rw [size]
        exact toInt_of_short short
      have whole : directory = before ++ mid ++ [47] ++ behind := by rw [split]; simp
      have taken : directory.take (sizeT (before ++ mid).length) = before ++ mid := by
        rw [sizeT_natCast (by rw [List.length_append]; omega), whole, List.append_assoc, List.take_left]
      have next (s : σ) := ih behind.length (by rw [List.length_append, List.length_cons]; omega) whole s rfl
      rw [decide_eq_true (by simp)] at next
      have more : behind.length + 1 ≤ (mid ++ 47 :: behind).length := by simp
      rw [smartCreateLoop, found, if_neg (by omega), smartCreateFrom_of_noSep directory noSep, smartCreateFrom,
        if_pos rfl, taken, cursor]
      by_cases front : before ++ mid = []
      · rw [if_pos (by rw [front]; rfl), if_pos front]
        exact smartCreateLoop_mono more (next s)
      · have positive := List.length_pos_of_ne_nil front
        rw [if_neg (by omega), if_neg front]
        exact smartCreateLoop_mono more (next _)
    · have found : foundPos directory before.length = -1 := by
        rw [foundPos, start, split, findSlash_none slash]
      have last := @smartCreateFrom_of_noSep σ mkdir dirExists directory rest slash before [] (decide (before ≠ [])) s
      rw [List.append_nil] at last
      rw [smartCreateLoop, found, if_pos rfl, last, smartCreateFrom]
      by_cases front : before = []
      · subst front
        split <;> simp_all
      · have moved : (before.length : Int) ≠ 0 := by
          have positive := List.length_pos_of_ne_nil front
          omega
        rw [if_neg (fun h => moved h.1), decide_eq_true front, if_neg (fun h => Bool.noConfusion h.1)]

end

/-! ## Disks -/

inductive DiskNode where
  | folder (writable : Bool)
  | file
deriving DecidableEq, Repr

/-- `PATH_MAX`, with the NUL behind the path. -/
def pathMax : Nat := 4096

/-- `NAME_MAX` -/
def nameMax : Nat := 255

def isFolder (node : FolderPath → Option DiskNode) (folder : FolderPath) : Bool :=
  match node folder with
  | some (.folder _) => true
  | _ => false

/-- What the process sees of the file system.  Everything lies in a folder. -/
structure Disk where
  cwd : FolderPath
  node : FolderPath → Option DiskNode
  root : isFolder node [] = true
  closed : ∀ name parent, node (name :: parent) ≠ none → isFolder node parent = true
  inFolder : isFolder node cwd = true

/-- The name is not too long and may be added to the parent. -/
def mayMake (node : FolderPath → Option DiskNode) : FolderPath → Bool
  | [] => false
  | name :: parent => decide (name.length ≤ nameMax ∧ node parent = some (.folder true))

theorem isFolder_iff {node : FolderPath → Option DiskNode} {folder : FolderPath} :
    isFolder node folder = true ↔ ∃ writable, node folder = some (.folder writable) := by
  rw [isFolder]
  split
  case h_1 writable here => exact iff_of_true rfl ⟨writable, here⟩
  case h_2 other => exact iff_of_false Bool.false_ne_true fun ⟨writable, here⟩ => other writable here

/-- A new folder belongs to the process. -/
def addFolder (node : FolderPath → Option DiskNode) (folder : FolderPath) : FolderPath → Option DiskNode :=
  Function.update node folder (some (.folder true))

theorem addFolder_self (node : FolderPath → Option DiskNode) (folder : FolderPath) :
    addFolder node folder folder = some (.folder true) := Function.update_self _ _ _

theorem addFolder_of_ne {node : FolderPath → Option DiskNode} {folder other : FolderPath} (ne : other ≠ folder) :
    addFolder node folder other = node other := Function.update_of_ne ne _ _

theorem isFolder_addFolder {node : FolderPath → Option DiskNode} {folder other : FolderPath}
    (h : isFolder node other = true) : isFolder (addFolder node folder) other = true := by
  by_cases here : other = folder
  · subst here
    exact isFolder_iff.mpr ⟨true, addFolder_self node other⟩
  · rwa [isFolder, addFolder_of_ne here]

theorem isFolder_addFolder_of_ne {node : FolderPath → Option DiskNode} {folder other : FolderPath} (ne : other ≠ folder) :
    isFolder (addFolder node folder) other = isFolder node other := by
  rw [isFolder, isFolder, addFolder_of_ne ne]

theorem closed_addFolder {disk : Disk} {folder : FolderPath} (may : mayMake disk.node folder = true)
    (name : Bytes) (parent : FolderPath) (there : addFolder disk.node folder (name :: parent) ≠ none) :
    isFolder (addFolder disk.node folder) parent = true := by
  refine isFolder_addFolder ?_
  by_cases here : name :: parent = folder
  · subst here
    exact isFolder_iff.mpr ⟨true, (of_decide_eq_true may).2⟩
  · rw [addFolder_of_ne here] at there
    exact disk.closed name parent there

def Disk.add (disk : Disk) (folder : FolderPath) (may : mayMake disk.node folder = true) : Disk where
  cwd := disk.cwd
  node := addFolder disk.node folder
  root := isFolder_addFolder disk.root
  closed := closed_addFolder may
  inFolder := isFolder_addFolder disk.inFolder

@[simp] theorem Disk.add_node (disk : Disk) (folder : FolderPath) (may : mayMake disk.node folder = true) :
    (disk.add folder may).node = addFolder disk.node folder := rfl

/-- `mkdir`: the folders on the way have to be there.  Slashes at the end count for nothing. -/
def mkdirOn (path : Bytes) (disk : Disk) : MkdirResult × Disk :=
  let bare := path.rdropWhile (· == 47)
  let folder := walk 47 46 true (startOf disk.cwd path) [] bare
  let passed := way 47 46 true (startOf disk.cwd path) [] bare
  if path = [] ∨ pathMax ≤ path.length then (.failed, disk)
  else if passed.all (isFolder disk.node) = false then (.failed, disk)
  else if disk.node folder ≠ none then (.exists, disk)
  else if may : mayMake disk.node folder = true then (.made, disk.add folder may)
  else (.failed, disk)

theorem mkdirOn_eq {path : Bytes} (nonempty : path ≠ []) (bare : path.rdropWhile (· == 47) = path) (disk : Disk) :
    mkdirOn path disk =
      if pathMax ≤ path.length then (.failed, disk)
      else if (wayTo disk.cwd path).all (isFolder disk.node) = false then (.failed, disk)
      else if disk.node (folderOf disk.cwd path) ≠ none then (.exists, disk)
      else if may : mayMake disk.node (folderOf disk.cwd path) = true then
        (.made, disk.add (folderOf disk.cwd path) may)
      else (.failed, disk) := by
  rw [mkdirOn, bare]
  simp only [nonempty, false_or]
  rfl

/-- `stat` finds a folder. -/
def dirExistsOn (path : Bytes) (disk : Disk) : Bool :=
  decide (path ≠ [] ∧ path.length < pathMax) && (wayTo disk.cwd path).all (isFolder disk.node) &&
    isFolder disk.node (folderOf disk.cwd path)

/-- All rounds from the first one on. -/
def smartCreateOn (disk : Disk) (directory : Bytes) (fuel : Nat) : Option (Bool × Disk) :=
  smartCreateLoop mkdirOn dirExistsOn directory fuel 0 disk

/-- The function returns, makes no folder but the parts of the string in front of its slashes,
and answers `true` only when the folder is there. -/
structure TellsTruth (disk : Disk) (directory : Bytes) : Prop where
  terminates : ∃ fuel r, smartCreateOn disk directory fuel = some r
  makes : ∀ fuel answer after, smartCreateOn disk directory fuel = some (answer, after) →
    ∀ folder, isFolder after.node folder = true → isFolder disk.node folder = true ∨
      ∃ front, front ++ [47] <+: directory ∧ folder = folderOf disk.cwd front
  truthful : ∀ fuel after, smartCreateOn disk directory fuel = some (true, after) →
    dirExistsOn directory after = true

/-! ## What one call can do -/

/-- Nothing has changed, or a missing folder has been made. -/
def Made (disk after : Disk) (folder : FolderPath) : Prop :=
  after = disk ∨ disk.node folder = none ∧ ∃ may, after = disk.add folder may

theorem made_mkdirOn {path : Bytes} (disk : Disk) :
    Made disk (mkdirOn path disk).2 (walk 47 46 true (startOf disk.cwd path) [] (path.rdropWhile (· == 47))) := by
  rw [mkdirOn]
  split
  case isTrue => exact Or.inl rfl
  case isFalse =>
    split
    case isTrue => exact Or.inl rfl
    case isFalse =>
      split
      case isTrue => exact Or.inl rfl
      case isFalse missing =>
        split
        case isTrue may => exact Or.inr ⟨not_not.mp missing, may, rfl⟩
        case isFalse => exact Or.inl rfl

/-- Of a string that is not empty only its folder is made. -/
theorem made_createSingleDir {before : Bytes} (nonempty : before ≠ []) (disk : Disk) :
    Made disk (createSingleDir mkdirOn before disk).2 (folderOf disk.cwd before) := by
  rw [createSingleDir]
  by_cases slash : before.getLast? = some 47
  · obtain ⟨front, rfl⟩ := List.getLast?_eq_some_iff.mp slash
    simp only [slash, if_true, List.dropLast_concat]
    by_cases empty : front = []
    · subst empty
      exact Or.inl rfl
    · have same : folderOf disk.cwd (front ++ [47]) =
          walk 47 46 true (startOf disk.cwd front) [] (front.rdropWhile (· == 47)) := by
        rw [walk_rdropWhile_slash, folderOf, startOf_append empty, walk_concat_sep]
      rw [same]
      exact made_mkdirOn disk
  · have same : folderOf disk.cwd before =
        walk 47 46 true (startOf disk.cwd before) [] (before.rdropWhile (· == 47)) := by
      rw [walk_rdropWhile_slash, folderOf]
    rw [if_neg slash, same]
    exact made_mkdirOn disk

/-- The folder is there, or it can be made once its parent is there. -/
def Allows (node : FolderPath → Option DiskNode) (folder : FolderPath) : Prop :=
  isFolder node folder = true ∨ node folder = none ∧ ∃ name parent, folder = name :: parent ∧
    name.length ≤ nameMax ∧ (node parent = none ∨ node parent = some (.folder true))

theorem allows_of_mayMake {node : FolderPath → Option DiskNode} {folder : FolderPath} (missing : node folder = none)
    (may : mayMake node folder = true) : Allows node folder := by
  cases folder with
  | nil => cases may
  | cons name parent =>
    obtain ⟨short, writable⟩ := of_decide_eq_true may
    exact Or.inr ⟨missing, name, parent, rfl, short, Or.inr writable⟩

section

variable {disk after : Disk} {made : FolderPath}

theorem Made.cwd (step : Made disk after made) : after.cwd = disk.cwd := by
  obtain rfl | ⟨-, may, rfl⟩ := step
  · rfl
  · rfl

theorem Made.isFolder (step : Made disk after made) {folder : FolderPath} (h : isFolder disk.node folder = true) :
    isFolder after.node folder = true := by
  obtain rfl | ⟨-, may, rfl⟩ := step
  · exact h
  · exact isFolder_addFolder h

theorem Made.of_isFolder (step : Made disk after made) {folder : FolderPath}
    (h : CtrlCenter.isFolder after.node folder = true) : CtrlCenter.isFolder disk.node folder = true ∨ folder = made := by
  obtain rfl | ⟨-, may, rfl⟩ := step
  · exact Or.inl h
  · by_cases here : folder = made
    · exact Or.inr here
    · rw [Disk.add_node, isFolder_addFolder_of_ne here] at h
      exact Or.inl h

/-- What can be there in the end is settled in the beginning. -/
theorem Made.allows_iff (step : Made disk after made) (folder : FolderPath) :
    Allows after.node folder ↔ Allows disk.node folder := by
  obtain rfl | ⟨missing, may, rfl⟩ := step
  · rfl
  · have self : addFolder disk.node made made = some (.folder true) := addFolder_self _ _
    rw [Disk.add_node]
    by_cases here : folder = made
    · subst here
      exact iff_of_true (Or.inl (isFolder_iff.mpr ⟨true, self⟩)) (allows_of_mayMake missing may)
    · have same : addFolder disk.node made folder = disk.node folder := addFolder_of_ne here
      rw [Allows, Allows, isFolder_addFolder_of_ne here, same]
      refine or_congr_right (and_congr_right fun _ => exists_congr fun name => exists_congr fun parent =>
        and_congr_right fun _ => and_congr_right fun _ => ?_)
      -- the parent may be the folder that was made
      by_cases isParent : parent = made
      · subst isParent
        exact iff_of_true (Or.inr self) (Or.inl missing)
      · rw [addFolder_of_ne isParent]

end

/-! ## What the whole loop can do -/

/-- The parts of the string in front of its slashes. -/
def InFront (directory : Bytes) (cwd folder : FolderPath) : Prop :=
  ∃ front, front ≠ [] ∧ front ++ [47] <+: directory ∧ folder = folderOf cwd front

/-- Some of them are made, one after the other. -/
inductive Makes (directory : Bytes) (cwd : FolderPath) : Disk → Disk → Prop where
  | done (disk : Disk) : Makes directory cwd disk disk
  | make {disk next after : Disk} {folder : FolderPath} (inFront : InFront directory cwd folder)
      (made : Made disk next folder) (rest : Makes directory cwd next after) : Makes directory cwd disk after

theorem InFront.mem_wayTo {directory : Bytes} {cwd folder : FolderPath} (inFront : InFront directory cwd folder) :
    folder ∈ wayTo cwd directory := by
  obtain ⟨front, nonempty, ⟨rest, rfl⟩, rfl⟩ := inFront
  refine wayTo_subset_append (by simp) rest ?_
  rw [wayTo_append_slash nonempty]
  exact List.mem_append_right _ (List.mem_singleton_self _)

section

variable {directory : Bytes} {base : FolderPath} {disk after : Disk}

theorem Makes.cwd (makes : Makes directory base disk after) : after.cwd = disk.cwd := by
  induction makes with
  | done => rfl
  | make _ made _ ih => rw [ih, made.cwd]

theorem Makes.isFolder (makes : Makes directory base disk after) {folder : FolderPath}
    (h : isFolder disk.node folder = true) : isFolder after.node folder = true := by
  induction makes with
  | done => exact h
  | make _ made _ ih => exact ih (made.isFolder h)

theorem Makes.of_isFolder (makes : Makes directory base disk after) {folder : FolderPath}
    (h : CtrlCenter.isFolder after.node folder = true) :
    CtrlCenter.isFolder disk.node folder = true ∨ InFront directory base folder := by
  induction makes with
  | done => exact Or.inl h
  | make inFront made _ ih =>
    cases ih h with
    | inr new => exact Or.inr new
    | inl next =>
      refine (made.of_isFolder next).imp_right ?_
      rintro rfl
      exact inFront

theorem Makes.allows_iff (makes : Makes directory base disk after) (folder : FolderPath) :
    Allows after.node folder ↔ Allows disk.node folder := by
  induction makes with
  | done => rfl
  | make _ made _ ih => rw [ih, made.allows_iff]

end

/-- With a slash in the string the answer is `true`, whatever was made. -/
theorem smartCreateFrom_makes {directory before rest : Bytes} (split : directory = before ++ rest) {found : Bool}
    (more : found = true ∨ 47 ∈ rest) (disk : Disk) :
    ∃ after, smartCreateFrom mkdirOn dirExistsOn directory before rest found disk = (true, after) ∧
      Makes directory disk.cwd disk after := by
  induction rest generalizing before found disk with
  | nil =>
    have moved : found = true := more.resolve_right List.not_mem_nil
    rw [smartCreateFrom, moved, if_neg (fun h => Bool.noConfusion h.1)]
    exact ⟨disk, rfl, .done disk⟩
  | cons c rest ih =>
    have whole : directory = before ++ [c] ++ rest := by rw [split, List.append_assoc, List.singleton_append]
    rw [smartCreateFrom]
    by_cases slash : c = 47
    · subst slash
      rw [if_pos rfl]
      by_cases nonempty : before = []
      · rw [if_pos nonempty]
        exact ih whole (Or.inl rfl) disk
      · rw [if_neg nonempty]
        have made := made_createSingleDir nonempty disk
        obtain ⟨after, result, rest⟩ := ih whole (Or.inl rfl) (createSingleDir mkdirOn before disk).2
        rw [made.cwd] at rest
        exact ⟨after, result, .make ⟨before, nonempty, ⟨_, whole.symm⟩, rfl⟩ made rest⟩
    · rw [if_neg slash]
      refine ih whole (more.imp_right fun mem => ?_) disk
      exact (List.mem_cons.mp mem).resolve_left (Ne.symm slash)

/-! ### When all of them can be made -/

theorem isFolder_parent (disk : Disk) {name : Bytes} {parent : FolderPath}
    (h : isFolder disk.node (name :: parent) = true) : isFolder disk.node parent = true := by
  obtain ⟨writable, here⟩ := isFolder_iff.mp h
  exact disk.closed name parent (by rw [here]; exact Option.some_ne_none _)

theorem isFolder_startOf (disk : Disk) (path : Bytes) : isFolder disk.node (startOf disk.cwd path) = true := by
  rw [startOf]
  split
  · exact disk.root
  · exact disk.inFolder

/-- At the end of a way through folders there is a folder, or something that would lie in one. -/
theorem walk_of_passed (disk : Disk) {stack : FolderPath} (start : isFolder disk.node stack = true) {component path : Bytes}
    (passed : ∀ p ∈ way 47 46 true stack component path, isFolder disk.node p = true) :
    isFolder disk.node (walk 47 46 true stack component path) = true ∨ ∃ name parent,
      walk 47 46 true stack component path = name :: parent ∧ isFolder disk.node parent = true := by
  induction path generalizing stack component with
  | nil =>
    rw [walk]
    unfold enter
    split
    case isTrue => exact Or.inl start
    case isFalse =>
      split
      case isFalse => exact Or.inr ⟨component, stack, rfl, start⟩
      case isTrue =>
        cases stack with
        | nil => exact Or.inl disk.root
        | cons top rest =>
          -- `..` goes back to the parent, unless that is a `..` itself
          by_cases dots : top = [46, 46]
          · simp only [if_pos dots]
            exact Or.inr ⟨component, top :: rest, rfl, start⟩
          · simp only [if_neg dots]
            exact Or.inl (isFolder_parent disk start)
  | cons c path ih =>
    rw [way] at passed
    rw [walk]
    split
    case isTrue slash =>
      rw [if_pos slash] at passed
      exact ih (passed _ List.mem_cons_self) fun p mem => passed p (List.mem_cons_of_mem _ mem)
    case isFalse other =>
      rw [if_neg other] at passed
      exact ih start passed

/-- A folder in front of a slash is there afterwards if it is allowed and the way to it is there. -/
theorem isFolder_createSingleDir {disk : Disk} {before : Bytes} (nonempty : before ≠ [])
    (short : before.length < pathMax) (passed : ∀ p ∈ wayTo disk.cwd before, isFolder disk.node p = true)
    (allows : Allows disk.node (folderOf disk.cwd before)) :
    isFolder (createSingleDir mkdirOn before disk).2.node (folderOf disk.cwd before) = true := by
  have made := made_createSingleDir nonempty disk
  obtain here | ⟨missing, name, parent, isChild, fits, writable⟩ := allows
  · exact made.isFolder here
  by_cases slash : before.getLast? = some 47
  · -- behind a double slash the folder was passed, so it is not missing
    refine made.isFolder ?_
    obtain ⟨front, rfl⟩ := List.getLast?_eq_some_iff.mp slash
    by_cases empty : front = []
    · subst empty
      exact disk.root
    · have same : folderOf disk.cwd (front ++ [47]) = folderOf disk.cwd front := by
        rw [folderOf, folderOf, startOf_append empty, walk_concat_sep]
      rw [same]
      refine passed _ ?_
      rw [wayTo_append_slash empty]
      exact List.mem_append_right _ (List.mem_singleton_self _)
  · have bare : before.rdropWhile (· == 47) = before := by
      rw [List.rdropWhile_eq_self_iff]
      intro _ last
      exact slash (by rw [List.getLast?_eq_some_getLast nonempty]; simpa using last)
    have way : (wayTo disk.cwd before).all (isFolder disk.node) = true := List.all_eq_true.mpr passed
    have may : mayMake disk.node (folderOf disk.cwd before) = true := by
      -- the parent is the folder the way leads to
      have atEnd := walk_of_passed disk (isFolder_startOf disk before) passed
      rw [show walk 47 46 true (startOf disk.cwd before) [] before = name :: parent from isChild] at atEnd
      have inFolder : isFolder disk.node parent = true := by
        obtain here | ⟨_, _, same, inFolder⟩ := atEnd
        · exact isFolder_parent disk here
        · cases same
          exact inFolder
      obtain ⟨_, there⟩ := isFolder_iff.mp inFolder
      have isWritable := writable.resolve_left (by rw [there]; exact Option.some_ne_none _)
      rw [isChild]
      exact decide_eq_true ⟨fits, isWritable⟩
    have made : mkdirOn before disk = (.made, disk.add (folderOf disk.cwd before) may) := by
      rw [mkdirOn_eq nonempty bare, if_neg (by omega), way, if_neg Bool.false_ne_true.symm,
        if_neg (not_not_intro missing), dif_pos may]
    rw [createSingleDir, if_neg slash, made]
    exact isFolder_iff.mpr ⟨true, addFolder_self _ _⟩

/-- The loop makes all folders on the way that are allowed. -/
theorem isFolder_smartCreateFrom {directory before rest : Bytes} (short : (before ++ rest).length < pathMax)
    {found : Bool} (more : found = true ∨ 47 ∈ rest) {disk : Disk}
    (passed : ∀ p ∈ wayTo disk.cwd before, isFolder disk.node p = true)
    (allows : ∀ p ∈ wayTo disk.cwd (before ++ rest), Allows disk.node p) :
    ∀ p ∈ wayTo disk.cwd (before ++ rest),
      isFolder (smartCreateFrom mkdirOn dirExistsOn directory before rest found disk).2.node p = true := by
  induction rest generalizing before found disk with
  | nil =>
    have moved : found = true := more.resolve_right List.not_mem_nil
    rw [smartCreateFrom, moved, if_neg (fun h => Bool.noConfusion h.1), List.append_nil]
    exact passed
  | cons c rest ih =>
    have whole : before ++ c :: rest = before ++ [c] ++ rest := by rw [List.append_assoc, List.singleton_append]
    rw [whole] at short allows ⊢
    rw [smartCreateFrom]
    by_cases slash : c = 47
    · subst slash
      rw [if_pos rfl]
      -- in front of the first byte there is only the root
      by_cases nonempty : before = []
      · rw [if_pos nonempty]
        refine ih short (Or.inl rfl) ?_ allows
        intro p mem
        subst nonempty
        rw [List.mem_singleton.mp mem]
        exact disk.root
      · rw [if_neg nonempty]
        -- the text in front of this slash is made in this round
        have made := made_createSingleDir nonempty disk
        have here : folderOf disk.cwd before ∈ wayTo disk.cwd (before ++ [47] ++ rest) := by
          refine wayTo_subset_append (by simp) rest ?_
          rw [wayTo_append_slash nonempty]
          exact List.mem_append_right _ (List.mem_singleton_self _)
        have shortHere : before.length < pathMax := by
          rw [List.length_append, List.length_append] at short
          omega
        have now := isFolder_createSingleDir nonempty shortHere passed (allows _ here)
        rw [← made.cwd] at passed allows ⊢
        refine ih short (Or.inl rfl) ?_ fun p mem => (made.allows_iff p).mpr (allows p mem)
        intro p mem
        rw [wayTo_append_slash nonempty, List.mem_append, List.mem_singleton] at mem
        cases mem with
        | inl old => exact made.isFolder (passed p old)
        | inr new =>
          rw [new, made.cwd]
          exact now
    · have noSep : 47 ∉ [c] := by simpa using Ne.symm slash
      rw [if_neg slash]
      refine ih short (more.imp_right fun mem => ?_) ?_ allows
      · exact (List.mem_cons.mp mem).resolve_left (Ne.symm slash)
      · rwa [wayTo_append_of_noSep noSep]

end BackupSuite.CtrlCenter
