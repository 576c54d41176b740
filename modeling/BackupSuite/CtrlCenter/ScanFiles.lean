import Mathlib.Algebra.GroupWithZero.Nat
import BackupSuite.Library.WorkList
import BackupSuite.CtrlCenter.Paths

/-! # The scan for files

`createOrUpdateArchive` keeps the folders it has still to list as path strings on a
stack.  `tinydir` drops the slashes and backslashes at the end of the string it is given
before it opens the folder, so a folder whose name ends in a backslash is taken for
another one: `folderOpened_child` says for which.
-/

namespace BackupSuite.CtrlCenter

open BackupSuite.Library

/-! ## The file system -/

/-- What `readdir` and `fstatat` give for one name. -/
structure DirEntry where
  name : Bytes
  isDir : Bool
  size : Nat
deriving DecidableEq, Repr

/-- Folders and regular files, without links; `listing` has the entries of a folder in the
order in which `readdir` gives them. -/
structure FileSystem where
  listing : FolderPath → Option (List DirEntry)
  root : listing [] ≠ none
  depth : Nat
  bounded : ∀ folder, depth < folder.length → listing folder = none
  distinct : ∀ folder entries, listing folder = some entries → (entries.map DirEntry.name).Nodup
  names : ∀ folder entries, listing folder = some entries →
    ∀ e ∈ entries, IsName 47 46 e.name ∧ 0 ∉ e.name
  isFolder : ∀ folder name, listing (name :: folder) ≠ none ↔
    ∃ entries, listing folder = some entries ∧ ∃ e ∈ entries, e.name = name ∧ e.isDir = true

namespace FileSystem

variable (fs : FileSystem)

theorem length_le {folder : FolderPath} {entries : List DirEntry}
    (h : fs.listing folder = some entries) : folder.length ≤ fs.depth := by
  by_contra deep
  rw [fs.bounded folder (by omega)] at h
  cases h

/-- From the folders below to a folder; the folders are not infinitely deep. -/
theorem induction {P : FolderPath → Prop} (missing : ∀ folder, fs.listing folder = none → P folder)
    (step : ∀ folder entries, fs.listing folder = some entries → (∀ name, P (name :: folder)) →
      P folder) (folder : FolderPath) : P folder := by
  induction h : fs.depth + 1 - folder.length generalizing folder with
  | zero => exact missing folder (fs.bounded folder (by omega))
  | succ n ih =>
    cases listed : fs.listing folder with
    | none => exact missing folder listed
    | some entries =>
      refine step folder entries listed fun name => ih (name :: folder) ?_
      rw [List.length_cons]
      omega

/-- The regular files below a folder: the names on the way to each, and its size. -/
def filesBelow (folder : FolderPath) : List (List Bytes × Nat) :=
  match _listed : fs.listing folder with
  | none => []
  | some entries =>
    entries.flatMap fun e =>
      if e.isDir then (filesBelow (e.name :: folder)).map fun f => (e.name :: f.1, f.2)
      else [([e.name], e.size)]
termination_by fs.depth + 1 - folder.length
decreasing_by
  have := fs.length_le _listed
  rw [List.length_cons]
  omega

/-- What an entry of a folder contributes. -/
def entryFiles (folder : FolderPath) (e : DirEntry) : List (List Bytes × Nat) :=
  if e.isDir then (fs.filesBelow (e.name :: folder)).map fun f => (e.name :: f.1, f.2)
  else [([e.name], e.size)]

theorem filesBelow_of_none {folder : FolderPath} (h : fs.listing folder = none) :
    fs.filesBelow folder = [] := by
  rw [filesBelow]
  split
  · rfl
  · rename_i listed
    rw [h] at listed
    cases listed

theorem filesBelow_of_some {folder : FolderPath} {entries : List DirEntry}
    (h : fs.listing folder = some entries) :
    fs.filesBelow folder = entries.flatMap (fs.entryFiles folder) := by
  rw [filesBelow]
  split
  · rename_i listed
    rw [h] at listed
    cases listed
  · rename_i listed
    rw [h] at listed
    cases listed
    rfl

end FileSystem

/-! ## `tinydir` and the loop -/

section

variable (fs : FileSystem) (cwd : FolderPath)

/-- Calls `yield` for each entry, unless `opendir` fails. -/
def tinydir {σ : Type} (directory : Bytes) (yield : σ → Bytes → Bool → Nat → σ) (s : σ) : σ :=
  let src := stripSeparators directory
  match fs.listing (folderOf cwd (src ++ [47])) with
  | none => s
  | some entries => entries.foldl (fun s ep => yield s (src ++ 47 :: ep.name) ep.isDir ep.size) s

/-- The variables of the scan; the back of the vector `recursiveFolders` comes first. -/
structure ScanState where
  recursiveFolders : List Bytes
  filesToProcess : List Bytes
  inputSetSize : UInt64
deriving DecidableEq, Repr

/-- The callback of the scan. -/
def ScanState.callback (s : ScanState) (name : Bytes) (isDir : Bool) (fileSize : Nat) : ScanState :=
  if isDir then { s with recursiveFolders := name :: s.recursiveFolders }
  else { s with
    filesToProcess := s.filesToProcess ++ [name]
    inputSetSize := s.inputSetSize + UInt64.ofNat fileSize }

/-- `while(recursiveFolders.size() != 0)`, for at most `fuel` turns. -/
def scanLoop : Nat → ScanState → Option ScanState
  | 0, _ => none
  | fuel + 1, s =>
    match s.recursiveFolders with
    | [] => some s
    | back :: rest =>
      scanLoop fuel (tinydir fs cwd (back ++ [47]) ScanState.callback { s with recursiveFolders := rest })

/-- The state in front of the loop. -/
def scanStart (inputFolder : Bytes) : ScanState := ⟨[inputFolder], [], 0⟩

/-! ## The loop is a worklist -/

/-- The folder that is opened for a string on the stack. -/
def folderOpened (path : Bytes) : FolderPath := folderOf cwd (stripSeparators path ++ [47])

/-- The folders and the files that listing a string finds. -/
def listFolder (path : Bytes) : List Bytes × List (Bytes × Nat) :=
  match fs.listing (folderOpened cwd path) with
  | none => ([], [])
  | some entries =>
    ((entries.filter (·.isDir)).map fun e => stripSeparators path ++ 47 :: e.name,
      (entries.filter (!·.isDir)).map fun e => (stripSeparators path ++ 47 :: e.name, e.size))

/-- The state for what is on the stack and what was found. -/
def scanState (stack : List Bytes) (found : List (Bytes × Nat)) : ScanState :=
  ⟨stack, found.map Prod.fst, UInt64.ofNat (found.map Prod.snd).sum⟩

end

variable {fs : FileSystem} {cwd : FolderPath}

theorem foldl_callback (src : Bytes) (entries : List DirEntry) (stack : List Bytes)
    (found : List (Bytes × Nat)) :
    entries.foldl (fun s ep => ScanState.callback s (src ++ 47 :: ep.name) ep.isDir ep.size)
        (scanState stack found) =
      scanState (((entries.filter (·.isDir)).map fun e => src ++ 47 :: e.name).reverse ++ stack)
        (found ++ (entries.filter (!·.isDir)).map fun e => (src ++ 47 :: e.name, e.size)) := by
  induction entries generalizing stack found with
  | nil => simp
  | cons e entries ih =>
    rw [List.foldl_cons]
    cases isDir : e.isDir with
    | true =>
      have pushed : ScanState.callback (scanState stack found) (src ++ 47 :: e.name) true e.size =
          scanState ((src ++ 47 :: e.name) :: stack) found := rfl
      rw [pushed, ih]
      simp [isDir]
    | false =>
      have kept : ScanState.callback (scanState stack found) (src ++ 47 :: e.name) false e.size =
          scanState stack (found ++ [(src ++ 47 :: e.name, e.size)]) := by
        simp [ScanState.callback, scanState, UInt64.ofNat_add]
      rw [kept, ih]
      simp [isDir]

theorem stripSeparators_slash (path : Bytes) : stripSeparators (path ++ [47]) = stripSeparators path :=
  List.rdropWhile_concat_pos _ _ _ rfl

theorem tinydir_callback (back : Bytes) (stack : List Bytes) (found : List (Bytes × Nat)) :
    tinydir fs cwd (back ++ [47]) ScanState.callback (scanState stack found) =
      scanState ((listFolder fs cwd back).1.reverse ++ stack) (found ++ (listFolder fs cwd back).2) := by
  rw [tinydir, listFolder, stripSeparators_slash, folderOpened]
  cases fs.listing (folderOf cwd (stripSeparators back ++ [47])) with
  | none => simp
  | some entries => exact foldl_callback _ entries stack found

theorem scanLoop_eq (fuel : Nat) (stack : List Bytes) (found : List (Bytes × Nat)) :
    scanLoop fs cwd fuel (scanState stack found) =
      (drain (listFolder fs cwd) fuel stack found).map (scanState []) := by
  induction fuel generalizing stack found with
  | zero => rfl
  | succ fuel ih =>
    cases stack with
    | nil => rfl
    | cons back rest =>
      rw [scanLoop, drain, ← ih, ← tinydir_callback]
      rfl

/-- The scan ends with exactly what working off its stack finds. -/
theorem scanLoop_eq_some_iff {inputFolder : Bytes} {s : ScanState} :
    (∃ fuel, scanLoop fs cwd fuel (scanStart inputFolder) = some s) ↔
      ∃ found, Drains (listFolder fs cwd) [inputFolder] found ∧ s = scanState [] found := by
  have start : scanStart inputFolder = scanState [inputFolder] [] := rfl
  simp only [start, scanLoop_eq, Option.map_eq_some_iff]
  constructor
  · rintro ⟨fuel, found, ended, rfl⟩
    obtain ⟨part, drains, same⟩ := drain_eq_some_iff.mp ⟨fuel, ended⟩
    exact ⟨part, drains, by rw [same, List.nil_append]⟩
  · rintro ⟨found, drains, rfl⟩
    obtain ⟨fuel, ended⟩ := drain_eq_some_iff.mpr ⟨found, drains, (List.nil_append found).symm⟩
    exact ⟨fuel, found, ended, rfl⟩

/-! ## Which folder a string opens -/

/-- What is left of a name at the end of a string that `tinydir` is given. -/
def bare (name : Bytes) : Bytes := name.rdropWhile (· == 92)

theorem bare_isFront (name : Bytes) : bare name <+: name := List.rdropWhile_prefix _ name

@[simp] theorem bare_bare (name : Bytes) : bare (bare name) = bare name := List.rdropWhile_idempotent _ name

theorem noSep_bare {name : Bytes} (noSep : 47 ∉ name) : 47 ∉ bare name :=
  fun mem => noSep ((bare_isFront name).subset mem)

theorem rdropWhile_append_of_all {p : UInt8 → Bool} {dropped : Bytes} (all : ∀ c ∈ dropped, p c = true)
    (s : Bytes) : (s ++ dropped).rdropWhile p = s.rdropWhile p := by
  rw [List.rdropWhile, List.reverse_append, List.dropWhile_append_of_pos, List.rdropWhile]
  exact fun c mem => all c (List.mem_reverse.mp mem)

theorem stripSeparators_child (path : Bytes) {name : Bytes} (noSep : 47 ∉ name) :
    stripSeparators (stripSeparators path ++ 47 :: name) =
      if bare name = [] then stripSeparators path else stripSeparators path ++ 47 :: bare name := by
  obtain ⟨dropped, split, backslashes⟩ := exists_rdropWhile (· == 92) name
  rw [← bare] at split
  have separators : ∀ c ∈ dropped, (c == 47 || c == 92) = true := fun c mem => by
    simp [backslashes c mem]
  have atBare : stripSeparators (stripSeparators path ++ 47 :: name) =
      stripSeparators (stripSeparators path ++ 47 :: bare name) := by
    conv => lhs; rw [split, ← List.cons_append, ← List.append_assoc]
    exact rdropWhile_append_of_all separators _
  rw [atBare]
  split
  case isTrue empty =>
    rw [empty, stripSeparators_slash]
    exact List.rdropWhile_idempotent _ path
  case isFalse nonempty =>
    -- the last letter is neither a backslash nor a slash
    refine List.rdropWhile_eq_self_iff.mpr fun _ => ?_
    have last : (stripSeparators path ++ 47 :: bare name).getLast (by simp) = (bare name).getLast nonempty := by
      simp [nonempty]
    rw [last, Bool.or_eq_true, not_or]
    have notBackslash : ¬ ((bare name).getLast nonempty == 92) = true := List.rdropWhile_last_not _ name nonempty
    have notSlash : (bare name).getLast nonempty ≠ 47 := by
      intro slash
      exact noSep_bare noSep (slash ▸ List.getLast_mem nonempty)
    exact ⟨by simpa using notSlash, notBackslash⟩

theorem folderOf_child (path : Bytes) {name : Bytes} (noSep : 47 ∉ name) :
    folderOf cwd (path ++ 47 :: name ++ [47]) = enter 46 true (folderOf cwd (path ++ [47])) name := by
  have start : startOf cwd (path ++ 47 :: name ++ [47]) = startOf cwd (path ++ [47]) := by
    cases path <;> rfl
  rw [folderOf, folderOf, start, walk_concat_sep, walk_concat_sep, walk_append_sep,
    walk_of_noSep noSep, List.nil_append]

theorem folderOpened_child (path : Bytes) {name : Bytes} (noSep : 47 ∉ name) :
    folderOpened cwd (stripSeparators path ++ 47 :: name) =
      enter 46 true (folderOpened cwd path) (bare name) := by
  rw [folderOpened, stripSeparators_child path noSep]
  split
  case isTrue empty =>
    rw [empty]
    simp [enter, folderOpened]
  case isFalse => exact folderOf_child _ (noSep_bare noSep)

end BackupSuite.CtrlCenter
