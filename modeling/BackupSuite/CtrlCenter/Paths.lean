import Mathlib.Data.List.DropRight
import BackupSuite.Library.LexicalPath
import BackupSuite.CtrlCenter.CompressFile

/-! # Path strings

The normalisation that `main` applies to its folders, the folder that is cut off a file
path (which goes through the same normalisation first), and which folder a path names.
-/

namespace BackupSuite.CtrlCenter

open BackupSuite.Library

/-- `replaceAll` for two strings of one character, as it is called. -/
def replaceAll (input : Bytes) (searchFor replaceBy : UInt8) : Bytes :=
  input.map fun c => if c = searchFor then replaceBy else c

theorem replaceAll_of_not_mem {path : Bytes} {searchFor : UInt8} (notIn : searchFor ∉ path)
    (replaceBy : UInt8) : replaceAll path searchFor replaceBy = path := by
  have kept : ∀ c ∈ path, (if c = searchFor then replaceBy else c) = c := by
    intro c mem
    refine if_neg ?_
    rintro rfl
    exact notIn mem
  rw [replaceAll, List.map_congr_left kept, List.map_id']

/-- `" \t\n\r\f\v"` -/
def ws (c : UInt8) : Bool := c == 32 || c == 9 || c == 10 || c == 13 || c == 12 || c == 11

def rtrim (s : Bytes) : Bytes := s.rdropWhile ws

def ltrim (s : Bytes) : Bytes := s.dropWhile ws

def trim (s : Bytes) : Bytes := ltrim (rtrim s)

def normalizeFilePath (input : Bytes) : Bytes := trim (replaceAll input 92 47)

def normalizeDirPath (input : Bytes) : Bytes :=
  let retStr := normalizeFilePath input
  if retStr.getLast? ≠ some 47 then retStr ++ [47] else retStr

/-- Everything up to the last slash. -/
def extractFolderFromFilePath (input : Bytes) : Bytes :=
  (normalizeFilePath input).rdropWhile (· != 47)

/-- `while( !src.empty() && (src.back() == '/' || src.back() == '\\') ) src.pop_back();` -/
def stripSeparators (src : Bytes) : Bytes := src.rdropWhile fun c => c == 47 || c == 92

/-! ## What the normalisation leaves -/

theorem getLast_normalizeDirPath (input : Bytes) : (normalizeDirPath input).getLast? = some 47 := by
  rw [normalizeDirPath]
  split
  · simp
  · rename_i slash
    exact Classical.not_not.mp slash

theorem stops_ltrim (s : Bytes) : Stops ws (ltrim s) := stops_advance ws s

theorem stops_normalizeDirPath (input : Bytes) : Stops ws (normalizeDirPath input) := by
  have trimmed : Stops ws (normalizeFilePath input) := stops_ltrim _
  rw [normalizeDirPath]
  split
  · exact Stops.append trimmed (stops_cons.mpr rfl)
  · exact trimmed

theorem no_backslash_normalizeDirPath (argument : Bytes) : 92 ∉ normalizeDirPath argument := by
  have replaced : 92 ∉ replaceAll argument 92 47 := by
    rw [replaceAll, List.mem_map]
    rintro ⟨c, -, isBackslash⟩
    split at isBackslash
    · cases isBackslash
    · contradiction
  have trimmed : normalizeFilePath argument <:+: replaceAll argument 92 47 :=
    (List.dropWhile_suffix _).isInfix.trans (List.rdropWhile_prefix _ _).isInfix
  have normalized : 92 ∉ normalizeFilePath argument := fun mem => replaced (trimmed.subset mem)
  rw [normalizeDirPath]
  split
  · simpa using normalized
  · exact normalized

theorem stripSeparators_isFront (src : Bytes) : stripSeparators src <+: src := List.rdropWhile_prefix _ src

theorem exists_rdropWhile (p : UInt8 → Bool) (s : Bytes) :
    ∃ dropped, s = s.rdropWhile p ++ dropped ∧ ∀ c ∈ dropped, p c = true :=
  ⟨s.rtakeWhile p, List.rdropWhile_append_rtakeWhile.symm, fun _ => List.mem_rtakeWhile_imp⟩

/-! ## The folder that a path names -/

/-- A folder: its names, innermost first. -/
abbrev FolderPath := List Bytes

/-- Where a path starts. -/
def startOf (cwd : FolderPath) (path : Bytes) : FolderPath := if path.head? = some 47 then [] else cwd

def folderOf (cwd : FolderPath) (path : Bytes) : FolderPath := walk 47 46 true (startOf cwd path) [] path

def wayTo (cwd : FolderPath) (path : Bytes) : List FolderPath := way 47 46 true (startOf cwd path) [] path

/-! ## The folders on the way to a path -/

variable {cwd : FolderPath}

theorem startOf_append {before : Bytes} (nonempty : before ≠ []) (rest : Bytes) :
    startOf cwd (before ++ rest) = startOf cwd before := by
  cases before with
  | nil => exact absurd rfl nonempty
  | cons c before => rfl

theorem wayTo_append_of_noSep {name : Bytes} (noSep : 47 ∉ name) (before : Bytes) :
    wayTo cwd (before ++ name) = wayTo cwd before := by
  cases before with
  | nil => exact way_of_noSep noSep true _ []
  | cons c before => exact way_append_of_noSep noSep true _ [] (c :: before)

theorem wayTo_append_slash {before : Bytes} (nonempty : before ≠ []) :
    wayTo cwd (before ++ [47]) = wayTo cwd before ++ [folderOf cwd before] := by
  rw [wayTo, startOf_append nonempty, way_append_sep]
  rfl

theorem wayTo_subset_append {before : Bytes} (nonempty : before ≠ []) (rest : Bytes) {folder : FolderPath}
    (mem : folder ∈ wayTo cwd before) : folder ∈ wayTo cwd (before ++ rest) := by
  rw [wayTo, startOf_append nonempty]
  exact (way_isFront true _ [] before rest).subset mem

end BackupSuite.CtrlCenter
