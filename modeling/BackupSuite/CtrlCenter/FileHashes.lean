import BackupSuite.Library.KeyedList
import BackupSuite.CtrlCenter.ParseBuffer

/-! # `FileHashes`: comparing and merging entry lists

The member functions as the code has them, by index, and what they are in terms
of first-match lookup: `compareToFileHashes` asks `lookup` for the stored hash,
and `mergeUpdates` is `putAll`.
-/

namespace BackupSuite.CtrlCenter

open BackupSuite.Library

/-- The index of the first entry with the path, or `-1`. -/
def findIndexToFile (mFileEntries : List FileEntry) (path : Bytes) : Int :=
  match mFileEntries.findIdx? (fun e => path == e.mPath) with
  | some curIndex => curIndex
  | none => -1

inductive CompareResult where
  | eSame
  | eChanged
  | eNew
deriving DecidableEq, Repr

def compareEntry (entry : FileEntry) (otherFiles : List FileEntry) : CompareResult :=
  let otherFileIndex := findIndexToFile otherFiles entry.mPath
  if otherFileIndex = -1 then .eNew
  else
    match otherFiles[otherFileIndex.toNat]? with
    | some other => if entry.mHashValue = other.mHashValue then .eSame else .eChanged
    | none => .eNew

def compareToFileHashes (mFileEntries otherFiles : List FileEntry) : List CompareResult :=
  mFileEntries.map fun entry => compareEntry entry otherFiles

/-- One turn of the loop in `mergeUpdates`. -/
def mergeEntry (mFileEntries : List FileEntry) (otherEntry : FileEntry) : List FileEntry :=
  let fileIndex := findIndexToFile mFileEntries otherEntry.mPath
  if fileIndex = -1 then mFileEntries ++ [otherEntry]
  else mFileEntries.set fileIndex.toNat otherEntry

def mergeUpdates (mFileEntries otherFiles : List FileEntry) : List FileEntry :=
  otherFiles.foldl mergeEntry mFileEntries

/-! ## The index loop is first-match lookup -/

theorem findIndexToFile_cons (e : FileEntry) (l : List FileEntry) (path : Bytes) :
    findIndexToFile (e :: l) path =
      if e.mPath = path then 0
      else if findIndexToFile l path = -1 then -1 else findIndexToFile l path + 1 := by
  by_cases here : e.mPath = path
  · simp [findIndexToFile, List.findIdx?_cons, here]
  · have notHere : (path == e.mPath) = false := by simpa using Ne.symm here
    rw [if_neg here]
    -- the other index counts from the tail
    unfold findIndexToFile
    rw [List.findIdx?_cons, notHere]
    cases l.findIdx? (fun e => path == e.mPath) with
    | none => simp
    | some i =>
      have found : (i : Int) ≠ -1 := by omega
      simp [found]

theorem findIndexToFile_range (l : List FileEntry) (path : Bytes) :
    findIndexToFile l path = -1 ∨ 0 ≤ findIndexToFile l path := by
  rw [findIndexToFile]
  split
  · exact Or.inr (by omega)
  · exact Or.inl rfl

theorem findIndexToFile_eq_neg_one {l : List FileEntry} {path : Bytes} :
    findIndexToFile l path = -1 ↔ lookup FileEntry.mPath path l = none := by
  induction l with
  | nil => simp [findIndexToFile]
  | cons e l ih =>
    rw [findIndexToFile_cons, lookup_cons]
    by_cases here : e.mPath = path
    · simp [here]
    · rw [if_neg here, if_neg here, ← ih]
      cases findIndexToFile_range l path with
      | inl absent => simp [absent]
      | inr found =>
        rw [if_neg (by omega)]
        omega

theorem getElem_findIndexToFile {l : List FileEntry} {path : Bytes}
    (found : findIndexToFile l path ≠ -1) :
    l[(findIndexToFile l path).toNat]? = lookup FileEntry.mPath path l := by
  induction l with
  | nil => exact absurd rfl found
  | cons e l ih =>
    rw [findIndexToFile_cons] at found ⊢
    rw [lookup_cons]
    by_cases here : e.mPath = path
    · simp [here]
    · rw [if_neg here] at found ⊢
      rw [if_neg here]
      by_cases absent : findIndexToFile l path = -1
      · rw [if_pos absent] at found
        exact absurd rfl found
      · -- one further than in the tail, where the induction hypothesis looks
        have range := (findIndexToFile_range l path).resolve_left absent
        rw [if_neg absent, Int.toNat_add range (by omega)]
        simpa using ih absent

/-- The three-way classification, by the hash the other list gives for the path. -/
theorem compareEntry_eq (entry : FileEntry) (otherFiles : List FileEntry) :
    compareEntry entry otherFiles =
      match lookup FileEntry.mPath entry.mPath otherFiles with
      | none => .eNew
      | some other => if entry.mHashValue = other.mHashValue then .eSame else .eChanged := by
  rw [compareEntry]
  by_cases absent : findIndexToFile otherFiles entry.mPath = -1
  · simp [absent, findIndexToFile_eq_neg_one.mp absent]
  · simp only [if_neg absent, getElem_findIndexToFile absent]
    cases lookup FileEntry.mPath entry.mPath otherFiles <;> rfl

theorem compareEntry_eq_eSame {entry : FileEntry} {otherFiles : List FileEntry} :
    compareEntry entry otherFiles = .eSame ↔
      ∃ other, lookup FileEntry.mPath entry.mPath otherFiles = some other ∧
        other.mHashValue = entry.mHashValue := by
  rw [compareEntry_eq]
  cases lookup FileEntry.mPath entry.mPath otherFiles with
  | none => simp
  | some other =>
    by_cases h : entry.mHashValue = other.mHashValue
    · simp [h]
    · simp [h, Ne.symm h]

theorem mergeEntry_eq_put (mFileEntries : List FileEntry) (otherEntry : FileEntry) :
    mergeEntry mFileEntries otherEntry = put FileEntry.mPath otherEntry mFileEntries := by
  induction mFileEntries with
  | nil => rfl
  | cons e l ih =>
    rw [mergeEntry] at ih ⊢
    rw [findIndexToFile_cons, put]
    by_cases here : e.mPath = otherEntry.mPath
    · simp [here]
    · rw [if_neg here, if_neg here, ← ih]
      cases findIndexToFile_range l otherEntry.mPath with
      | inl absent => simp [absent]
      | inr found =>
        -- the index of the tail and the one after it are both found ones
        have present : findIndexToFile l otherEntry.mPath ≠ -1 := by omega
        have next : findIndexToFile l otherEntry.mPath + 1 ≠ -1 := by omega
        simp only [if_neg present, if_neg next, Int.toNat_add found (by omega : (0 : Int) ≤ 1)]
        simp

theorem mergeUpdates_eq_putAll (mFileEntries otherFiles : List FileEntry) :
    mergeUpdates mFileEntries otherFiles = putAll FileEntry.mPath otherFiles mFileEntries := by
  unfold mergeUpdates putAll
  congr 1
  funext l e
  exact mergeEntry_eq_put l e

/-- The second of the two merges in `createOrUpdateArchive` changes nothing. -/
theorem mergeUpdates_idem (mFileEntries otherFiles : List FileEntry) :
    mergeUpdates (mergeUpdates mFileEntries otherFiles) otherFiles =
      mergeUpdates mFileEntries otherFiles := by
  simp only [mergeUpdates_eq_putAll, putAll_idem]

/-- `R` is `F` merged into `D` in order, and the last writer of a path wins. -/
structure OrderedMerge (D F R : List FileEntry) : Prop where
  lookup : ∀ path, lookup FileEntry.mPath path R =
    (lastWith FileEntry.mPath path F).or (lookup FileEntry.mPath path D)
  /-- the paths of `D` in their places, and behind them the new ones -/
  paths : R.map FileEntry.mPath = D.map FileEntry.mPath ++
    (firstOccurrences (F.map FileEntry.mPath)).filter (· ∉ D.map FileEntry.mPath)
  once : ∀ path ∈ F.map FileEntry.mPath, path ∉ D.map FileEntry.mPath → (R.map FileEntry.mPath).count path = 1
  unchanged : ∀ (i : Nat) (e : FileEntry), D[i]? = some e → e.mPath ∉ F.map FileEntry.mPath → R[i]? = some e
  again : mergeUpdates R F = R

theorem mergeUpdates_ordered (mFileEntries otherFiles : List FileEntry) :
    OrderedMerge mFileEntries otherFiles (mergeUpdates mFileEntries otherFiles) := by
  have paths : (mergeUpdates mFileEntries otherFiles).map FileEntry.mPath = mFileEntries.map FileEntry.mPath ++
      (firstOccurrences (otherFiles.map FileEntry.mPath)).filter (· ∉ mFileEntries.map FileEntry.mPath) := by
    rw [mergeUpdates_eq_putAll, keys_putAll_eq]
    exact congrArg _ (List.filter_congr fun path _ => decide_eq_decide.mpr Iff.rfl)
  refine ⟨fun path => ?_, paths, fun path new notOld => ?_, fun i e here notNew => ?_,
    mergeUpdates_idem mFileEntries otherFiles⟩
  · rw [mergeUpdates_eq_putAll, lookup_putAll]
  · -- a new path is in the second part, which has no duplicates
    have added : path ∈ (mergeUpdates mFileEntries otherFiles).map FileEntry.mPath := by
      rw [mergeUpdates_eq_putAll]
      exact mem_keys_putAll (Or.inl new)
    rw [paths, List.mem_append] at added
    have nodup := (nodup_firstOccurrences (otherFiles.map FileEntry.mPath)).filter
      (fun path => decide (path ∉ mFileEntries.map FileEntry.mPath))
    rw [paths, List.count_append, List.count_eq_zero_of_not_mem notOld, Nat.zero_add]
    exact List.count_eq_one_of_mem nodup (added.resolve_left notOld)
  · rw [mergeUpdates_eq_putAll]
    exact getElem?_putAll here notNew

end BackupSuite.CtrlCenter
