import BackupSuite.CtrlCenter.IncrementalLaw

/-! # Rebuilding the database from the output folders

Create runs merge what they hold in memory into the database; the rebuild merges
the lists they wrote, one folder after the other.  Both put the same stored entries
into the same lines, so they leave the same file.
-/

namespace BackupSuite.CtrlCenter

open BackupSuite.Library

/-- A merge run in which every call succeeds. -/
structure MergeRun where
  unittestPath : Bytes
  mainBehind : Bytes
  behind : Bytes

namespace MergeRun

def io (m : MergeRun) : RunOutcomes :=
  ⟨.faultless m.mainBehind, .faultless m.behind, .faultless, .faultless⟩

def perform (m : MergeRun) (filehashesFile databaseFile : Option Bytes) : MergeEnd :=
  mergeMode false m.unittestPath m.io filehashesFile databaseFile

/-- A merge run puts the listed entries into the old ones, under any prefix. -/
theorem perform_of_encodes (m : MergeRun) {filehashesFile databaseFile : Option Bytes}
    {fs es : List FileEntry} (list : Encodes filehashesFile fs) (listFits : Fits (fileText fs))
    (database : Encodes databaseFile es) (fits : Fits (fileText es)) :
    m.perform filehashesFile databaseFile =
      ⟨none, true, some (fileText (putAll FileEntry.mPath fs es))⟩ := by
  obtain ⟨found, load⟩ := database.load fits m.unittestPath m.mainBehind
  obtain ⟨listFound, listLoad⟩ := list.load listFits m.unittestPath m.behind
  have saved : savedText m.unittestPath
      ((putAll FileEntry.mPath fs es).map (loadedEntry m.unittestPath)) =
      fileText (putAll FileEntry.mPath fs es) := by rw [savedText, map_storedEntry_loadedEntry]
  simp only [perform, mergeMode, mergeFilelistToDatabase, io, load, listLoad, Bool.false_eq_true,
    if_false, mergeUpdates_map_loadedEntry, saveFileHashes_faultless, saved]

theorem perform_aborts (m : MergeRun) {filehashesFile databaseFile : Option Bytes}
    {fs es : List FileEntry} (list : Encodes filehashesFile fs) (big : ¬ Fits (fileText fs))
    (bounded : (fileText fs).length + 10 < 4294967296) (database : Encodes databaseFile es)
    (fits : Fits (fileText es)) :
    m.perform filehashesFile databaseFile = ⟨some .aborts, false, databaseFile⟩ := by
  obtain ⟨found, load⟩ := database.load fits m.unittestPath m.mainBehind
  simp only [perform, mergeMode, mergeFilelistToDatabase, io, load, list.aborts big bounded]

end MergeRun

/-- The `filehashes.txt` that each run writes into its folder, with `databaseFile`
as the database before the first. -/
def writtenLists : Option Bytes → List Run → List (Option Bytes)
  | _, [] => []
  | databaseFile, r :: runs =>
    (r.perform none databaseFile).filehashes ::
      writtenLists (r.perform none databaseFile).database runs

/-- The database that merging the lists in order leaves, started without one. -/
def rebuiltDatabase (merges : List MergeRun) (lists : List (Option Bytes)) : Option Bytes :=
  (merges.zip lists).foldl (fun databaseFile p => (p.1.perform p.2 databaseFile).database) none

theorem writtenLists_concat (databaseFile : Option Bytes) (runs : List Run) (r : Run) :
    writtenLists databaseFile (runs ++ [r]) = writtenLists databaseFile runs ++
      [(r.perform none
        (runs.foldl (fun file s => (s.perform none file).database) databaseFile)).filehashes] := by
  induction runs generalizing databaseFile with
  | nil => rfl
  | cons s runs ih => simp only [List.cons_append, writtenLists, ih, List.foldl_cons]

theorem length_writtenLists (databaseFile : Option Bytes) (runs : List Run) :
    (writtenLists databaseFile runs).length = runs.length := by
  induction runs generalizing databaseFile with
  | nil => rfl
  | cons r runs ih => simp only [writtenLists, List.length_cons, ih]

theorem rebuiltDatabase_concat {merges : List MergeRun} {lists : List (Option Bytes)}
    (same : merges.length = lists.length) (m : MergeRun) (list : Option Bytes) :
    rebuiltDatabase (merges ++ [m]) (lists ++ [list]) =
      (m.perform list (rebuiltDatabase merges lists)).database := by
  rw [rebuiltDatabase, List.zip_append same, List.foldl_append]
  rfl

/-- The rebuild leaves the database of the create runs when every database they
load and every list they write fits. -/
theorem rebuiltDatabase_eq (history : List (Run × MergeRun))
    (databasesFit : SizesFit (history.map Prod.fst))
    (listsFit : ∀ p ∈ history, Fits (fileText p.1.stored)) :
    rebuiltDatabase (history.map Prod.snd) (writtenLists none (history.map Prod.fst)) =
      databaseAfter (history.map Prod.fst) := by
  induction history using List.reverseRecOn with
  | nil => rfl
  | append_singleton history p ih =>
    obtain ⟨r, m⟩ := p
    rw [List.map_append, List.map_singleton] at databasesFit
    obtain ⟨pastFit, fits⟩ := sizesFit_concat.mp databasesFit
    have encodes := encodes_databaseAfter pastFit
    have performed := r.perform_of_encodes encodes fits none
    have list : Encodes (some (fileText r.stored)) r.stored := encodes_fileText r.stored_wellFormed
    have listFit : Fits (fileText r.stored) := listsFit (r, m) (by simp)
    -- the lists and the merges go together, so the last pair splits off
    have same : (history.map Prod.snd).length =
        (writtenLists none (history.map Prod.fst)).length := by
      rw [length_writtenLists, List.length_map, List.length_map]
    have lists : writtenLists none (history.map Prod.fst ++ [r]) =
        writtenLists none (history.map Prod.fst) ++ [some (fileText r.stored)] := by
      rw [writtenLists_concat, show (history.map Prod.fst).foldl
        (fun file s => (s.perform none file).database) none =
          databaseAfter (history.map Prod.fst) from rfl, performed]
    rw [List.map_append, List.map_append, List.map_singleton, List.map_singleton, lists,
      rebuiltDatabase_concat same, ih pastFit fun q mem => listsFit q (by simp [mem]),
      databaseAfter_concat, performed, m.perform_of_encodes list listFit encodes fits]
    rfl

/-- Two runs under different prefixes, merged under two others. -/
theorem rebuiltDatabase_eq_two :
    let first : Run := ⟨text "old/", [⟨text "MeowHash", text "A1", text "old/x"⟩,
      ⟨text "MeowHash", text "B2", text "old/y z"⟩], by decide, by decide, by decide, [], []⟩
    let second : Run := ⟨text "new/", [⟨text "MeowHash", text "C3", text "new/x"⟩],
      by decide, by decide, by decide, [], []⟩
    rebuiltDatabase [⟨text "in/", [], []⟩, ⟨[], [], []⟩] (writtenLists none [first, second]) =
      databaseAfter [first, second] := by
  intro first second
  refine rebuiltDatabase_eq [(first, ⟨text "in/", [], []⟩), (second, ⟨[], [], []⟩)] ?_ ?_
  · exact sizesFit_concat.mpr ⟨sizesFit_concat.mpr ⟨sizesFit_nil, by decide⟩, by decide⟩
  · intro p mem
    simp only [List.mem_cons, List.not_mem_nil, or_false] at mem
    rcases mem with rfl | rfl
    · show Fits (fileText first.stored)
      decide
    · show Fits (fileText second.stored)
      decide

theorem rebuiltDatabase_ne_of_big (r : Run) (m : MergeRun) (big : ¬ Fits (fileText r.stored))
    (bounded : (fileText r.stored).length + 10 < 4294967296) :
    rebuiltDatabase [m] (writtenLists none [r]) ≠ databaseAfter [r] := by
  have performed := r.perform_of_encodes encodes_none (by decide) none
  have aborted := m.perform_aborts (encodes_fileText r.stored_wellFormed) big bounded encodes_none
    (by decide)
  have lists : writtenLists none [r] = [some (fileText r.stored)] := by
    simp only [writtenLists, performed]
  have rebuilt : rebuiltDatabase [m] (writtenLists none [r]) = none := by
    rw [lists, show [m] = [] ++ [m] from rfl, show [some (fileText r.stored)] = [] ++ _ from rfl,
      rebuiltDatabase_concat rfl, show rebuiltDatabase [] [] = none from rfl, aborted]
  have created : databaseAfter [r] ≠ none := by
    simp only [databaseAfter, List.foldl_cons, List.foldl_nil, performed]
    exact Option.some_ne_none _
  rw [rebuilt]
  exact created.symm

/-- The list of a run over 2^24 files cannot be merged. -/
theorem not_rebuiltDatabase_eq :
    rebuiltDatabase [⟨[], [], []⟩] (writtenLists none [tooManyFiles]) ≠
      databaseAfter [tooManyFiles] :=
  have size := tooLong length_fileText_tooManyFiles
  rebuiltDatabase_ne_of_big tooManyFiles _ size.1 size.2

end BackupSuite.CtrlCenter
