import BackupSuite.CtrlCenter.DatabaseFile

/-! # Create and merge runs

`createMode` and `mergeMode` are what `main` does for `--create` and `--merge`,
from the two files they read to the two they write, with every outcome of the
calls on these files, of the hash stage and of the compress jobs.  A `Run` is a
create run in which all of these succeed; `Run.perform_of_encodes` says what it
does to a database of well-formed lines.
-/

namespace BackupSuite.CtrlCenter

open BackupSuite.Library

/-! ## The two modes -/

/-- The outcomes of the calls on the database file and on `filehashes.txt`: `main`
loads the database before it looks at the mode, a create run loads it again and a
merge run reads the list instead. -/
structure RunOutcomes where
  mainLoad : ReadOutcomes
  load : ReadOutcomes
  saveList : WriteOutcomes
  saveDatabase : WriteOutcomes

/-- What a create run leaves.  `stopped` is how it ended early, if it did, and
`saved` whether `saveFileHashes` was called on the database and returned true. -/
structure RunEnd where
  stopped : Option Stop
  compare : List CompareResult
  jobs : List Bytes
  filehashes : Option Bytes
  saved : Bool
  database : Option Bytes

/-- What a merge run leaves. -/
structure MergeEnd where
  stopped : Option Stop
  saved : Bool
  database : Option Bytes

/-- The input files of the jobs, in the order of submission. -/
def compressJobs (filesHashes : List FileEntry) (compare : List CompareResult) : List Bytes :=
  ((filesHashes.zip compare).filter fun p => p.2 ≠ .eSame).map fun p => p.1.mPath

/-- `hashed` is what the hash stage comes to and `compressed` what waiting for the
submitted compress jobs comes to. -/
def createOrUpdateArchive (dryRunFlag : Bool) (unittestPath : Bytes) (io : RunOutcomes)
    (hashed : Except Stop (List FileEntry)) (compressed : Except Stop Unit)
    (filehashes databaseFile : Option Bytes) : RunEnd :=
  match readFileHashes unittestPath io.load databaseFile with
  | .error stop => ⟨some stop, [], [], filehashes, false, databaseFile⟩
  -- whether there was a database makes no difference: without one it is empty
  | .ok (_, database) =>
    match hashed with
    | .error stop => ⟨some stop, [], [], filehashes, false, databaseFile⟩
    | .ok filesHashes =>
      let compare := compareToFileHashes filesHashes database
      let jobs := compressJobs filesHashes compare
      -- a job that calls `exit` ends the run while it waits, before anything is saved
      match compressed with
      | .error stop => ⟨some stop, compare, jobs, filehashes, false, databaseFile⟩
      | .ok () =>
        -- the first merge is made in a dry run too, but nothing of it is written
        let database := mergeUpdates database filesHashes
        if dryRunFlag then ⟨none, compare, jobs, filehashes, false, databaseFile⟩
        else
          let list := saveFileHashes unittestPath io.saveList filesHashes filehashes
          let database := mergeUpdates database filesHashes
          let saved := saveFileHashes unittestPath io.saveDatabase database databaseFile
          ⟨none, compare, jobs, list.2, saved.1, saved.2⟩

/-- `main` with `--create`. -/
def createMode (dryRunFlag : Bool) (unittestPath : Bytes) (io : RunOutcomes)
    (hashed : Except Stop (List FileEntry)) (compressed : Except Stop Unit)
    (filehashes databaseFile : Option Bytes) : RunEnd :=
  match readFileHashes unittestPath io.mainLoad databaseFile with
  | .error stop => ⟨some stop, [], [], filehashes, false, databaseFile⟩
  | .ok _ =>
    -- the entries of this load are cleared by the second one
    createOrUpdateArchive dryRunFlag unittestPath io hashed compressed filehashes databaseFile

def mergeFilelistToDatabase (dryRunFlag : Bool) (unittestPath : Bytes) (io : RunOutcomes)
    (database : List FileEntry) (filehashesFile databaseFile : Option Bytes) : MergeEnd :=
  match readFileHashes unittestPath io.load filehashesFile with
  | .error stop => ⟨some stop, false, databaseFile⟩
  | .ok (_, filehashes) =>
    let database := mergeUpdates database filehashes
    if dryRunFlag then ⟨none, false, databaseFile⟩
    else
      let saved := saveFileHashes unittestPath io.saveDatabase database databaseFile
      ⟨none, saved.1, saved.2⟩

/-- `main` with `--merge`. -/
def mergeMode (dryRunFlag : Bool) (unittestPath : Bytes) (io : RunOutcomes)
    (filehashesFile databaseFile : Option Bytes) : MergeEnd :=
  match readFileHashes unittestPath io.mainLoad databaseFile with
  | .error stop => ⟨some stop, false, databaseFile⟩
  | .ok (_, database) =>
    mergeFilelistToDatabase dryRunFlag unittestPath io database filehashesFile databaseFile

/-- A dry run writes neither file, whatever happens in it. -/
theorem createMode_dryRun (u : Bytes) (io : RunOutcomes) (hashed : Except Stop (List FileEntry))
    (compressed : Except Stop Unit) (filehashes databaseFile : Option Bytes) :
    (createMode true u io hashed compressed filehashes databaseFile).filehashes = filehashes ∧
    (createMode true u io hashed compressed filehashes databaseFile).database = databaseFile := by
  unfold createMode createOrUpdateArchive
  cases readFileHashes u io.mainLoad databaseFile with
  | error stop => exact ⟨rfl, rfl⟩
  | ok loaded =>
    cases readFileHashes u io.load databaseFile with
    | error stop => exact ⟨rfl, rfl⟩
    | ok loaded =>
      cases hashed with
      | error stop => exact ⟨rfl, rfl⟩
      | ok filesHashes =>
        simp only
        split <;> exact ⟨rfl, rfl⟩

/-! ## Files that hold a list -/

/-- The file holds the lines of `es`; a file that does not exist holds none. -/
structure Encodes (file : Option Bytes) (es : List FileEntry) : Prop where
  wellFormed : ∀ e ∈ es, e.WellFormed
  lines : file.getD [] = fileText es

theorem encodes_none : Encodes none [] := ⟨by simp, rfl⟩

theorem encodes_fileText {es : List FileEntry} (wf : ∀ e ∈ es, e.WellFormed) :
    Encodes (some (fileText es)) es := ⟨wf, rfl⟩

theorem fileText_eq_nil {es : List FileEntry} : fileText es = [] ↔ es = [] := by
  constructor
  · intro empty
    cases es with
    | nil => rfl
    | cons e es =>
      have pos := printEntry_length_pos e
      have lengths := congrArg List.length empty
      simp only [fileText_cons, List.length_append, List.length_nil] at lengths
      omega
  · rintro rfl
    rfl

theorem Encodes.load {file : Option Bytes} {es : List FileEntry} (encodes : Encodes file es)
    (fits : Fits (fileText es)) (u behind : Bytes) :
    ∃ found, readFileHashes u (.faultless behind) file = .ok (found, es.map (loadedEntry u)) := by
  cases file with
  | none =>
    have empty : es = [] := fileText_eq_nil.mp encodes.lines.symm
    subst empty
    exact ⟨false, rfl⟩
  | some content =>
    have lines : content = fileText es := encodes.lines
    rw [lines]
    exact ⟨true, readFileHashes_fileText u behind encodes.wellFormed fits⟩

/-- A list that is too long ends the run that loads it. -/
theorem Encodes.aborts {file : Option Bytes} {es : List FileEntry} (encodes : Encodes file es)
    (big : ¬ Fits (fileText es)) (bounded : (fileText es).length + 10 < 4294967296)
    (u behind : Bytes) : readFileHashes u (.faultless behind) file = .error .aborts := by
  cases file with
  | none =>
    have empty : fileText es = [] := encodes.lines.symm
    exact absurd (by rw [empty]; decide) big
  | some content =>
    have lines : content = fileText es := encodes.lines
    rw [lines]
    exact readFileHashes_aborts u rfl big bounded

/-! ## Prefixes -/

theorem loadedEntry_storedEntry {u : Bytes} {e : FileEntry} (under : u <+: e.mPath) :
    loadedEntry u (storedEntry u e) = e := by
  obtain ⟨rest, whole⟩ := under
  cases e with
  | mk func value path =>
    simp only at whole
    subst whole
    simp [loadedEntry, storedEntry]

theorem mPath_loadedEntry_inj {u : Bytes} {e f : FileEntry} :
    (loadedEntry u e).mPath = (loadedEntry u f).mPath ↔ e.mPath = f.mPath := by
  simp [loadedEntry]

theorem lookup_map_loadedEntry (u p : Bytes) (es : List FileEntry) :
    lookup FileEntry.mPath (u ++ p) (es.map (loadedEntry u)) =
      (lookup FileEntry.mPath p es).map (loadedEntry u) := by
  induction es with
  | nil => rfl
  | cons e es ih =>
    have same : (loadedEntry u e).mPath = u ++ p ↔ e.mPath = p := by simp [loadedEntry]
    rw [List.map_cons, lookup_cons, lookup_cons, ih]
    by_cases here : e.mPath = p
    · rw [if_pos (same.mpr here), if_pos here]; rfl
    · rw [if_neg (mt same.mp here), if_neg here]

theorem mergeUpdates_map_loadedEntry (u : Bytes) (es fs : List FileEntry) :
    mergeUpdates (es.map (loadedEntry u)) (fs.map (loadedEntry u)) =
      (putAll FileEntry.mPath fs es).map (loadedEntry u) := by
  rw [mergeUpdates_eq_putAll]
  exact putAll_map (fun _ _ => mPath_loadedEntry_inj) fs es

theorem compareEntry_map_loadedEntry (u : Bytes) (e : FileEntry) (es : List FileEntry) :
    compareEntry (loadedEntry u e) (es.map (loadedEntry u)) = compareEntry e es := by
  rw [compareEntry_eq, compareEntry_eq, show (loadedEntry u e).mPath = u ++ e.mPath from rfl,
    lookup_map_loadedEntry]
  cases lookup FileEntry.mPath e.mPath es <;> rfl

@[simp] theorem map_storedEntry_loadedEntry (u : Bytes) (es : List FileEntry) :
    (es.map (loadedEntry u)).map (storedEntry u) = es := by
  rw [List.map_map]
  conv_rhs => rw [← List.map_id es]
  exact List.map_congr_left fun e _ => storedEntry_loadedEntry u e

/-! ## A create run in which every call succeeds -/

/-- A run is given by its hash entries: distinct scanned paths below `unittestPath`
(which may be empty) that are stored as well-formed lines.  `mainBehind` and
`behind` are the memory behind the two buffers the database is read into. -/
structure Run where
  unittestPath : Bytes
  entries : List FileEntry
  distinct : (entries.map FileEntry.mPath).Nodup
  under : ∀ e ∈ entries, unittestPath <+: e.mPath
  wellFormed : ∀ e ∈ entries, (storedEntry unittestPath e).WellFormed
  mainBehind : Bytes
  behind : Bytes

namespace Run

def io (r : Run) : RunOutcomes :=
  ⟨.faultless r.mainBehind, .faultless r.behind, .faultless, .faultless⟩

def perform (r : Run) (filehashes databaseFile : Option Bytes) : RunEnd :=
  createMode false r.unittestPath r.io (.ok r.entries) (.ok ()) filehashes databaseFile

/-- The entries under their stored paths. -/
def stored (r : Run) : List FileEntry := r.entries.map (storedEntry r.unittestPath)

theorem map_loadedEntry_stored (r : Run) : r.stored.map (loadedEntry r.unittestPath) = r.entries := by
  rw [stored, List.map_map]
  conv_rhs => rw [← List.map_id r.entries]
  exact List.map_congr_left fun e mem => loadedEntry_storedEntry (r.under e mem)

theorem stored_wellFormed (r : Run) : ∀ e ∈ r.stored, e.WellFormed := by
  intro e mem
  obtain ⟨f, inside, rfl⟩ := List.mem_map.mp mem
  exact r.wellFormed f inside

theorem stored_distinct (r : Run) : (r.stored.map FileEntry.mPath).Nodup := by
  have distinct := r.distinct
  rw [← r.map_loadedEntry_stored, List.map_map] at distinct
  -- the prefix is the same for all paths, so without it they are still distinct
  have paths : FileEntry.mPath ∘ loadedEntry r.unittestPath =
      (r.unittestPath ++ ·) ∘ FileEntry.mPath := rfl
  rw [paths, ← List.map_map] at distinct
  exact List.Nodup.of_map _ distinct

/-- The database after the run: the stored entries put into the old ones. -/
def merged (r : Run) (es : List FileEntry) : List FileEntry := putAll FileEntry.mPath r.stored es

theorem merged_wellFormed (r : Run) {es : List FileEntry} (wf : ∀ e ∈ es, e.WellFormed) :
    ∀ e ∈ r.merged es, e.WellFormed := by
  intro e mem
  cases mem_putAll mem with
  | inl new => exact r.stored_wellFormed e new
  | inr old => exact wf e old

theorem compare_eq (r : Run) (es : List FileEntry) :
    compareToFileHashes r.entries (es.map (loadedEntry r.unittestPath)) =
      compareToFileHashes r.stored es := by
  conv_lhs => rw [← r.map_loadedEntry_stored]
  rw [compareToFileHashes]
  rw [List.map_map]
  exact List.map_congr_left fun e _ => compareEntry_map_loadedEntry _ e es

/-- What a run does to a database that holds `es`. -/
theorem perform_of_encodes (r : Run) {databaseFile : Option Bytes} {es : List FileEntry}
    (encodes : Encodes databaseFile es) (fits : Fits (fileText es)) (filehashes : Option Bytes) :
    r.perform filehashes databaseFile =
      ⟨none, compareToFileHashes r.stored es,
        compressJobs r.entries (compareToFileHashes r.stored es),
        some (fileText r.stored), true, some (fileText (r.merged es))⟩ := by
  obtain ⟨mainFound, mainLoad⟩ := encodes.load fits r.unittestPath r.mainBehind
  obtain ⟨found, load⟩ := encodes.load fits r.unittestPath r.behind
  -- the run merges twice, which is the same as once
  have twice : mergeUpdates (mergeUpdates (es.map (loadedEntry r.unittestPath)) r.entries) r.entries =
      (r.merged es).map (loadedEntry r.unittestPath) := by
    rw [mergeUpdates_idem]
    conv_lhs => rw [← r.map_loadedEntry_stored]
    exact mergeUpdates_map_loadedEntry _ _ _
  have list : savedText r.unittestPath r.entries = fileText r.stored := rfl
  have database : savedText r.unittestPath ((r.merged es).map (loadedEntry r.unittestPath)) =
      fileText (r.merged es) := by rw [savedText, map_storedEntry_loadedEntry]
  simp only [perform, createMode, createOrUpdateArchive, io, mainLoad, load, r.compare_eq,
    Bool.false_eq_true, if_false, twice, saveFileHashes_faultless, list, database]

/-- The database a run leaves holds the merged entries. -/
theorem encodes_perform (r : Run) {databaseFile : Option Bytes} {es : List FileEntry}
    (encodes : Encodes databaseFile es) (fits : Fits (fileText es)) (filehashes : Option Bytes) :
    Encodes (r.perform filehashes databaseFile).database (r.merged es) := by
  rw [r.perform_of_encodes encodes fits]
  exact encodes_fileText (r.merged_wellFormed encodes.wellFormed)

theorem perform_aborts (r : Run) {databaseFile : Option Bytes} {es : List FileEntry}
    (encodes : Encodes databaseFile es) (big : ¬ Fits (fileText es))
    (bounded : (fileText es).length + 10 < 4294967296) (filehashes : Option Bytes) :
    r.perform filehashes databaseFile = ⟨some .aborts, [], [], filehashes, false, databaseFile⟩ := by
  simp only [perform, createMode, io, encodes.aborts big bounded]

/-- The jobs of a run are the entries that the database does not give with the same hash. -/
theorem jobs_eq (r : Run) (es : List FileEntry) :
    compressJobs r.entries (compareToFileHashes r.stored es) =
      (r.entries.filter fun e => compareEntry (storedEntry r.unittestPath e) es ≠ .eSame).map
        FileEntry.mPath := by
  -- the comparison has one result per entry, so the two lists go together
  have zipped : r.entries.zip (compareToFileHashes r.stored es) =
      r.entries.map fun e => (e, compareEntry (storedEntry r.unittestPath e) es) := by
    rw [compareToFileHashes, stored, List.map_map]
    exact List.map_prod_left_eq_zip.symm
  rw [compressJobs, zipped, List.filter_map, List.map_map]
  rfl

end Run

end BackupSuite.CtrlCenter
