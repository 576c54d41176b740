import Mathlib.Data.List.MinMax
import BackupSuite.Python.Create

/-! # Rebuilding the database of the script

The runs keep the paths with the input folder in front, and `filehashes.txt` has them without,
so the merges end up with other paths: the longest path of the database is none of theirs
(`exists_not_rebuilt`).
-/

namespace BackupSuite.Python

open BackupSuite.Library BackupSuite.CtrlCenter

/-- Runs one after the other: the database file at the end, and the `filehashes.txt` of those
that wrote one. -/
def createAll : Option Bytes → List CreateRun → Option (Option Bytes × List Bytes)
  | databaseFile, [] => some (databaseFile, [])
  | databaseFile, run :: runs => do
    let created ← run.create databaseFile
    let (last, lists) ← createAll created.databaseFile runs
    return (last, created.filehashes.toList ++ lists)

/-- The merges of the lists, one after the other. -/
def mergeAll : Option Bytes → List Bytes → Option (Option Bytes)
  | databaseFile, [] => some databaseFile
  | databaseFile, list :: lists => do
    let merged ← mergeFilehashesToDatabase databaseFile (some list)
    mergeAll (some merged) lists

/-- No database file, or one without entries. -/
structure EmptyDatabase where
  file : Option Bytes
  empty : readDatabase file = some []

/-- The two database files map the same paths to the same hashes. -/
def SameHashes (original rebuilt : Option Bytes) : Prop :=
  ∃ items items', readDatabase original = some items ∧ readDatabase rebuilt = some items' ∧
    ∀ path, hashIn items path = hashIn items' path

/-- Whatever run comes next, it compresses the same files. -/
def SameProcessed (original rebuilt : Option Bytes) : Prop :=
  ∀ next : CreateRun, ∃ files files', next.processed original = some files ∧
    next.processed rebuilt = some files' ∧ files.Perm files'

/-- The merges rebuild the database of the runs. -/
def Rebuilds (start start' : EmptyDatabase) (runs : List CreateRun) : Prop :=
  ∃ original lists rebuilt, createAll start.file runs = some (original, lists) ∧
    mergeAll start'.file lists = some rebuilt ∧ SameHashes original rebuilt ∧ SameProcessed original rebuilt

theorem EmptyDatabase.holds (start : EmptyDatabase) : Holds start.file [] := ⟨start.empty, by simp⟩

/-! ## The runs -/

/-- A list that one of the runs can have written. -/
def ListOf (runs : List CreateRun) (list : Bytes) : Prop :=
  ∃ run ∈ runs, ∃ todo : List Item, (∀ item ∈ todo, item ∈ run.items) ∧
    list = utf8Encode (databaseText (todo.map run.listedItem))

theorem ListOf.cons {runs : List CreateRun} {list : Bytes} (written : ListOf runs list) (run : CreateRun) :
    ListOf (run :: runs) list := by
  obtain ⟨by', mem, rest⟩ := written
  exact ⟨by', List.mem_cons_of_mem _ mem, rest⟩

theorem CreateRun.Leaves.listOf {run : CreateRun} {database : List Item} {created : Created}
    (leaves : run.Leaves database created) {list : Bytes} (mem : list ∈ created.filehashes.toList)
    (runs : List CreateRun) : ListOf (run :: runs) list := by
  obtain written | ⟨nothing, -⟩ := leaves.filehashes
  · rw [written, Option.toList_some, List.mem_singleton] at mem
    exact ⟨run, List.mem_cons_self, _, fun item inside => List.filter_sublist.subset inside, mem⟩
  · rw [nothing] at mem
    cases mem

theorem createAll_eq (runs : List CreateRun) {databaseFile : Option Bytes} {database : List Item}
    (holds : Holds databaseFile database) :
    ∃ last lists, createAll databaseFile runs = some (last, lists) ∧
      Holds last (putAll Item.filepath (runs.flatMap CreateRun.items) database) ∧
      ∀ list ∈ lists, ListOf runs list := by
  induction runs generalizing databaseFile database with
  | nil => exact ⟨databaseFile, [], rfl, holds, by simp⟩
  | cons run runs ih =>
    obtain ⟨created, creates, leaves⟩ := run.exists_create holds
    obtain ⟨last, lists, rest, lastHolds, written⟩ := ih leaves.databaseFile
    refine ⟨last, created.filehashes.toList ++ lists, ?_, ?_, ?_⟩
    · simp [createAll, creates, rest]
    · rwa [List.flatMap_cons, putAll_append]
    · intro list mem
      cases List.mem_append.mp mem with
      | inl first => exact leaves.listOf first runs
      | inr later => exact (written list later).cons run

/-! ## The merges -/

theorem foldl_mergeItem_of_recorded {items database : List Item} (recorded : ∀ item ∈ items, item.Recorded)
    (known : ∀ old ∈ database, old.Recorded) :
    items.foldl mergeItem database = putAll Item.filepath items database := by
  induction items generalizing database with
  | nil => rfl
  | cons item items ih =>
    rw [List.forall_mem_cons] at recorded
    rw [List.foldl_cons, mergeItem_of_recorded known recorded.1.func, ih recorded.2 (recorded_put known recorded.1),
      putAll_cons]

theorem mergeFilehashesToDatabase_of_reads {databaseFile : Option Bytes} {database filehashes : List Item}
    {list : Bytes} (old : readDatabase databaseFile = some database) (new : readItems list = some filehashes) :
    mergeFilehashesToDatabase databaseFile (some list) =
      some (utf8Encode (databaseText (filehashes.foldl mergeItem database))) := by
  cases databaseFile with
  | none =>
    cases Option.some.inj old
    simp [mergeFilehashesToDatabase, new]
  | some content =>
    have reads : readItems content = some database := old
    simp [mergeFilehashesToDatabase, reads, new]

/-- Without the input folder the path may start or end in blanks, which are stripped. -/
theorem CreateRun.listedItem_recorded {run : CreateRun} {item : Item} (mem : item ∈ run.items) :
    (run.listedItem item).Plain ∧ (run.listedItem item).stripped.Recorded := by
  have recorded := run.recorded_of_mem_items mem
  have inside {c : Char} : c ∈ eraseAll run.inputpath item.filepath → c ∈ item.filepath :=
    fun found => (eraseAllFrom_sublist _ _ _).subset found
  have plain : (run.listedItem item).Plain :=
    ⟨recorded.plain.func, recorded.plain.value, fun found => recorded.path.1 (inside found),
      fun found => recorded.path.2 (inside found)⟩
  exact ⟨plain, recorded.func, recorded.value, plain.stripped.path, strip_strip _⟩

/-- The path of the entry that a file comes back with. -/
def CreateRun.rebuiltPath (run : CreateRun) (file : Str) : Str := strip (eraseAll run.inputpath file)

theorem mergeFilehashesToDatabase_eq {runs : List CreateRun} {list : Bytes} (written : ListOf runs list)
    {databaseFile : Option Bytes} {database : List Item} (holds : Holds databaseFile database) :
    ∃ merged items, mergeFilehashesToDatabase databaseFile (some list) = some merged ∧
      Holds (some merged) items ∧
      ∀ item ∈ items, item ∈ database ∨ ∃ run ∈ runs, ∃ file ∈ run.files, item.filepath = run.rebuiltPath file := by
  obtain ⟨run, mem, todo, inside, rfl⟩ := written
  let listed : List Item := (todo.map run.listedItem).map Item.stripped
  have reads : readItems (utf8Encode (databaseText (todo.map run.listedItem))) = some listed := by
    refine readItems_databaseText fun item found => ?_
    obtain ⟨entry, among, rfl⟩ := List.mem_map.mp found
    exact (run.listedItem_recorded (inside entry among)).1
  have entryOf {item : Item} (found : item ∈ listed) :
      item.Recorded ∧ ∃ file ∈ run.files, item.filepath = run.rebuiltPath file := by
    obtain ⟨_, found', rfl⟩ := List.mem_map.mp found
    obtain ⟨entry, among, rfl⟩ := List.mem_map.mp found'
    obtain ⟨file, here, rfl⟩ := run.mem_items.mp (inside entry among)
    exact ⟨(run.listedItem_recorded (inside _ among)).2, file, here, rfl⟩
  have recorded : ∀ item ∈ listed, item.Recorded := fun item found => (entryOf found).1
  have merges := foldl_mergeItem_of_recorded recorded holds.recorded
  refine ⟨utf8Encode (databaseText (putAll Item.filepath listed database)), putAll Item.filepath listed database,
    ?_, ?_, ?_⟩
  · rw [mergeFilehashesToDatabase_of_reads holds.reads reads, merges]
  · exact holds_databaseText (recorded_putAll holds.recorded recorded)
  · intro item found
    cases mem_putAll found with
    | inl new => exact Or.inr ⟨run, mem, (entryOf new).2⟩
    | inr before => exact Or.inl before

theorem mergeAll_eq {runs : List CreateRun} {lists : List Bytes} (written : ∀ list ∈ lists, ListOf runs list)
    {databaseFile : Option Bytes} {database : List Item} (holds : Holds databaseFile database) :
    ∃ last items, mergeAll databaseFile lists = some last ∧ Holds last items ∧
      ∀ item ∈ items, item ∈ database ∨ ∃ run ∈ runs, ∃ file ∈ run.files, item.filepath = run.rebuiltPath file := by
  induction lists generalizing databaseFile database with
  | nil => exact ⟨databaseFile, database, rfl, holds, fun item mem => Or.inl mem⟩
  | cons list lists ih =>
    rw [List.forall_mem_cons] at written
    obtain ⟨merged, between, merges, mergedHolds, from'⟩ := mergeFilehashesToDatabase_eq written.1 holds
    obtain ⟨last, items, rest, lastHolds, fromBetween⟩ := ih written.2 mergedHolds
    refine ⟨last, items, by simp [mergeAll, merges, rest], lastHolds, fun item mem => ?_⟩
    cases fromBetween item mem with
    | inl before => exact from' item before
    | inr new => exact Or.inr new

/-! ## The paths -/

theorem CreateRun.length_rebuiltPath_lt {run : CreateRun} {file : Str} (mem : file ∈ run.files) :
    (run.rebuiltPath file).length < file.length := by
  obtain ⟨name, rfl⟩ := run.under file mem
  have slash : '/' ∈ run.inputpath := slash_mem_normalizePath_inputOf _
  have erased : eraseAll run.inputpath (run.inputpath ++ name) = eraseAll run.inputpath name :=
    eraseAll_append_of_mem slash List.not_mem_nil name
  have stripped := (strip_sublist (eraseAll run.inputpath name)).length_le
  have shorter := (eraseAllFrom_sublist run.inputpath 0 name).length_le
  have nonempty : 0 < run.inputpath.length := List.length_pos_of_mem slash
  calc (run.rebuiltPath (run.inputpath ++ name)).length
      = (strip (eraseAll run.inputpath name)).length := by rw [rebuiltPath, erased]
    _ ≤ name.length := stripped.trans shorter
    _ < (run.inputpath ++ name).length := by rw [List.length_append]; omega

/-- Some file of the runs, one with the longest path, comes back under no path of its length. -/
theorem exists_not_rebuilt {runs : List CreateRun} (some : ∃ run ∈ runs, run.files ≠ []) :
    ∃ run ∈ runs, ∃ file ∈ run.files, ∀ run' ∈ runs, ∀ file' ∈ run'.files, run'.rebuiltPath file' ≠ file := by
  let all := runs.flatMap CreateRun.files
  have nonempty : all ≠ [] := by
    obtain ⟨run, mem, files⟩ := some
    obtain ⟨file, here⟩ := List.exists_mem_of_ne_nil _ files
    exact List.ne_nil_of_mem (List.mem_flatMap.mpr ⟨run, mem, here⟩)
  have some : all.argmax List.length ≠ none := mt List.argmax_eq_none.mp nonempty
  obtain ⟨file, longest⟩ := Option.ne_none_iff_exists'.mp some
  obtain ⟨run, mem, here⟩ := List.mem_flatMap.mp (List.argmax_mem longest)
  refine ⟨run, mem, file, here, fun run' mem' file' here' same => ?_⟩
  have bound : file'.length ≤ file.length :=
    List.le_of_mem_argmax (List.mem_flatMap.mpr ⟨run', mem', here'⟩) longest
  have shorter := run'.length_rebuiltPath_lt here'
  rw [same] at shorter
  omega

/-! ## The databases compared -/

theorem hashIn_eq_none {items : List Item} {path : Str} (notIn : ∀ item ∈ items, item.filepath ≠ path) :
    hashIn items path = none := by
  have absent : path ∉ items.map Item.filepath := by
    intro mem
    obtain ⟨item, inside, same⟩ := List.mem_map.mp mem
    exact notIn item inside same
  rw [hashIn, lookup_eq_none.mpr absent, Option.map_none]

/-- The database has the hash that some run found for the file. -/
theorem hashIn_putAll {runs : List CreateRun} {run : CreateRun} (mem : run ∈ runs) {file : Str}
    (found : file ∈ run.files) :
    ∃ run' ∈ runs, file ∈ run'.files ∧
      hashIn (putAll Item.filepath (runs.flatMap CreateRun.items) []) file =
        some (run'.item file).filehashvalue := by
  have path : file ∈ (runs.flatMap CreateRun.items).map Item.filepath :=
    List.mem_map.mpr ⟨run.item file, List.mem_flatMap.mpr ⟨run, mem, run.mem_items.mpr ⟨file, found, rfl⟩⟩, rfl⟩
  have known := mem_keys_putAll (l := []) (Or.inl path)
  obtain ⟨item, here⟩ := exists_lookup known
  cases mem_putAll (mem_of_lookup here) with
  | inr before => cases before
  | inl new =>
    obtain ⟨run', mem', among⟩ := List.mem_flatMap.mp new
    obtain ⟨file', found', rfl⟩ := run'.mem_items.mp among
    have same : file' = file := key_of_lookup here
    rw [same] at found' here
    exact ⟨run', mem', found', by rw [hashIn, here, Option.map_some]⟩

theorem CreateRun.processed_eq (next : CreateRun) {databaseFile : Option Bytes} {database : List Item}
    (holds : Holds databaseFile database) :
    ∃ files, next.processed databaseFile = some files ∧
      files.Perm (next.files.filter fun file => Changed database (next.item file)) := by
  obtain ⟨created, creates, leaves⟩ := next.exists_create holds
  exact ⟨created.files, by rw [processed, creates, Option.map_some], leaves.files⟩

/-- A run that finds one of the files and nothing else. -/
def CreateRun.only (run : CreateRun) (file : Str) (mem : file ∈ run.files) : CreateRun :=
  have all {P : Str → Prop} (each : ∀ other ∈ run.files, P other) : ∀ other ∈ [file], P other := by
    rw [List.forall_mem_singleton]
    exact each file mem
  { run with
    files := [file]
    arrivals := [file]
    arrivals_perm := .refl _
    distinct := List.nodup_singleton file
    under := all run.under
    oneLine := all run.oneLine
    noSpaces := all run.noSpaces }

@[simp] theorem CreateRun.only_files (run : CreateRun) {file : Str} (mem : file ∈ run.files) :
    (run.only file mem).files = [file] := rfl

@[simp] theorem CreateRun.only_item (run : CreateRun) {file : Str} (mem : file ∈ run.files) (other : Str) :
    (run.only file mem).item other = run.item other := rfl

section

variable {original rebuilt : Option Bytes} {items items' : List Item} (holds : Holds original items)
  (holds' : Holds rebuilt items')

include holds holds'

theorem sameHashes_iff : SameHashes original rebuilt ↔ ∀ path, hashIn items path = hashIn items' path := by
  constructor
  · rintro ⟨_, _, reads, reads', same⟩
    cases holds.reads.symm.trans reads
    cases holds'.reads.symm.trans reads'
    exact same
  · intro same
    exact ⟨items, items', holds.reads, holds'.reads, same⟩

theorem sameProcessed_of_hashIn (same : ∀ path, hashIn items path = hashIn items' path) :
    SameProcessed original rebuilt := by
  intro next
  obtain ⟨files, processed, perm⟩ := next.processed_eq holds
  obtain ⟨files', processed', perm'⟩ := next.processed_eq holds'
  have filters : (next.files.filter fun file => Changed items (next.item file)) =
      next.files.filter fun file => Changed items' (next.item file) := by
    refine List.filter_congr fun file _ => ?_
    rw [decide_eq_decide, Changed, Changed, same]
  exact ⟨files, files', processed, processed', perm.trans (filters ▸ perm'.symm)⟩

/-- A run over a file whose hash only one of the databases has. -/
theorem not_sameProcessed {run : CreateRun} {file : Str} (mem : file ∈ run.files)
    (here : hashIn items file = some (run.item file).filehashvalue) (missing : hashIn items' file = none) :
    ¬ SameProcessed original rebuilt := by
  intro same
  obtain ⟨files, files', processed, processed', perm⟩ := same (run.only file mem)
  obtain ⟨_, again, nothing⟩ := (run.only file mem).processed_eq holds
  obtain ⟨_, again', one⟩ := (run.only file mem).processed_eq holds'
  cases processed.symm.trans again
  cases processed'.symm.trans again'
  have unchanged : ¬ Changed items (run.item file) := not_not.mpr here
  have changed : Changed items' (run.item file) := by
    rw [Changed, show (run.item file).filepath = file from rfl, missing]
    exact (Option.some_ne_none _).symm
  have lengths := (nothing.symm.trans (perm.trans one)).length_eq
  simp [unchanged, changed] at lengths

end

/-- Runs and merges go through, and what they leave agrees exactly when there was never a file. -/
theorem exists_rebuilt (start start' : EmptyDatabase) (runs : List CreateRun) :
    ∃ original lists rebuilt, createAll start.file runs = some (original, lists) ∧
      mergeAll start'.file lists = some rebuilt ∧
      (SameHashes original rebuilt ↔ ∀ run ∈ runs, run.files = []) ∧
      (SameProcessed original rebuilt ↔ ∀ run ∈ runs, run.files = []) := by
  obtain ⟨original, lists, creates, holds, written⟩ := createAll_eq runs start.holds
  obtain ⟨rebuilt, items', merges, holds', from'⟩ := mergeAll_eq written start'.holds
  refine ⟨original, lists, rebuilt, creates, merges, ?_⟩
  -- without files both databases stay empty
  by_cases noFiles : ∀ run ∈ runs, run.files = []
  · have nothing : runs.flatMap CreateRun.items = [] := by
      refine List.flatMap_eq_nil_iff.mpr fun run mem => List.eq_nil_iff_forall_not_mem.mpr fun item inside => ?_
      obtain ⟨file, found, -⟩ := run.mem_items.mp inside
      rw [noFiles run mem] at found
      cases found
    have nothing' : items' = [] := by
      refine List.eq_nil_iff_forall_not_mem.mpr fun item inside => ?_
      obtain before | ⟨run, mem, file, found, -⟩ := from' item inside
      · cases before
      · rw [noFiles run mem] at found
        cases found
    have same (path : Str) : hashIn (putAll Item.filepath (runs.flatMap CreateRun.items) []) path =
        hashIn items' path := by rw [nothing, nothing', putAll_nil]
    exact ⟨iff_of_true ((sameHashes_iff holds holds').mpr same) noFiles,
      iff_of_true (sameProcessed_of_hashIn holds holds' same) noFiles⟩
  · have some : ∃ run ∈ runs, run.files ≠ [] := by simpa using noFiles
    obtain ⟨run, mem, file, found, other⟩ := exists_not_rebuilt some
    obtain ⟨run', -, found', here⟩ := hashIn_putAll mem found
    have missing : hashIn items' file = none := by
      refine hashIn_eq_none fun item inside => ?_
      obtain before | ⟨run, mem, file, found, path⟩ := from' item inside
      · cases before
      · exact path ▸ other run mem file found
    refine ⟨iff_of_false (fun same => ?_) noFiles,
      iff_of_false (not_sameProcessed holds holds' found' here missing) noFiles⟩
    have hashes := (sameHashes_iff holds holds').mp same file
    rw [here, missing] at hashes
    cases hashes

/-- The merges rebuild a database only where it has no entries. -/
theorem rebuilds_iff (start start' : EmptyDatabase) (runs : List CreateRun) :
    Rebuilds start start' runs ↔ ∀ run ∈ runs, run.files = [] := by
  obtain ⟨original, lists, rebuilt, creates, merges, hashes, processed⟩ := exists_rebuilt start start' runs
  constructor
  · rintro ⟨_, _, _, creates', merges', same, -⟩
    cases creates.symm.trans creates'
    cases merges.symm.trans merges'
    exact hashes.mp same
  · intro noFiles
    exact ⟨original, lists, rebuilt, creates, merges, hashes.mpr noFiles, processed.mpr noFiles⟩

def noDatabase : EmptyDatabase := ⟨none, rfl⟩

/-- A folder `in` with an empty file `a`. -/
def oneFile : CreateRun where
  inputArgument := "in".toList
  tools := "tools".toList
  files := ["in/a".toList]
  arrivals := ["in/a".toList]
  contents _ := []
  meowHash _ := ⟨0, 0, 0, 0⟩
  arrivals_perm := .refl _
  distinct := List.nodup_singleton _
  under := by decide
  oneLine := by decide
  noSpaces := by decide

/-- The run keeps `in/a`, and its list brings back `a`. -/
theorem not_rebuilds : ¬ Rebuilds noDatabase noDatabase [oneFile] := by
  rintro ⟨original, lists, rebuilt, creates, merges, same, -⟩
  obtain ⟨_, _, creates', holds, written⟩ := createAll_eq [oneFile] noDatabase.holds
  cases creates.symm.trans creates'
  obtain ⟨_, items', merges', holds', from'⟩ := mergeAll_eq written noDatabase.holds
  cases merges.symm.trans merges'
  have hashes := (sameHashes_iff holds holds').mp same "in/a".toList
  have here : hashIn (putAll Item.filepath ([oneFile].flatMap CreateRun.items) []) "in/a".toList =
      some (hashText ⟨0, 0, 0, 0⟩) := by decide
  have comesBack : oneFile.rebuiltPath "in/a".toList = "a".toList := by decide
  have missing : hashIn items' "in/a".toList = none := by
    refine hashIn_eq_none fun item inside path => ?_
    obtain before | ⟨run, mem, file, found, path'⟩ := from' item inside
    · cases before
    · cases List.mem_singleton.mp mem
      cases List.mem_singleton.mp found
      rw [path, comesBack] at path'
      exact absurd path' (by decide)
  rw [here, missing] at hashes
  cases hashes

end BackupSuite.Python
