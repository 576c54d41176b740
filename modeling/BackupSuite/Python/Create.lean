import Mathlib.Data.List.Perm.Basic
import BackupSuite.Python.VerifySound

/-! # `create` of the script with a database file

A run hashes the files it finds, takes over into the database what is new or changed, and
compresses the files of these.  `exists_create` says what a run leaves in terms of the entries:
`putAll` of all of them in the database, and the changed ones in `filehashes.txt`.
-/

namespace BackupSuite.Python

open BackupSuite.Library BackupSuite.CtrlCenter

/-- What one run finds: the files of `generateFilelist`, and the order in which their hashes come in.
A path is one line without blanks at its ends. -/
structure CreateRun where
  inputArgument : Str
  tools : Str
  files : List Str
  arrivals : List Str
  contents : Str → Bytes
  meowHash : Bytes → MeowU128
  arrivals_perm : arrivals.Perm files
  distinct : files.Nodup
  under : ∀ file ∈ files, normalizePath (inputOf inputArgument) <+: file
  oneLine : ∀ file ∈ files, '\n' ∉ file ∧ '\r' ∉ file
  noSpaces : ∀ file ∈ files, strip file = file

/-! ## The incremental mode -/

/-- The search through the database for one hash: the database with it, and whether the file
is to be processed. -/
def updateItem : List Item → Item → List Item × Bool
  | [], item => ([item], true)
  | sublist :: database, item =>
    if sublist.filepath = item.filepath then
      if sublist.filehashvalue ≠ item.filehashvalue then
        ({ sublist with filehashvalue := item.filehashvalue } :: database, true)
      else (sublist :: database, false)
    else
      let (database, process) := updateItem database item
      (sublist :: database, process)

structure Incremental where
  database : List Item
  filelistToProcess : List Str
  newfilelist : List Str

/-- One round of the loop over `hashestowrite`. -/
def Incremental.search (s : Incremental) (hash : Str) : Incremental :=
  let item := itemOf hash
  let (database, process) := updateItem s.database item
  if process then ⟨database, s.filelistToProcess ++ [hash], s.newfilelist ++ [item.filepath]⟩
  else { s with database := database }

/-! ## A run -/

/-- The database file and `filehashes.txt` after a run, and the files it compressed. -/
structure Created where
  databaseFile : Option Bytes
  filehashes : Option Bytes
  files : List Str

/-- What `filehashes.txt` is written from. -/
def filehashesText (inputpath : Str) (hashestowrite : List Str) : Str :=
  hashestowrite.flatMap fun hash => eraseAll inputpath hash ++ ['\n']

namespace CreateRun

variable (run : CreateRun)

def inputpath : Str := normalizePath (inputOf run.inputArgument)

/-- What `meowhash` prints for a file; nothing when an exception ends the script. -/
def hashResult (file : Str) : Option Str :=
  let result := meowhashMain run.meowHash (fun _ => .contents (run.contents file))
    [utf8Encode (run.tools ++ "/meowhash".toList), utf8Encode file, text "--nologo"]
  -- the message of the error is formatted with one `%` too few
  if result.1 ≠ 0 then none else utf8Decode result.2

def create (databaseFile : Option Bytes) : Option Created := do
  let hashestowrite ← run.arrivals.mapM run.hashResult
  match databaseFile with
  | none =>
    return ⟨some (utf8Encode (databaseText (hashestowrite.map itemOf))),
      some (utf8Encode (filehashesText run.inputpath hashestowrite)), run.files⟩
  | some content =>
    let database ← readItems content
    let s := hashestowrite.foldl Incremental.search ⟨database, [], []⟩
    -- found nothing to do
    if s.filelistToProcess = [] then return ⟨databaseFile, none, []⟩
    return ⟨some (utf8Encode (databaseText s.database)),
      some (utf8Encode (filehashesText run.inputpath s.filelistToProcess)), s.newfilelist⟩

/-- The files a run compresses when it finds the database file. -/
def processed (databaseFile : Option Bytes) : Option (List Str) := (run.create databaseFile).map Created.files

/-! ## Entries -/

/-- The entry of a file. -/
def item (file : Str) : Item := ⟨label, hashText (run.meowHash (run.contents file)), file⟩

def items : List Item := run.arrivals.map run.item

/-- The entry as `filehashes.txt` has it. -/
def listedItem (item : Item) : Item := { item with filepath := eraseAll run.inputpath item.filepath }

end CreateRun

/-- An entry of a hash, with a path that is read back as it is written. -/
structure Item.Recorded (item : Item) : Prop where
  func : item.filehashfunc = label
  value : ∃ hash, item.filehashvalue = hashText hash
  path : '\n' ∉ item.filepath ∧ '\r' ∉ item.filepath
  stripped : strip item.filepath = item.filepath

/-- The entries of a database file, if it is there. -/
def readDatabase : Option Bytes → Option (List Item)
  | none => some []
  | some content => readItems content

/-- The file has these entries. -/
structure Holds (databaseFile : Option Bytes) (items : List Item) : Prop where
  reads : readDatabase databaseFile = some items
  recorded : ∀ item ∈ items, item.Recorded

/-- The hash of a path. -/
def hashIn (items : List Item) (path : Str) : Option Str :=
  (lookup Item.filepath path items).map Item.filehashvalue

/-- The file is new or changed. -/
def Changed (database : List Item) (item : Item) : Prop :=
  hashIn database item.filepath ≠ some item.filehashvalue

instance (database : List Item) (item : Item) : Decidable (Changed database item) :=
  inferInstanceAs (Decidable (_ ≠ _))

/-! ## Reading back -/

theorem mem_label {c : Char} (mem : c ∈ label) : c ≠ ' ' ∧ c ≠ '\n' ∧ c ≠ '\r' ∧ c ≠ '/' := by
  have all : label.all (fun c => decide (c ≠ ' ' ∧ c ≠ '\n' ∧ c ≠ '\r' ∧ c ≠ '/')) = true := by decide
  exact of_decide_eq_true (List.all_eq_true.mp all c mem)

theorem plain_of_hashText (hash : MeowU128) {path : Str} (oneLine : '\n' ∉ path ∧ '\r' ∉ path) :
    (⟨label, hashText hash, path⟩ : Item).Plain where
  func := ⟨fun mem => (mem_label mem).1 rfl, fun mem => (mem_label mem).2.1 rfl,
    fun mem => (mem_label mem).2.2.1 rfl⟩
  value :=
    have low {c : Char} (mem : c ∈ hashText hash) : 32 ≤ c.toNat := (mem_hashText mem).1.1
    ⟨fun mem => (mem_hashText mem).2.1 rfl, fun mem => absurd (low mem) (by decide),
      fun mem => absurd (low mem) (by decide)⟩
  path := oneLine

theorem Item.Recorded.plain {item : Item} (recorded : item.Recorded) : item.Plain := by
  obtain ⟨func, value, path⟩ := item
  obtain ⟨rfl, ⟨hash, rfl⟩, oneLine, -⟩ := recorded
  exact plain_of_hashText hash oneLine

theorem Item.Recorded.stripped_eq {item : Item} (recorded : item.Recorded) : item.stripped = item := by
  rw [Item.stripped, recorded.stripped]

/-- `itemOf` of a line that ends without a line feed. -/
theorem itemOf_itemStr {item : Item} (recorded : item.Recorded) : itemOf (itemStr item) = item := by
  rw [itemOf, itemStr, partition_append recorded.plain.func.1]
  simp only [partition_append recorded.plain.value.1, recorded.stripped]

theorem holds_databaseText {items : List Item} (recorded : ∀ item ∈ items, item.Recorded) :
    Holds (some (utf8Encode (databaseText items))) items := by
  refine ⟨?_, recorded⟩
  have same : items.map Item.stripped = items := map_eq_self fun item mem => (recorded item mem).stripped_eq
  rw [readDatabase, readItems_databaseText fun item mem => (recorded item mem).plain, same]

theorem recorded_put {database : List Item} (known : ∀ old ∈ database, old.Recorded) {item : Item}
    (recorded : item.Recorded) : ∀ old ∈ put Item.filepath item database, old.Recorded := by
  intro old mem
  cases mem_put mem with
  | inl new => exact new ▸ recorded
  | inr before => exact known old before

theorem recorded_putAll {database : List Item} (known : ∀ old ∈ database, old.Recorded) {items : List Item}
    (recorded : ∀ item ∈ items, item.Recorded) : ∀ old ∈ putAll Item.filepath items database, old.Recorded := by
  intro old mem
  cases mem_putAll mem with
  | inl new => exact recorded old new
  | inr before => exact known old before

/-! ## One search -/

theorem mergeItem_of_recorded {database : List Item} (recorded : ∀ old ∈ database, old.Recorded) {item : Item}
    (func : item.filehashfunc = label) : mergeItem database item = put Item.filepath item database := by
  have first : item.withFuncOf database = item := by
    rw [Item.withFuncOf]
    cases found : lookup Item.filepath item.filepath database with
    | none => rfl
    | some old =>
      rw [Option.map_some, Option.getD_some, (recorded old (mem_of_lookup found)).func, ← func]
  rw [mergeItem_eq_put, first]

theorem updateItem_eq (database : List Item) (item : Item) :
    updateItem database item = (mergeItem database item, decide (Changed database item)) := by
  induction database with
  | nil => rfl
  | cons sublist database ih =>
    rw [updateItem, mergeItem, ih]
    by_cases found : sublist.filepath = item.filepath
    · rw [if_pos found, if_pos found]
      by_cases same : sublist.filehashvalue = item.filehashvalue
      · have kept : { sublist with filehashvalue := item.filehashvalue } = sublist := by rw [← same]
        rw [if_neg (not_not.mpr same), kept]
        simp [Changed, hashIn, lookup_cons, found, same]
      · simp [Changed, hashIn, lookup_cons, found, same]
    · simp [Changed, hashIn, lookup_cons, found]

theorem hashIn_put_of_ne {item : Item} {path : Str} (ne : item.filepath ≠ path) (database : List Item) :
    hashIn (put Item.filepath item database) path = hashIn database path := by
  rw [hashIn, lookup_put, if_neg ne, hashIn]

theorem search_eq (s : Incremental) {item : Item} (recorded : item.Recorded) :
    s.search (itemStr item) =
      if Changed s.database item then
        ⟨mergeItem s.database item, s.filelistToProcess ++ [itemStr item], s.newfilelist ++ [item.filepath]⟩
      else { s with database := mergeItem s.database item } := by
  rw [Incremental.search, itemOf_itemStr recorded, updateItem_eq]
  simp

/-- The loop puts all entries, and the changed ones are to be processed. -/
theorem foldl_search {items : List Item} (recorded : ∀ item ∈ items, item.Recorded)
    (distinct : (items.map Item.filepath).Nodup) {s : Incremental} (known : ∀ old ∈ s.database, old.Recorded) :
    (items.map itemStr).foldl Incremental.search s =
      ⟨putAll Item.filepath items s.database,
        s.filelistToProcess ++ (items.filter (Changed s.database)).map itemStr,
        s.newfilelist ++ (items.filter (Changed s.database)).map Item.filepath⟩ := by
  induction items generalizing s with
  | nil => simp
  | cons item items ih =>
    rw [List.forall_mem_cons] at recorded
    rw [List.map_cons, List.nodup_cons] at distinct
    have merged := mergeItem_of_recorded known recorded.1.func
    have known' := recorded_put known recorded.1
    -- the entry that was put is under none of the paths that follow
    have later : items.filter (Changed (put Item.filepath item s.database)) = items.filter (Changed s.database) := by
      refine List.filter_congr fun other mem => ?_
      have ne : item.filepath ≠ other.filepath := by
        intro same
        exact distinct.1 (same ▸ List.mem_map_of_mem mem)
      rw [decide_eq_decide, Changed, Changed, hashIn_put_of_ne ne]
    rw [List.map_cons, List.foldl_cons, search_eq s recorded.1, putAll_cons, merged]
    split
    case isTrue changed =>
      rw [ih recorded.2 distinct.2 known']
      simp [later, changed]
    case isFalse unchanged =>
      rw [ih recorded.2 distinct.2 known']
      simp [later, unchanged]

/-- Where nothing has changed the puts leave the database as it is. -/
theorem putAll_of_unchanged {items database : List Item} (recorded : ∀ item ∈ items, item.Recorded)
    (known : ∀ old ∈ database, old.Recorded) (unchanged : items.filter (Changed database) = []) :
    putAll Item.filepath items database = database := by
  induction items with
  | nil => rfl
  | cons item items ih =>
    rw [List.forall_mem_cons] at recorded
    rw [List.filter_eq_nil_iff, List.forall_mem_cons] at unchanged
    have same : hashIn database item.filepath = some item.filehashvalue :=
      not_not.mp fun changed => unchanged.1 (decide_eq_true changed)
    obtain ⟨old, found, value⟩ := Option.map_eq_some_iff.mp same
    have func : old.filehashfunc = item.filehashfunc := by
      rw [(known old (mem_of_lookup found)).func, recorded.1.func]
    have isOld : old = item :=
      calc old = ⟨old.filehashfunc, old.filehashvalue, old.filepath⟩ := rfl
        _ = item := by rw [func, value, key_of_lookup found]
    rw [putAll_cons, put_self (isOld ▸ found), ih recorded.2 (List.filter_eq_nil_iff.mpr unchanged.2)]

/-! ## What a run leaves -/

theorem changed_nil (item : Item) : Changed [] item := by simp [Changed, hashIn]

theorem getLast_normalizePath_inputOf (argument : Str) :
    (normalizePath (inputOf argument)).getLast? = some '/' := by
  rw [normalizePath, List.getLast?_map, inputOf]
  split
  case isTrue ends =>
    rcases ends with slash | backslash
    · rw [slash]
      rfl
    · rw [backslash]
      rfl
  case isFalse =>
    rw [List.getLast?_concat]
    rfl

theorem slash_mem_normalizePath_inputOf (argument : Str) : '/' ∈ normalizePath (inputOf argument) :=
  List.mem_of_getLast? (getLast_normalizePath_inputOf argument)

/-- A line of a path that starts with the input loses it there, and in the rest of the path. -/
theorem eraseAll_line {input : Str} (slash : '/' ∈ input) (hash : MeowU128) (path : Str) :
    eraseAll input (itemStr ⟨label, hashText hash, input ++ path⟩) =
      itemStr ⟨label, hashText hash, eraseAll input path⟩ := by
  have noSlash : '/' ∉ label ++ ' ' :: (hashText hash ++ [' ']) := by
    simp only [List.mem_append, List.mem_cons, not_or]
    exact ⟨fun mem => (mem_label mem).2.2.2 rfl, by decide, fun mem => (mem_hashText mem).2.2 rfl, by decide, by simp⟩
  have line (path : Str) :
      itemStr ⟨label, hashText hash, path⟩ = (label ++ ' ' :: (hashText hash ++ [' '])) ++ path := by
    simp [itemStr]
  rw [line, eraseAll_append_of_mem slash noSlash, line]

namespace CreateRun

variable {run : CreateRun}

theorem mem_items {item : Item} : item ∈ run.items ↔ ∃ file ∈ run.files, item = run.item file := by
  rw [items, List.mem_map]
  constructor
  · rintro ⟨file, mem, rfl⟩
    exact ⟨file, run.arrivals_perm.mem_iff.mp mem, rfl⟩
  · rintro ⟨file, mem, rfl⟩
    exact ⟨file, run.arrivals_perm.mem_iff.mpr mem, rfl⟩

theorem item_recorded {file : Str} (mem : file ∈ run.files) : (run.item file).Recorded where
  func := rfl
  value := ⟨_, rfl⟩
  path := run.oneLine file mem
  stripped := run.noSpaces file mem

theorem recorded_of_mem_items {item : Item} (mem : item ∈ run.items) : item.Recorded := by
  obtain ⟨file, found, rfl⟩ := mem_items.mp mem
  exact item_recorded found

theorem filepath_items : run.items.map Item.filepath = run.arrivals := by
  rw [items, List.map_map]
  exact List.map_id _

theorem hashResult_eq (file : Str) : run.hashResult file = some (itemStr (run.item file)) := by
  have prints := hashOneFile_utf8Encode run.meowHash file (run.contents file)
  have same : hashStr (hashText (run.meowHash (run.contents file))) file = itemStr (run.item file) := rfl
  rw [hashResult, meowhashMain_path, prints, same]
  simp

theorem mapM_hashResult (files : List Str) :
    files.mapM run.hashResult = some (files.map fun file => itemStr (run.item file)) := by
  rw [funext hashResult_eq]
  exact List.mapM_pure

/-- The input is cut off the path and nothing else of the line. -/
theorem eraseAll_itemStr {item : Item} (mem : item ∈ run.items) :
    eraseAll run.inputpath (itemStr item) = itemStr (run.listedItem item) := by
  obtain ⟨file, found, rfl⟩ := mem_items.mp mem
  obtain ⟨name, rfl⟩ := run.under file found
  have slash : '/' ∈ run.inputpath := slash_mem_normalizePath_inputOf _
  have alone := eraseAll_append_of_mem slash (List.not_mem_nil (a := '/')) name
  rw [List.nil_append, List.nil_append] at alone
  calc eraseAll run.inputpath (itemStr (run.item (run.inputpath ++ name)))
      = itemStr ⟨label, hashText (run.meowHash (run.contents (run.inputpath ++ name))),
          eraseAll run.inputpath name⟩ := eraseAll_line slash _ name
    _ = itemStr (run.listedItem (run.item (run.inputpath ++ name))) := by
        rw [listedItem, item, alone]

theorem filehashesText_eq {todo : List Item} (inside : ∀ item ∈ todo, item ∈ run.items) :
    filehashesText run.inputpath (todo.map itemStr) = databaseText (todo.map run.listedItem) := by
  rw [filehashesText, databaseText, List.flatMap_map, List.flatMap_map]
  refine List.flatMap_congr fun item mem => ?_
  rw [eraseAll_itemStr (inside item mem)]

/-- What a run leaves where the database file holds `database`. -/
structure Leaves (run : CreateRun) (database : List Item) (created : Created) : Prop where
  databaseFile : Holds created.databaseFile (putAll Item.filepath run.items database)
  files : created.files.Perm (run.files.filter fun file => Changed database (run.item file))
  filehashes : created.filehashes =
      some (utf8Encode (databaseText ((run.items.filter (Changed database)).map run.listedItem))) ∨
    created.filehashes = none ∧ run.items.filter (Changed database) = []

theorem filepath_filter (database : List Item) : (run.items.filter (Changed database)).map Item.filepath =
    run.arrivals.filter fun file => Changed database (run.item file) := by
  rw [items, List.filter_map, List.map_map]
  exact List.map_id _

theorem nodup_filepath_items : (run.items.map Item.filepath).Nodup := by
  rw [filepath_items]
  exact run.arrivals_perm.nodup_iff.mpr run.distinct

theorem mapM_arrivals : run.arrivals.mapM run.hashResult = some (run.items.map itemStr) := by
  rw [mapM_hashResult, items, List.map_map]
  rfl

theorem create_none : run.create none =
    some ⟨some (utf8Encode (databaseText run.items)),
      some (utf8Encode (databaseText (run.items.map run.listedItem))), run.files⟩ := by
  have entries : (run.items.map itemStr).map itemOf = run.items := by
    rw [List.map_map]
    exact map_eq_self fun item mem => itemOf_itemStr (recorded_of_mem_items mem)
  have list := @filehashesText_eq run run.items fun item mem => mem
  rw [create, mapM_arrivals]
  simp only [Option.bind_eq_bind, Option.bind_some, entries, list, Option.pure_def]

theorem create_some {content : Bytes} {database : List Item} (holds : Holds (some content) database) :
    run.create (some content) = some
      (if run.items.filter (Changed database) = [] then ⟨some content, none, []⟩
      else ⟨some (utf8Encode (databaseText (putAll Item.filepath run.items database))),
        some (utf8Encode (databaseText ((run.items.filter (Changed database)).map run.listedItem))),
        (run.items.filter (Changed database)).map Item.filepath⟩) := by
  have reads : readItems content = some database := holds.reads
  have searched := @foldl_search run.items (fun item mem => recorded_of_mem_items mem) nodup_filepath_items
    ⟨database, [], []⟩ holds.recorded
  have list := @filehashesText_eq run (run.items.filter (Changed database))
    fun item mem => List.filter_sublist.subset mem
  simp only [List.nil_append] at searched
  rw [create, mapM_arrivals]
  by_cases nothing : run.items.filter (Changed database) = []
  · simp [reads, searched, nothing]
  · simp [reads, searched, nothing, list]

/-- A run goes through, and leaves the entries of its files in the database. -/
theorem exists_create {databaseFile : Option Bytes} {database : List Item} (holds : Holds databaseFile database) :
    ∃ created, run.create databaseFile = some created ∧ Leaves run database created := by
  cases databaseFile with
  | none =>
    cases Option.some.inj holds.reads
    -- without a database everything is new
    have all : run.items.filter (Changed []) = run.items :=
      List.filter_eq_self.mpr fun item _ => decide_eq_true (changed_nil item)
    have allFiles : (run.files.filter fun file => Changed [] (run.item file)) = run.files :=
      List.filter_eq_self.mpr fun file _ => decide_eq_true (changed_nil _)
    refine ⟨_, create_none, ?_, ?_, ?_⟩
    · rw [putAll_of_nodup nodup_filepath_items]
      exact holds_databaseText fun item mem => recorded_of_mem_items mem
    · rw [allFiles]
    · rw [all]
      exact Or.inl rfl
  | some content =>
    have known := holds.recorded
    have processed : ((run.items.filter (Changed database)).map Item.filepath).Perm
        (run.files.filter fun file => Changed database (run.item file)) := by
      rw [filepath_filter]
      exact run.arrivals_perm.filter _
    refine ⟨_, create_some holds, ?_⟩
    split
    case isTrue nothing =>
      rw [nothing] at processed
      refine ⟨?_, processed, Or.inr ⟨rfl, nothing⟩⟩
      rwa [putAll_of_unchanged (fun item mem => recorded_of_mem_items mem) known nothing]
    case isFalse =>
      have recorded := recorded_putAll known fun item => @recorded_of_mem_items run item
      exact ⟨holds_databaseText recorded, processed, Or.inl rfl⟩

end CreateRun
end BackupSuite.Python
