import BackupSuite.Library.KeyedList
import BackupSuite.Python.Text

/-! # `mergeFilehashesToDatabase`

The merge of the script, and what it is in terms of `putAll`: the script strips the
paths, and what it puts has the `func` that came first under the path
(`foldl_mergeItem`).
-/

namespace BackupSuite.Python

open BackupSuite.Library BackupSuite.CtrlCenter

/-- `[filehashfunc, filehashvalue, filepath]` -/
structure Item where
  filehashfunc : Str
  filehashvalue : Str
  filepath : Str
deriving DecidableEq, Repr

def itemOf (line : Str) : Item :=
  let (filehashfunc, _, rest) := partition ' ' line
  let (filehashvalue, _, filepath) := partition ' ' rest
  ⟨filehashfunc, filehashvalue, strip filepath⟩

def readItems (content : Bytes) : Option (List Item) := (readText content).map fun text => (lines text).map itemOf

/-- The search through the database for one line of the list. -/
def mergeItem : List Item → Item → List Item
  | [], item => [item]
  | sublist :: database, item =>
    if sublist.filepath = item.filepath then
      { sublist with filehashvalue := item.filehashvalue } :: database
    else sublist :: mergeItem database item

def itemStr (item : Item) : Str :=
  item.filehashfunc ++ ' ' :: (item.filehashvalue ++ ' ' :: item.filepath)

/-- `f.write("%s\n" % itemStr)` for every item. -/
def databaseText (database : List Item) : Str := database.flatMap fun item => itemStr item ++ ['\n']

/-- What is written to the database file; nothing when an exception ends the script before. -/
def mergeFilehashesToDatabase (databaseFile filehashesFile : Option Bytes) : Option Bytes := do
  let database ← match databaseFile with
    | none => some []
    | some content => readItems content
  let filehashes ← readItems (← filehashesFile)
  return utf8Encode (databaseText (filehashes.foldl mergeItem database))

/-! ## Reading back the fields -/

/-- The fields are where `partition` and the line ends find them. -/
structure Item.Plain (item : Item) : Prop where
  func : ' ' ∉ item.filehashfunc ∧ '\n' ∉ item.filehashfunc ∧ '\r' ∉ item.filehashfunc
  value : ' ' ∉ item.filehashvalue ∧ '\n' ∉ item.filehashvalue ∧ '\r' ∉ item.filehashvalue
  path : '\n' ∉ item.filepath ∧ '\r' ∉ item.filepath

def Item.stripped (item : Item) : Item := { item with filepath := strip item.filepath }

theorem Item.Plain.stripped {item : Item} (plain : item.Plain) : item.stripped.Plain where
  func := plain.func
  value := plain.value
  path :=
    ⟨fun mem => plain.path.1 ((strip_sublist _).subset mem),
      fun mem => plain.path.2 ((strip_sublist _).subset mem)⟩

@[simp] theorem databaseText_nil : databaseText [] = [] := rfl

theorem databaseText_cons (item : Item) (items : List Item) :
    databaseText (item :: items) = itemStr item ++ '\n' :: databaseText items := by
  rw [databaseText, List.flatMap_cons, List.append_assoc]
  rfl

theorem Item.Plain.noNewline {item : Item} (plain : item.Plain) : '\n' ∉ itemStr item := by
  simp only [itemStr, List.mem_append, List.mem_cons, not_or]
  exact ⟨plain.func.2.1, by decide, plain.value.2.1, by decide, plain.path.1⟩

theorem Item.Plain.noReturn {item : Item} (plain : item.Plain) : '\r' ∉ itemStr item := by
  simp only [itemStr, List.mem_append, List.mem_cons, not_or]
  exact ⟨plain.func.2.2, by decide, plain.value.2.2, by decide, plain.path.2⟩

theorem itemOf_line {item : Item} (plain : item.Plain) : itemOf (itemStr item ++ ['\n']) = item.stripped := by
  have line : itemStr item ++ ['\n'] =
      item.filehashfunc ++ ' ' :: (item.filehashvalue ++ ' ' :: (item.filepath ++ ['\n'])) := by
    simp [itemStr]
  rw [itemOf, line, partition_append plain.func.1]
  simp only [partition_append plain.value.1, strip_concat (c := '\n') (by decide)]
  rfl

theorem noReturn_databaseText {items : List Item} (plain : ∀ item ∈ items, item.Plain) :
    '\r' ∉ databaseText items := by
  intro mem
  obtain ⟨item, inside, inLine⟩ := List.mem_flatMap.mp mem
  cases List.mem_append.mp inLine with
  | inl inItem => exact (plain item inside).noReturn inItem
  | inr inEnd => exact absurd (List.mem_singleton.mp inEnd) (by decide)

theorem lines_databaseText {items : List Item} (plain : ∀ item ∈ items, item.Plain) :
    (lines (databaseText items)).map itemOf = items.map Item.stripped := by
  induction items with
  | nil => rfl
  | cons item items ih =>
    have here := plain item List.mem_cons_self
    rw [databaseText_cons, lines_line here.noNewline, List.map_cons, List.map_cons, itemOf_line here,
      ih fun other mem => plain other (List.mem_cons_of_mem _ mem)]

theorem readItems_databaseText {items : List Item} (plain : ∀ item ∈ items, item.Plain) :
    readItems (utf8Encode (databaseText items)) = some (items.map Item.stripped) := by
  rw [readItems, readText, utf8Decode_utf8Encode, Option.map_some, Option.map_some,
    translateNewlines_of_noReturn (noReturn_databaseText plain), lines_databaseText plain]

theorem append_cons_inj {c : Char} {front front' rest rest' : Str} (notIn : c ∉ front) (notIn' : c ∉ front')
    (same : front ++ c :: rest = front' ++ c :: rest') : front = front' ∧ rest = rest' := by
  have parts := partition_append notIn rest
  rw [same, partition_append notIn' rest'] at parts
  simp only [Prod.mk.injEq, true_and] at parts
  exact ⟨parts.1.symm, parts.2.symm⟩

theorem databaseText_inj {items items' : List Item} (plain : ∀ item ∈ items, item.Plain)
    (plain' : ∀ item ∈ items', item.Plain) (same : databaseText items = databaseText items') :
    items = items' := by
  induction items generalizing items' with
  | nil =>
    cases items' with
    | nil => rfl
    | cons item' items' =>
      rw [databaseText_cons, databaseText_nil] at same
      exact absurd same.symm (by simp)
  | cons item items ih =>
    cases items' with
    | nil =>
      rw [databaseText_cons, databaseText_nil] at same
      exact absurd same (by simp)
    | cons item' items' =>
      have here := plain item List.mem_cons_self
      have here' := plain' item' List.mem_cons_self
      rw [databaseText_cons, databaseText_cons] at same
      obtain ⟨strings, rest⟩ := append_cons_inj here.noNewline here'.noNewline same
      obtain ⟨funcs, behind⟩ := append_cons_inj here.func.1 here'.func.1 strings
      obtain ⟨values, paths⟩ := append_cons_inj here.value.1 here'.value.1 behind
      have items := ih (fun other mem => plain other (List.mem_cons_of_mem _ mem))
        (fun other mem => plain' other (List.mem_cons_of_mem _ mem)) rest
      cases item
      cases item'
      simp_all

/-! ## The merge as puts -/

/-- The item with the `func` of the first of `items` under its path. -/
def Item.withFuncOf (items : List Item) (item : Item) : Item :=
  { item with
    filehashfunc :=
      ((lookup Item.filepath item.filepath items).map Item.filehashfunc).getD item.filehashfunc }

@[simp] theorem withFuncOf_filepath (items : List Item) (item : Item) :
    (item.withFuncOf items).filepath = item.filepath := rfl

theorem Item.Plain.withFuncOf {items : List Item} {item : Item} (plain : item.Plain)
    (plains : ∀ first ∈ items, first.Plain) : (item.withFuncOf items).Plain := by
  refine ⟨?_, plain.value, plain.path⟩
  rw [Item.withFuncOf]
  cases found : lookup Item.filepath item.filepath items with
  | none => exact plain.func
  | some first => exact (plains first (mem_of_lookup found)).func

theorem mergeItem_eq_put (database : List Item) (item : Item) :
    mergeItem database item = put Item.filepath (item.withFuncOf database) database := by
  induction database with
  | nil => rfl
  | cons sublist database ih =>
    rw [mergeItem, put, withFuncOf_filepath]
    by_cases found : sublist.filepath = item.filepath
    · rw [if_pos found, if_pos found]
      simp [Item.withFuncOf, lookup_cons, found]
    · have later : item.withFuncOf (sublist :: database) = item.withFuncOf database := by
        rw [Item.withFuncOf, lookup_cons, if_neg found, Item.withFuncOf]
      rw [if_neg found, if_neg found, later, ih]

/-- After an update the first `func` under a path is the one it was. -/
theorem withFuncOf_put (database filehashes : List Item) (item other : Item) :
    other.withFuncOf (put Item.filepath (item.withFuncOf database) database ++ filehashes) =
      other.withFuncOf (database ++ item :: filehashes) := by
  simp only [Item.withFuncOf, lookup_append, lookup_put, lookup_cons]
  by_cases here : item.filepath = other.filepath
  · rw [if_pos here, if_pos here, here]
    cases lookup Item.filepath other.filepath database <;> rfl
  · rw [if_neg here, if_neg here]

/-- The script puts the items with the `func`s that come first. -/
theorem foldl_mergeItem (filehashes database : List Item) :
    filehashes.foldl mergeItem database =
      putAll Item.filepath (filehashes.map (Item.withFuncOf (database ++ filehashes))) database := by
  induction filehashes generalizing database with
  | nil => rfl
  | cons item filehashes ih =>
    have first : item.withFuncOf (database ++ item :: filehashes) = item.withFuncOf database := by
      rw [Item.withFuncOf, lookup_append, lookup_cons, if_pos rfl, Item.withFuncOf]
      cases lookup Item.filepath item.filepath database <;> rfl
    have rest : filehashes.map (Item.withFuncOf (mergeItem database item ++ filehashes)) =
        filehashes.map (Item.withFuncOf (database ++ item :: filehashes)) := by
      rw [mergeItem_eq_put]
      exact List.map_congr_left fun other _ => withFuncOf_put database filehashes item other
    rw [List.foldl_cons, ih, rest, List.map_cons, putAll_cons, first, mergeItem_eq_put]

/-- The last item with a path has the `func` of the first one. -/
def SameFuncs (database filehashes : List Item) : Prop :=
  ∀ item ∈ filehashes,
    (lastWith Item.filepath item.filepath filehashes).map Item.filehashfunc =
      (lookup Item.filepath item.filepath (database ++ filehashes)).map Item.filehashfunc

theorem foldl_mergeItem_eq_putAll_iff {database filehashes : List Item} :
    filehashes.foldl mergeItem database = putAll Item.filepath filehashes database ↔
      SameFuncs database filehashes := by
  rw [foldl_mergeItem]
  have last (item : Item) : lastWith Item.filepath item.filepath
      (filehashes.map (Item.withFuncOf (database ++ filehashes))) =
      (lastWith Item.filepath item.filepath filehashes).map (Item.withFuncOf (database ++ filehashes)) :=
    @lastWith_map Item Str _ Item.filepath Item Str _ Item.filepath
      (Item.withFuncOf (database ++ filehashes)) (fun _ _ => Iff.rfl) item filehashes
  -- some item is the last with the path of an item, and some item the first
  have exists_last (item : Item) (mem : item ∈ filehashes) :
      ∃ final first, lastWith Item.filepath item.filepath filehashes = some final ∧
        final.filepath = item.filepath ∧
        lookup Item.filepath item.filepath (database ++ filehashes) = some first := by
    have path : item.filepath ∈ filehashes.map Item.filepath := List.mem_map_of_mem mem
    obtain ⟨final, found⟩ := Option.ne_none_iff_exists'.mp (mt lastWith_eq_none.mp (not_not.mpr path))
    have path' : item.filepath ∈ (database ++ filehashes).map Item.filepath := by
      rw [List.map_append]
      exact List.mem_append_right _ path
    obtain ⟨first, found'⟩ := exists_lookup path'
    exact ⟨final, first, found, key_of_lookup found, found'⟩
  constructor
  · intro same item mem
    obtain ⟨final, first, isLast, path, isFirst⟩ := exists_last item mem
    have lookups := congrArg (lookup Item.filepath item.filepath) same
    rw [lookup_putAll, lookup_putAll, last, isLast] at lookups
    have func := congrArg (Option.map Item.filehashfunc) lookups
    simp only [Option.map_some, Option.some_or, Item.withFuncOf, path, isFirst, Option.getD_some] at func
    rw [isLast, isFirst]
    exact func.symm
  · intro funcs
    refine putAll_congr (by rw [List.map_map]; rfl) (fun k => ?_) database
    by_cases mem : k ∈ filehashes.map Item.filepath
    · obtain ⟨item, inside, rfl⟩ := List.mem_map.mp mem
      obtain ⟨final, first, isLast, path, isFirst⟩ := exists_last item inside
      have func := funcs item inside
      rw [isLast, isFirst, Option.map_some, Option.map_some, Option.some.injEq] at func
      have kept : final.withFuncOf (database ++ filehashes) = final := by
        have found : lookup Item.filepath final.filepath (database ++ filehashes) = some first := by
          rw [path, isFirst]
        rw [Item.withFuncOf, found, Option.map_some, Option.getD_some, ← func]
      rw [last, isLast, Option.map_some, kept]
    · rw [lastWith_eq_none.mpr mem, lastWith_eq_none.mpr]
      rw [List.map_map]
      exact mem

/-- With the paths stripped the script merges as `putAll` does exactly when there was nothing to
strip and no `func` changes. -/
theorem foldl_stripped_iff {database filehashes : List Item} :
    (filehashes.map Item.stripped).foldl mergeItem (database.map Item.stripped) =
        putAll Item.filepath filehashes database ↔
      (∀ item ∈ database ++ filehashes, strip item.filepath = item.filepath) ∧
        SameFuncs database filehashes := by
  have unchanged : (∀ item ∈ database ++ filehashes, strip item.filepath = item.filepath) →
      database.map Item.stripped = database ∧ filehashes.map Item.stripped = filehashes := by
    intro same
    have each : ∀ item ∈ database ++ filehashes, item.stripped = item := by
      intro item mem
      rw [Item.stripped, same item mem]
    constructor
    · exact map_eq_self fun item mem => each item (List.mem_append_left _ mem)
    · exact map_eq_self fun item mem => each item (List.mem_append_right _ mem)
  constructor
  · intro same
    have strips : ∀ item ∈ database ++ filehashes, strip item.filepath = item.filepath := by
      intro item mem
      -- the path is one of the merged ones, and the script's are stripped
      have inMerged : item.filepath ∈ (putAll Item.filepath filehashes database).map Item.filepath := by
        refine mem_keys_putAll ?_
        cases List.mem_append.mp mem with
        | inl old => exact Or.inr (List.mem_map_of_mem old)
        | inr new => exact Or.inl (List.mem_map_of_mem new)
      rw [← same, foldl_mergeItem] at inMerged
      obtain ⟨merged, inside, path⟩ := List.mem_map.mp inMerged
      rw [← path]
      cases mem_putAll inside with
      | inl new =>
        obtain ⟨_, inList, rfl⟩ := List.mem_map.mp new
        obtain ⟨raw, _, rfl⟩ := List.mem_map.mp inList
        exact strip_strip raw.filepath
      | inr old =>
        obtain ⟨raw, _, rfl⟩ := List.mem_map.mp old
        exact strip_strip raw.filepath
    obtain ⟨databaseSame, filehashesSame⟩ := unchanged strips
    rw [databaseSame, filehashesSame] at same
    exact ⟨strips, foldl_mergeItem_eq_putAll_iff.mp same⟩
  · rintro ⟨strips, funcs⟩
    obtain ⟨databaseSame, filehashesSame⟩ := unchanged strips
    rw [databaseSame, filehashesSame]
    exact foldl_mergeItem_eq_putAll_iff.mpr funcs

end BackupSuite.Python
