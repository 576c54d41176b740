import BackupSuite.CtrlCenter.Rebuild
import BackupSuite.Python.MergeFilehashes

/-! # The merges of the script and of `ctrlcenter2`

They differ in three things: `strip` takes white space off the paths, an update of the
script overwrites the hash value only, and the script needs UTF-8.  `mergesAgree_iff` says
that otherwise the two write the same database, as far as the sizes fit `ctrlcenter2`.
-/

namespace BackupSuite.Python

open BackupSuite.Library BackupSuite.CtrlCenter

/-- Both write the database, and both the same. -/
def MergesAgree (m : MergeRun) (database filehashes : List FileEntry) : Prop :=
  ∃ written,
    mergeFilehashesToDatabase (some (fileText database)) (some (fileText filehashes)) = some written ∧
      m.perform (some (fileText filehashes)) (some (fileText database)) = ⟨none, true, some written⟩

/-- When they do. -/
structure Mergeable (database filehashes : List FileEntry) : Prop where
  databaseDecodes : (utf8Decode (fileText database)).isSome
  filehashesDecode : (utf8Decode (fileText filehashes)).isSome
  /-- no path starts or ends with white space -/
  stripped : ∀ e ∈ database ++ filehashes, (utf8Decode e.mPath).map strip = utf8Decode e.mPath
  /-- the last line of a path has the `func` of the first one -/
  funcs : ∀ e ∈ filehashes,
    (lastWith FileEntry.mPath e.mPath filehashes).map FileEntry.mHashFunc =
      (lookup FileEntry.mPath e.mPath (database ++ filehashes)).map FileEntry.mHashFunc
  databaseFits : Fits (fileText database)
  filehashesFit : Fits (fileText filehashes)

/-! ## Entries and items -/

def Item.entry (item : Item) : FileEntry :=
  ⟨utf8Encode item.filehashfunc, utf8Encode item.filehashvalue, utf8Encode item.filepath⟩

theorem entry_mPath_inj (a b : Item) : a.entry.mPath = b.entry.mPath ↔ a.filepath = b.filepath := utf8Encode_inj

theorem not_mem_of_token {s : Str} (token : IsToken (utf8Encode s)) :
    ' ' ∉ s ∧ '\n' ∉ s ∧ '\r' ∉ s := by
  refine ⟨fun mem => ?_, fun mem => ?_, fun mem => ?_⟩
  · exact token.not_mem (by decide) (mem_utf8Encode_of_ascii (c := ' ') (by decide) mem)
  · exact token.not_mem (by decide) (mem_utf8Encode_of_ascii (c := '\n') (by decide) mem)
  · exact token.not_mem (by decide) (mem_utf8Encode_of_ascii (c := '\r') (by decide) mem)

theorem plain_of_wellFormed {item : Item} (wf : item.entry.WellFormed) : item.Plain where
  func := not_mem_of_token wf.func
  value := not_mem_of_token wf.value
  path := by
    refine ⟨fun mem => ?_, fun mem => ?_⟩
    · have clean := wf.path.clean _ (mem_utf8Encode_of_ascii (c := '\n') (by decide) mem)
      exact absurd clean (by decide)
    · have clean := wf.path.clean _ (mem_utf8Encode_of_ascii (c := '\r') (by decide) mem)
      exact absurd clean (by decide)

theorem fileText_map_entry {items : List Item} (wf : ∀ item ∈ items, item.entry.WellFormed) :
    fileText (items.map Item.entry) = utf8Encode (databaseText items) := by
  induction items with
  | nil => rfl
  | cons item items ih =>
    have blank : String.utf8EncodeChar ' ' = [32] := by decide
    have newline : String.utf8EncodeChar '\n' = [10] := by decide
    have line : printEntry item.entry = utf8Encode (itemStr item ++ ['\n']) := by
      rw [(wf item List.mem_cons_self).printEntry]
      simp [Item.entry, itemStr, blank, newline]
    rw [List.map_cons, fileText_cons, line, ih fun other mem => wf other (List.mem_cons_of_mem _ mem),
      databaseText_cons, ← utf8Encode_append, List.append_assoc]
    rfl

theorem exists_items {entries : List FileEntry} (wf : ∀ e ∈ entries, e.WellFormed) {text : Str}
    (decodes : utf8Encode text = fileText entries) : ∃ items : List Item, items.map Item.entry = entries := by
  induction entries generalizing text with
  | nil => exact ⟨[], rfl⟩
  | cons e entries ih =>
    have split : utf8Encode text =
        e.mHashFunc ++ 32 :: (e.mHashValue ++ 32 :: (e.mPath ++ 10 :: fileText entries)) := by
      rw [decodes, fileText_cons, (wf e List.mem_cons_self).printEntry]
      simp
    -- the text is cut at the two blanks and the line end
    obtain ⟨func, behindFunc, -, isFunc, split⟩ := exists_of_utf8Encode (c := ' ') (by decide) split
    obtain ⟨value, behindValue, -, isValue, split⟩ := exists_of_utf8Encode (c := ' ') (by decide) split
    obtain ⟨path, rest, -, isPath, split⟩ := exists_of_utf8Encode (c := '\n') (by decide) split
    obtain ⟨items, rfl⟩ := ih (fun other mem => wf other (List.mem_cons_of_mem _ mem)) split
    refine ⟨⟨func, value, path⟩ :: items, ?_⟩
    rw [List.map_cons, Item.entry, isFunc, isValue, isPath]

theorem wellFormed_entries {items : List Item} (wf : ∀ item ∈ items, item.entry.WellFormed) :
    ∀ e ∈ items.map Item.entry, e.WellFormed := by
  rw [List.forall_mem_map]
  exact wf

/-! ## The two merges on items -/

section

variable {database filehashes : List Item} (wfDatabase : ∀ item ∈ database, item.entry.WellFormed)
  (wfFilehashes : ∀ item ∈ filehashes, item.entry.WellFormed)

include wfDatabase wfFilehashes

theorem script_eq : mergeFilehashesToDatabase (some (fileText (database.map Item.entry)))
    (some (fileText (filehashes.map Item.entry))) =
      some (utf8Encode (databaseText
        ((filehashes.map Item.stripped).foldl mergeItem (database.map Item.stripped)))) := by
  have readDatabase := readItems_databaseText fun item mem => plain_of_wellFormed (wfDatabase item mem)
  have readFilehashes := readItems_databaseText fun item mem => plain_of_wellFormed (wfFilehashes item mem)
  rw [fileText_map_entry wfDatabase, fileText_map_entry wfFilehashes, mergeFilehashesToDatabase]
  simp only [Option.bind_eq_bind, Option.bind_some, readDatabase, readFilehashes]
  rfl

theorem wellFormed_putAll : ∀ item ∈ putAll Item.filepath filehashes database, item.entry.WellFormed := by
  intro item mem
  cases mem_putAll mem with
  | inl new => exact wfFilehashes item new
  | inr old => exact wfDatabase item old

theorem plain_foldl_stripped :
    ∀ item ∈ (filehashes.map Item.stripped).foldl mergeItem (database.map Item.stripped), item.Plain := by
  have stripped : ∀ items : List Item, (∀ item ∈ items, item.entry.WellFormed) →
      ∀ item ∈ items.map Item.stripped, item.Plain := by
    intro items wf item mem
    obtain ⟨raw, inside, rfl⟩ := List.mem_map.mp mem
    exact (plain_of_wellFormed (wf raw inside)).stripped
  have plainDatabase := stripped database wfDatabase
  have plainFilehashes := stripped filehashes wfFilehashes
  intro item mem
  rw [foldl_mergeItem] at mem
  cases mem_putAll mem with
  | inl new =>
    obtain ⟨listed, inside, rfl⟩ := List.mem_map.mp new
    refine (plainFilehashes listed inside).withFuncOf fun first isIn => ?_
    exact (List.mem_append.mp isIn).elim (plainDatabase first) (plainFilehashes first)
  | inr old => exact plainDatabase item old

theorem perform_eq (m : MergeRun) (databaseFits : Fits (fileText (database.map Item.entry)))
    (filehashesFit : Fits (fileText (filehashes.map Item.entry))) :
    m.perform (some (fileText (filehashes.map Item.entry))) (some (fileText (database.map Item.entry))) =
      ⟨none, true, some (utf8Encode (databaseText (putAll Item.filepath filehashes database)))⟩ := by
  have list := encodes_fileText (wellFormed_entries wfFilehashes)
  have old := encodes_fileText (wellFormed_entries wfDatabase)
  rw [m.perform_of_encodes list filehashesFit old databaseFits, putAll_map entry_mPath_inj,
    fileText_map_entry (wellFormed_putAll wfDatabase wfFilehashes)]

/-- The two write the same when they merge to the same items. -/
theorem mergesAgree_items_iff (m : MergeRun) (databaseFits : Fits (fileText (database.map Item.entry)))
    (filehashesFit : Fits (fileText (filehashes.map Item.entry))) :
    MergesAgree m (database.map Item.entry) (filehashes.map Item.entry) ↔
      (∀ item ∈ database ++ filehashes, strip item.filepath = item.filepath) ∧
        SameFuncs database filehashes := by
  rw [MergesAgree, script_eq wfDatabase wfFilehashes,
    perform_eq wfDatabase wfFilehashes m databaseFits filehashesFit, ← foldl_stripped_iff]
  constructor
  · rintro ⟨written, script, tool⟩
    have text := Option.some.inj ((MergeEnd.mk.inj tool).2.2.trans script.symm)
    have plain : ∀ item ∈ putAll Item.filepath filehashes database, item.Plain :=
      fun item mem => plain_of_wellFormed (wellFormed_putAll wfDatabase wfFilehashes item mem)
    exact databaseText_inj (plain_foldl_stripped wfDatabase wfFilehashes) plain (utf8Encode_inj.mp text.symm)
  · intro same
    exact ⟨_, rfl, by rw [same]⟩

end

theorem sameFuncs_iff {database filehashes : List Item} :
    SameFuncs database filehashes ↔ ∀ e ∈ filehashes.map Item.entry,
      (lastWith FileEntry.mPath e.mPath (filehashes.map Item.entry)).map FileEntry.mHashFunc =
        (lookup FileEntry.mPath e.mPath (database.map Item.entry ++ filehashes.map Item.entry)).map
          FileEntry.mHashFunc := by
  have func : FileEntry.mHashFunc ∘ Item.entry = utf8Encode ∘ Item.filehashfunc := rfl
  have injective : Function.Injective utf8Encode := fun _ _ => utf8Encode_inj.mp
  rw [List.forall_mem_map, SameFuncs]
  refine forall₂_congr fun item _ => ?_
  rw [← List.map_append, lastWith_map entry_mPath_inj, lookup_map entry_mPath_inj, Option.map_map,
    Option.map_map, func, ← Option.map_map, ← Option.map_map]
  exact (Option.map_injective injective).eq_iff.symm

/-! ## The two merges on files -/

theorem isSome_of_script {databaseFile filehashesFile written : Bytes}
    (script : mergeFilehashesToDatabase (some databaseFile) (some filehashesFile) = some written) :
    (utf8Decode databaseFile).isSome ∧ (utf8Decode filehashesFile).isSome := by
  simp only [mergeFilehashesToDatabase, readItems, readText, Option.bind_eq_bind, Option.bind_some,
    Option.bind_eq_some_iff, Option.map_eq_some_iff] at script
  obtain ⟨_, ⟨_, ⟨_, decoded, _⟩, _⟩, _, ⟨_, ⟨_, decoded', _⟩, _⟩, _⟩ := script
  rw [decoded, decoded']
  exact ⟨rfl, rfl⟩

theorem perform_aborts_database (m : MergeRun) {filehashesFile databaseFile : Option Bytes}
    {es : List FileEntry} (database : Encodes databaseFile es) (big : ¬ Fits (fileText es))
    (bounded : (fileText es).length + 10 < 4294967296) :
    m.perform filehashesFile databaseFile = ⟨some .aborts, false, databaseFile⟩ := by
  simp only [MergeRun.perform, mergeMode, MergeRun.io, database.aborts big bounded]

variable {database filehashes : List FileEntry} (m : MergeRun)

theorem mergesAgree_of_mergeable (wfDatabase : ∀ e ∈ database, e.WellFormed)
    (wfFilehashes : ∀ e ∈ filehashes, e.WellFormed) (mergeable : Mergeable database filehashes) :
    MergesAgree m database filehashes := by
  obtain ⟨text, decoded⟩ := Option.isSome_iff_exists.mp mergeable.databaseDecodes
  obtain ⟨list, decoded'⟩ := Option.isSome_iff_exists.mp mergeable.filehashesDecode
  obtain ⟨items, rfl⟩ := exists_items wfDatabase (utf8Decode_eq_some.mp decoded)
  obtain ⟨items', rfl⟩ := exists_items wfFilehashes (utf8Decode_eq_some.mp decoded')
  rw [List.forall_mem_map] at wfDatabase wfFilehashes
  rw [mergesAgree_items_iff wfDatabase wfFilehashes m mergeable.databaseFits mergeable.filehashesFit]
  refine ⟨fun item mem => ?_, sameFuncs_iff.mpr mergeable.funcs⟩
  have inEntries : item.entry ∈ items.map Item.entry ++ items'.map Item.entry := by
    rw [← List.map_append]
    exact List.mem_map_of_mem mem
  have path := mergeable.stripped _ inEntries
  rw [Item.entry, utf8Decode_utf8Encode, Option.map_some] at path
  exact Option.some.inj path

theorem mergeable_of_mergesAgree (wfDatabase : ∀ e ∈ database, e.WellFormed)
    (wfFilehashes : ∀ e ∈ filehashes, e.WellFormed)
    (databaseBounded : (fileText database).length + 10 < 4294967296)
    (filehashesBounded : (fileText filehashes).length + 10 < 4294967296)
    (agree : MergesAgree m database filehashes) : Mergeable database filehashes := by
  obtain ⟨written, script, tool⟩ := agree
  obtain ⟨decodes, decodes'⟩ := isSome_of_script script
  -- a file that is too long ends `ctrlcenter2` with an exception
  have databaseFits : Fits (fileText database) := by
    by_contra big
    rw [perform_aborts_database m (encodes_fileText wfDatabase) big databaseBounded] at tool
    cases tool
  have filehashesFit : Fits (fileText filehashes) := by
    by_contra big
    rw [m.perform_aborts (encodes_fileText wfFilehashes) big filehashesBounded
      (encodes_fileText wfDatabase) databaseFits] at tool
    cases tool
  obtain ⟨text, decoded⟩ := Option.isSome_iff_exists.mp decodes
  obtain ⟨list, decoded'⟩ := Option.isSome_iff_exists.mp decodes'
  obtain ⟨items, rfl⟩ := exists_items wfDatabase (utf8Decode_eq_some.mp decoded)
  obtain ⟨items', rfl⟩ := exists_items wfFilehashes (utf8Decode_eq_some.mp decoded')
  rw [List.forall_mem_map] at wfDatabase wfFilehashes
  obtain ⟨strips, funcs⟩ := (mergesAgree_items_iff wfDatabase wfFilehashes m databaseFits
    filehashesFit).mp ⟨written, script, tool⟩
  refine ⟨decodes, decodes', fun e mem => ?_, sameFuncs_iff.mp funcs, databaseFits, filehashesFit⟩
  rw [← List.map_append] at mem
  obtain ⟨item, inside, rfl⟩ := List.mem_map.mp mem
  rw [Item.entry, utf8Decode_utf8Encode, Option.map_some, strips item inside]

/-- The two merges agree for the files that are `Mergeable`, and up to 4 GiB for no others. -/
theorem mergesAgree_iff (m : MergeRun) (database filehashes : List FileEntry)
    (wfDatabase : ∀ e ∈ database, e.WellFormed) (wfFilehashes : ∀ e ∈ filehashes, e.WellFormed) :
    (Mergeable database filehashes → MergesAgree m database filehashes) ∧
      ((fileText database).length + 10 < 4294967296 → (fileText filehashes).length + 10 < 4294967296 →
        MergesAgree m database filehashes → Mergeable database filehashes) :=
  ⟨mergesAgree_of_mergeable m wfDatabase wfFilehashes, mergeable_of_mergesAgree m wfDatabase wfFilehashes⟩

/-- A new hash for a path with a blank inside, and a new path with a letter of two bytes. -/
theorem mergesAgree_two :
    MergesAgree ⟨[], [], []⟩ [⟨text "MeowHash", text "1", text "a b"⟩]
      [⟨text "MeowHash", text "2", text "a b"⟩, ⟨text "MeowHash", text "3", [195, 164]⟩] :=
  (mergesAgree_iff ⟨[], [], []⟩ _ _ (by decide) (by decide)).1
    ⟨by decide, by decide, by decide, by decide, by decide, by decide⟩

/-- The script loses the blank at the end of a path. -/
theorem not_mergesAgree :
    ¬ MergesAgree ⟨[], [], []⟩ [] [⟨text "MeowHash", text "1", text "a "⟩] := by
  intro agree
  have mergeable := mergeable_of_mergesAgree _ (by decide) (by decide) (by decide) (by decide) agree
  have stripped := mergeable.stripped
  revert stripped
  decide

end BackupSuite.Python
