import Mathlib.Algebra.GroupWithZero.Nat
import Mathlib.Algebra.Order.BigOperators.Group.List
import Mathlib.Algebra.Order.Group.Nat
import BackupSuite.CtrlCenter.CreateRun

/-! # What failing I/O does to the database file

The file is rewritten in place, `fclose` is not looked at, and a database that
cannot be opened for reading is taken for a missing one.  `database_undamaged` says
for which outcomes of the calls the file still holds its old bytes or the complete
merge.
-/

namespace BackupSuite.CtrlCenter

open BackupSuite.Library

/-- The entries in all the bytes of the file, if parsing them comes to an end. -/
def entriesOf (unittestPath behind : Bytes) : Option Bytes → Option (List FileEntry)
  | none => some []
  | some content =>
    (parseBuffer [] (content ++ behind) content.length).map fun entries =>
      if unittestPath.length ≠ 0 then entries.map (loadedEntry unittestPath) else entries

/-- The complete encoding of the merge of the file's entries with `entries`. -/
def HoldsMerge (unittestPath behind : Bytes) (entries : List FileEntry)
    (file after : Option Bytes) : Prop :=
  ∃ old, entriesOf unittestPath behind file = some old ∧
    after = some (savedText unittestPath (mergeUpdates old entries))

/-- The file is as before or holds the complete merge with the entries of the run
(which a run that ends before it has them lacks), and after a save that returned true
it holds the merge. -/
structure Undamaged (unittestPath behind : Bytes) (runEntries : Except Stop (List FileEntry))
    (file after : Option Bytes) (saved : Bool) : Prop where
  kept : after = file ∨
    ∃ entries, runEntries = .ok entries ∧ HoldsMerge unittestPath behind entries file after
  honest : saved = true →
    ∃ entries, runEntries = .ok entries ∧ HoldsMerge unittestPath behind entries file after

/-! ## Conditions on the outcomes -/

/-- The opened file is loaded: there is a buffer for its size, the reads fill it and
the loop over it ends. -/
structure ReadOutcomes.Loads (io : ReadOutcomes) (content : Bytes) (fileSize : Int) : Prop where
  allocated : allocates fileSize = true
  parses : ∃ read, readLoop fileSize io.freads 0 = .ok read ∧
    parseBuffer [] (content.take read.toNat ++ io.behind) fileSize ≠ none

/-- The load returns, with or without entries. -/
def ReadOutcomes.Returns (io : ReadOutcomes) : Option Bytes → Prop
  | none => True
  | some content => io.opens = true → io.Loads content (toInt content.length)

/-- The load sees what is in the file: there is none, or it opens and its size fits. -/
def ReadOutcomes.Sees (io : ReadOutcomes) : Option Bytes → Prop
  | none => True
  | some content => io.opens = true ∧ Fits content

/-- Saving does no harm: the file cannot be opened for writing, or the whole text
reaches it and was merged from what the file held (or comes out the same without). -/
def SaveIsSafe (unittestPath : Bytes) (load : ReadOutcomes) (save : WriteOutcomes) (entries : List FileEntry)
    (file : Option Bytes) : Prop :=
  save.opens = false ∨
  ∃ old, entriesOf unittestPath load.behind file = some old ∧
    save.reaches (savedText unittestPath (mergeUpdates old entries)) =
      savedText unittestPath (mergeUpdates old entries) ∧
    (load.Sees file ∨ load.opens = false ∧
      savedText unittestPath (mergeUpdates [] entries) =
        savedText unittestPath (mergeUpdates old entries))

/-! ## Loading -/

theorem readBuffer_of_not_loads {io : ReadOutcomes} {content : Bytes} {fileSize : Int}
    (stuck : ¬ io.Loads content fileSize) (u : Bytes) :
    ∃ stop, readBuffer u io content fileSize = .error stop := by
  rw [readBuffer]
  cases allocated : allocates fileSize with
  | false => exact ⟨.aborts, rfl⟩
  | true =>
    cases ended : readLoop fileSize io.freads 0 with
    | error stop => exact ⟨stop, rfl⟩
    | ok read =>
      have parse : parseBuffer [] (content.take read.toNat ++ io.behind) fileSize = none := by
        by_contra ends
        exact stuck ⟨allocated, read, ended, ends⟩
      refine ⟨.hangs, ?_⟩
      simp only [if_true, Bind.bind, Except.bind, parse]

theorem readBuffer_of_loads {io : ReadOutcomes} {content : Bytes} {fileSize : Int}
    (loads : io.Loads content fileSize) (u : Bytes) :
    ∃ loaded, readBuffer u io content fileSize = .ok (true, loaded) ∧
      (fileSize = content.length → entriesOf u io.behind (some content) = some loaded) := by
  obtain ⟨allocated, read, ended, parse⟩ := loads
  obtain ⟨entries, parsed⟩ := Option.ne_none_iff_exists'.mp parse
  refine ⟨if u.length ≠ 0 then entries.map (loadedEntry u) else entries, ?_, fun whole => ?_⟩
  · exact readBuffer_of_parsed u allocated ended parsed
  · have all : read.toNat = content.length := by
      rw [readLoop_ok ended, whole]
      omega
    -- the size is the file's, so what was parsed is all its bytes
    rw [all, List.take_length, whole] at parsed
    rw [entriesOf, parsed, Option.map_some]

theorem readFileHashes_of_not_returns {io : ReadOutcomes} {file : Option Bytes}
    (stuck : ¬ io.Returns file) (u : Bytes) : ∃ stop, readFileHashes u io file = .error stop := by
  cases file with
  | none => exact absurd trivial stuck
  | some content =>
    obtain ⟨opens, stuck⟩ := Classical.not_imp.mp stuck
    rw [readFileHashes, if_pos opens]
    exact readBuffer_of_not_loads stuck u

theorem readFileHashes_of_returns {io : ReadOutcomes} {file : Option Bytes} (returns : io.Returns file)
    (u : Bytes) :
    ∃ found loaded, readFileHashes u io file = .ok (found, loaded) ∧
      (io.Sees file → entriesOf u io.behind file = some loaded) ∧
      (io.opens = false → loaded = []) := by
  cases file with
  | none => exact ⟨false, [], rfl, fun _ => rfl, fun _ => rfl⟩
  | some content =>
    cases opens : io.opens with
    | false =>
      have closed : readFileHashes u io (some content) = .ok (false, []) := by
        rw [readFileHashes, opens]
        rfl
      exact ⟨false, [], closed, fun sees => by simp [ReadOutcomes.Sees, opens] at sees, fun _ => rfl⟩
    | true =>
      obtain ⟨loaded, read, whole⟩ := readBuffer_of_loads (returns opens) u
      refine ⟨true, loaded, ?_, fun sees => whole sees.2.toInt, fun closed => by cases closed⟩
      rw [readFileHashes, if_pos opens, read]

/-! ## Merging loses no line -/

theorem length_fileText_eq_sum (entries : List FileEntry) :
    (fileText entries).length = (entries.map fun e => (printEntry e).length).sum := by
  simp [fileText, List.length_flatMap]

theorem mergeUpdates_nil_subset (old entries : List FileEntry) :
    mergeUpdates [] entries ⊆ mergeUpdates old entries := by
  intro e mem
  rw [mergeUpdates_eq_putAll] at mem ⊢
  have nodup : ((putAll FileEntry.mPath entries []).map FileEntry.mPath).Nodup :=
    nodup_keys_putAll (by simp)
  have found := lookup_of_mem nodup mem
  rw [lookup_putAll, lookup_nil, Option.or_none] at found
  have kept : lookup FileEntry.mPath e.mPath (putAll FileEntry.mPath entries old) = some e := by
    rw [lookup_putAll, found, Option.some_or]
  exact mem_of_lookup kept

theorem length_savedText_le (u : Bytes) (old entries : List FileEntry) :
    (savedText u (mergeUpdates [] entries)).length ≤
      (savedText u (mergeUpdates old entries)).length := by
  have nodup : (mergeUpdates [] entries).Nodup := by
    rw [mergeUpdates_eq_putAll]
    exact List.Nodup.of_map _ (nodup_keys_putAll (by simp))
  obtain ⟨kept, perm, sublist⟩ :=
    List.subperm_of_subset nodup (mergeUpdates_nil_subset old entries)
  simp only [savedText, length_fileText_eq_sum, List.map_map]
  rw [← (perm.map _).sum_eq]
  exact (sublist.map _).sum_le_sum (fun _ _ => Nat.zero_le _)

/-! ## Saving -/

section

variable {u : Bytes} {load : ReadOutcomes} {save : WriteOutcomes} {entries loaded : List FileEntry}
  {file : Option Bytes}

theorem SaveIsSafe.undamaged (safe : SaveIsSafe u load save entries file)
    (seen : load.Sees file → entriesOf u load.behind file = some loaded)
    (unseen : load.opens = false → loaded = []) :
    Undamaged u load.behind (.ok entries) file
      (saveFileHashes u save (mergeUpdates loaded entries) file).2
      (saveFileHashes u save (mergeUpdates loaded entries) file).1 := by
  cases opens : save.opens with
  | false =>
    simp only [saveFileHashes, opens, Bool.false_eq_true, if_false]
    exact ⟨Or.inl rfl, fun saved => by cases saved⟩
  | true =>
    obtain ⟨old, entriesOld, whole, merged⟩ := safe.resolve_left (by simp [opens])
    -- either the old entries were loaded, or the text is the same without them
    have text : savedText u (mergeUpdates loaded entries) =
        savedText u (mergeUpdates old entries) := by
      cases merged with
      | inl sees =>
        have same : loaded = old := Option.some.inj ((seen sees).symm.trans entriesOld)
        rw [same]
      | inr without =>
        rw [unseen without.1]
        exact without.2
    have holds : HoldsMerge u load.behind entries file
        (some (save.reaches (savedText u (mergeUpdates loaded entries)))) :=
      ⟨old, entriesOld, by rw [text, whole]⟩
    simp only [saveFileHashes, opens, if_true]
    exact ⟨Or.inr ⟨entries, rfl, holds⟩, fun _ => ⟨entries, rfl, holds⟩⟩

theorem saveIsSafe_of_undamaged
    (seen : load.Sees file → entriesOf u load.behind file = some loaded)
    (unseen : load.opens = false → loaded = []) (kind : load.Sees file ∨ load.opens = false)
    (undamaged : Undamaged u load.behind (.ok entries) file
      (saveFileHashes u save (mergeUpdates loaded entries) file).2
      (saveFileHashes u save (mergeUpdates loaded entries) file).1) :
    SaveIsSafe u load save entries file := by
  cases opens : save.opens with
  | false => exact Or.inl opens
  | true =>
    simp only [saveFileHashes, opens, if_true] at undamaged
    -- the save returns true whatever it wrote, so the file has to hold the merge
    obtain ⟨_, same, old, entriesOld, after⟩ := undamaged.honest rfl
    cases same
    have reached := Option.some.inj after
    refine Or.inr ⟨old, entriesOld, ?_⟩
    cases kind with
    | inl sees =>
      have same : loaded = old := Option.some.inj ((seen sees).symm.trans entriesOld)
      subst same
      exact ⟨reached, Or.inl sees⟩
    | inr closed =>
      -- the merge is a part of the smaller text, so the two are the same
      rw [unseen closed] at reached
      have part := save.partOf (savedText u (mergeUpdates [] entries))
      rw [reached] at part
      have same := part.eq_of_length_le (length_savedText_le u old entries)
      rw [← same] at reached
      exact ⟨reached, Or.inr ⟨closed, same.symm⟩⟩

/-- Up to 4 GiB a load that returns either sees the file or cannot open it. -/
theorem sees_or_closed (returns : load.Returns file)
    (bounded : ∀ content, file = some content → content.length + 10 < 4294967296) :
    load.Sees file ∨ load.opens = false := by
  cases file with
  | none => exact Or.inl trivial
  | some content =>
    cases opens : load.opens with
    | false => exact Or.inr rfl
    | true =>
      refine Or.inl ⟨opens, ?_⟩
      by_contra big
      have allocated := (returns opens).allocated
      rw [allocates_eq_false big (bounded content rfl)] at allocated
      cases allocated

end

/-! ## The two modes -/

/-- A create run does no harm: it ends before the save, or the save is safe. -/
def CreateIsSafe (unittestPath : Bytes) (io : RunOutcomes) (hashed : Except Stop (List FileEntry))
    (compressed : Except Stop Unit) (file : Option Bytes) : Prop :=
  io.mainLoad.Returns file → io.load.Returns file → ∀ entries, hashed = .ok entries →
    compressed = .ok () → SaveIsSafe unittestPath io.load io.saveDatabase entries file

/-- A merge run does no harm; `listed` are the entries of the list. -/
def MergeIsSafe (unittestPath : Bytes) (io : RunOutcomes) (listed : Except Stop (List FileEntry))
    (file : Option Bytes) : Prop :=
  io.mainLoad.Returns file → ∀ entries, listed = .ok entries →
    SaveIsSafe unittestPath io.mainLoad io.saveDatabase entries file

/-- The entries a merge run takes from the list file. -/
def listedEntries (unittestPath : Bytes) (io : RunOutcomes) (filehashesFile : Option Bytes) :
    Except Stop (List FileEntry) :=
  (readFileHashes unittestPath io.load filehashesFile).map Prod.snd

theorem undamaged_unsaved {u behind : Bytes} {runEntries : Except Stop (List FileEntry)}
    {file : Option Bytes} : Undamaged u behind runEntries file file false :=
  ⟨Or.inl rfl, fun saved => by cases saved⟩

/-- A create run ends without a save, or saves what it loaded merged with its entries. -/
theorem createMode_cases (u : Bytes) (io : RunOutcomes) (hashed : Except Stop (List FileEntry))
    (compressed : Except Stop Unit) (filehashes file : Option Bytes) :
    let run := createMode false u io hashed compressed filehashes file
    (run.database = file ∧ run.saved = false ∧
      ¬ (io.mainLoad.Returns file ∧ io.load.Returns file ∧
        (∃ entries, hashed = .ok entries) ∧ compressed = .ok ())) ∨
    ∃ found loaded entries,
      io.mainLoad.Returns file ∧ io.load.Returns file ∧ hashed = .ok entries ∧
      compressed = .ok () ∧ readFileHashes u io.load file = .ok (found, loaded) ∧
      run.database = (saveFileHashes u io.saveDatabase (mergeUpdates loaded entries) file).2 ∧
      run.saved = (saveFileHashes u io.saveDatabase (mergeUpdates loaded entries) file).1 := by
  -- whatever stops the run leaves the file alone
  by_cases mainReturns : io.mainLoad.Returns file
  · obtain ⟨mainFound, mainLoaded, mainRead, -⟩ := readFileHashes_of_returns mainReturns u
    by_cases returns : io.load.Returns file
    · obtain ⟨found, loaded, read, -⟩ := readFileHashes_of_returns returns u
      cases hashed with
      | error stop =>
        simp only [createMode, mainRead, createOrUpdateArchive, read]
        refine Or.inl ⟨trivial, trivial, ?_⟩
        rintro ⟨-, -, ⟨entries, hashed⟩, -⟩
        cases hashed
      | ok entries =>
        cases compressed with
        | error stop =>
          simp only [createMode, mainRead, createOrUpdateArchive, read]
          refine Or.inl ⟨trivial, trivial, ?_⟩
          rintro ⟨-, -, -, compressed⟩
          cases compressed
        | ok done =>
          right
          refine ⟨found, loaded, entries, mainReturns, returns, rfl, rfl, read, ?_, ?_⟩
          all_goals simp only [createMode, mainRead, createOrUpdateArchive, read, mergeUpdates_idem,
            Bool.false_eq_true, if_false]
    · obtain ⟨stop, read⟩ := readFileHashes_of_not_returns returns u
      simp only [createMode, mainRead, createOrUpdateArchive, read]
      exact Or.inl ⟨trivial, trivial, fun all => returns all.2.1⟩
  · obtain ⟨stop, mainRead⟩ := readFileHashes_of_not_returns mainReturns u
    simp only [createMode, mainRead]
    exact Or.inl ⟨trivial, trivial, fun all => mainReturns all.1⟩

theorem mergeMode_cases (u : Bytes) (io : RunOutcomes) (filehashesFile file : Option Bytes) :
    let run := mergeMode false u io filehashesFile file
    (run.database = file ∧ run.saved = false ∧
      ¬ (io.mainLoad.Returns file ∧ ∃ entries, listedEntries u io filehashesFile = .ok entries)) ∨
    ∃ found loaded entries,
      io.mainLoad.Returns file ∧ listedEntries u io filehashesFile = .ok entries ∧
      readFileHashes u io.mainLoad file = .ok (found, loaded) ∧
      run.database = (saveFileHashes u io.saveDatabase (mergeUpdates loaded entries) file).2 ∧
      run.saved = (saveFileHashes u io.saveDatabase (mergeUpdates loaded entries) file).1 := by
  by_cases returns : io.mainLoad.Returns file
  · obtain ⟨found, loaded, read, -⟩ := readFileHashes_of_returns returns u
    cases list : readFileHashes u io.load filehashesFile with
    | error stop =>
      have failed : listedEntries u io filehashesFile = .error stop := by
        rw [listedEntries, list]
        rfl
      simp only [mergeMode, read, mergeFilelistToDatabase, list, failed]
      exact Or.inl ⟨trivial, trivial, fun ⟨_, _, listed⟩ => by cases listed⟩
    | ok result =>
      right
      refine ⟨found, loaded, result.2, returns, by rw [listedEntries, list]; rfl, read, ?_, ?_⟩
      all_goals simp only [mergeMode, read, mergeFilelistToDatabase, list, Bool.false_eq_true,
        if_false]
  · obtain ⟨stop, read⟩ := readFileHashes_of_not_returns returns u
    simp only [mergeMode, read]
    exact Or.inl ⟨trivial, trivial, fun all => returns all.1⟩

/-- The database after a create or a merge run, for every outcome of its calls: a
safe run leaves it undamaged, and up to 4 GiB only a safe run does. -/
theorem database_undamaged (u : Bytes) (io : RunOutcomes) (hashed : Except Stop (List FileEntry))
    (compressed : Except Stop Unit) (filehashes filehashesFile file : Option Bytes) :
    let create := createMode false u io hashed compressed filehashes file
    let merge := mergeMode false u io filehashesFile file
    let listed := listedEntries u io filehashesFile
    ((CreateIsSafe u io hashed compressed file →
        Undamaged u io.load.behind hashed file create.database create.saved) ∧
      (MergeIsSafe u io listed file →
        Undamaged u io.mainLoad.behind listed file merge.database merge.saved)) ∧
    ((∀ content, file = some content → content.length + 10 < 4294967296) →
      (Undamaged u io.load.behind hashed file create.database create.saved →
        CreateIsSafe u io hashed compressed file) ∧
      (Undamaged u io.mainLoad.behind listed file merge.database merge.saved →
        MergeIsSafe u io listed file)) := by
  intro create merge listed
  -- create and merge in both directions: a run that ends early saves nothing, and one that
  -- saves is safe exactly when the saved file is read again
  refine ⟨⟨fun safe => ?_, fun safe => ?_⟩, fun bounded => ⟨fun undamaged => ?_, fun undamaged => ?_⟩⟩
  · rcases createMode_cases u io hashed compressed filehashes file with
      ⟨same, unsaved, -⟩ | ⟨found, loaded, entries, mainReturns, returns, rfl, rfl, read, after, saved⟩
    · rw [same, unsaved]
      exact undamaged_unsaved
    · obtain ⟨_, _, again, seen, unseen⟩ := readFileHashes_of_returns returns u
      cases read.symm.trans again
      rw [after, saved]
      exact (safe mainReturns returns entries rfl rfl).undamaged seen unseen
  · rcases mergeMode_cases u io filehashesFile file with
      ⟨same, unsaved, -⟩ | ⟨found, loaded, entries, returns, list, read, after, saved⟩
    · rw [same, unsaved]
      exact undamaged_unsaved
    · obtain ⟨_, _, again, seen, unseen⟩ := readFileHashes_of_returns returns u
      cases read.symm.trans again
      rw [after, saved, show listed = .ok entries from list]
      exact (safe returns entries list).undamaged seen unseen
  · intro mainReturns returns entries isHashed isCompressed
    rcases createMode_cases u io hashed compressed filehashes file with
      ⟨-, -, early⟩ | ⟨found, loaded, _, -, -, same, -, read, after, saved⟩
    · exact absurd ⟨mainReturns, returns, ⟨entries, isHashed⟩, isCompressed⟩ early
    · cases same.symm.trans isHashed
      obtain ⟨_, _, again, seen, unseen⟩ := readFileHashes_of_returns returns u
      cases read.symm.trans again
      rw [after, saved, isHashed] at undamaged
      exact saveIsSafe_of_undamaged seen unseen (sees_or_closed returns bounded) undamaged
  · intro returns entries isListed
    rcases mergeMode_cases u io filehashesFile file with
      ⟨-, -, early⟩ | ⟨found, loaded, _, -, same, read, after, saved⟩
    · exact absurd ⟨returns, entries, isListed⟩ early
    · cases same.symm.trans isListed
      obtain ⟨_, _, again, seen, unseen⟩ := readFileHashes_of_returns returns u
      cases read.symm.trans again
      rw [after, saved, isListed] at undamaged
      exact saveIsSafe_of_undamaged seen unseen (sees_or_closed returns bounded) undamaged

/-- A database that cannot be opened for reading is overwritten, and a save that
loses its text still returns true. -/
theorem database_damaged :
    let old := some (text "MeowHash A1 a\n")
    let unreadable : ReadOutcomes := ⟨false, [], []⟩
    let full : WriteOutcomes := ⟨true, fun _ => [], List.nil_sublist⟩
    let hashed : Except Stop (List FileEntry) := .ok [⟨text "MeowHash", text "B2", text "b"⟩]
    let first := createMode false [] ⟨unreadable, unreadable, .faultless, .faultless⟩ hashed
      (.ok ()) none old
    let second := createMode false [] ⟨.faultless [], .faultless [], .faultless, full⟩ hashed
      (.ok ()) none old
    ¬ Undamaged [] [] hashed old first.database first.saved ∧
    ¬ Undamaged [] [] hashed old second.database second.saved := by
  intro old unreadable full hashed first second
  have entriesOld : entriesOf [] [] old = some [⟨text "MeowHash", text "A1", text "a"⟩] := by decide
  constructor
  all_goals
    intro undamaged
    obtain ⟨entries, run, merged, found, after⟩ := undamaged.honest (by decide)
    cases Except.ok.inj run
    cases found.symm.trans entriesOld
    revert after
    decide

end BackupSuite.CtrlCenter
