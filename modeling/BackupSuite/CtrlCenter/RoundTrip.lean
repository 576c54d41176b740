import Mathlib.Algebra.GroupWithZero.Nat
import BackupSuite.CtrlCenter.DatabaseFile

/-! # What is saved is loaded again

`saveFileHashes` followed by `readFileHashes`, for lists of any length and for any
`unittestPath`.  Saving takes the first occurrence of `unittestPath` out of a path,
wherever it is, and loading puts `unittestPath` in front of every path: the two
cancel for the paths that have it in front.  Besides, the size of the file has to
fit the `int` it is kept in (`roundTrips_iff`).

That a size which does not fit never gives the same list back is a matter of
counting: entries whose fields are not empty were parsed from at least as many
bytes as their lines have, and a size that wraps around is smaller than the file.
-/

namespace BackupSuite.CtrlCenter

open BackupSuite.Library

/-! ## The bytes that the parsed fields take -/

/-- The length of the line that is printed for an entry without NUL. -/
def FileEntry.lineLength (e : FileEntry) : Nat :=
  e.mHashFunc.length + e.mHashValue.length + e.mPath.length + 3

/-- The lengths of the lines together. -/
def linesLength (es : List FileEntry) : Nat := (es.map FileEntry.lineLength).sum

/-- No field is empty. -/
structure FileEntry.Filled (e : FileEntry) : Prop where
  value : e.mHashValue ≠ []
  path : e.mPath ≠ []

theorem linesLength_cons (e : FileEntry) (es : List FileEntry) :
    linesLength (e :: es) = e.lineLength + linesLength es := List.sum_cons

theorem FileEntry.WellFormed.filled {e : FileEntry} (wf : e.WellFormed) : e.Filled :=
  ⟨wf.value.nonempty, wf.path.nonempty⟩

theorem FileEntry.WellFormed.length_printEntry {e : FileEntry} (wf : e.WellFormed) :
    (CtrlCenter.printEntry e).length = e.lineLength := by
  rw [wf.printEntry, FileEntry.lineLength]
  simp only [List.length_append, List.length_cons, List.length_nil]
  omega

theorem length_fileText {es : List FileEntry} (wf : ∀ e ∈ es, e.WellFormed) :
    (fileText es).length = linesLength es := by
  induction es with
  | nil => rfl
  | cons e es ih =>
    rw [fileText_cons, List.length_append, (wf e List.mem_cons_self).length_printEntry,
      ih (fun f mem => wf f (List.mem_cons_of_mem _ mem)), linesLength_cons]

theorem length_between_advance (p : UInt8 → Bool) (cursor : Bytes) :
    (between cursor (advance p cursor)).length + (advance p cursor).length = cursor.length := by
  rw [between_advance, advance, ← List.length_append, List.takeWhile_append_dropWhile]

theorem length_field {cursor : Bytes} (noNul : 0 ∉ cursor)
    (next : skipWhitespace (skipNonWhitespace cursor) ≠ []) :
    (between cursor (skipNonWhitespace cursor)).length + 1 +
      (skipWhitespace (skipNonWhitespace cursor)).length ≤ cursor.length := by
  have field := length_between_advance isTokenChar cursor
  have stops := stops_advance isTokenChar cursor
  have suffix := advance_suffix isTokenChar cursor
  rw [skipNonWhitespace] at next ⊢
  cases behindField : advance isTokenChar cursor with
  | nil =>
    rw [behindField] at next
    exact absurd rfl next
  | cons c cs =>
    rw [behindField] at field stops suffix
    -- the field did not end at a NUL, so it ended at a blank
    have notNul : c ≠ 0 := fun h => noNul (suffix.subset (h ▸ List.mem_cons_self))
    have blank : isWhitespace c = true := by simpa [isTokenChar, notNul] using stops_cons.mp stops
    have moved := length_advance_le isWhitespace cs
    rw [List.length_cons] at field
    rw [skipWhitespace, advance_cons_of_pos blank]
    omega

theorem length_path {cursor : Bytes} (noNul : 0 ∉ cursor) (more : skipNonNewline cursor ≠ []) :
    (between cursor (skipNonNewline cursor)).length + 1 +
      (skipNewline (skipNonNewline cursor)).length ≤ cursor.length := by
  have path := length_between_advance isLineChar cursor
  have stops := stops_advance isLineChar cursor
  have suffix := advance_suffix isLineChar cursor
  rw [skipNonNewline] at more ⊢
  cases behindPath : advance isLineChar cursor with
  | nil => exact absurd behindPath more
  | cons c cs =>
    rw [behindPath] at path stops suffix
    have notNul : c ≠ 0 := fun h => noNul (suffix.subset (h ▸ List.mem_cons_self))
    have newline : isNewline c = true := by simpa [isLineChar, notNul] using stops_cons.mp stops
    have moved := length_advance_le isNewline cs
    rw [List.length_cons] at path
    rw [skipNewline, advance_cons_of_pos newline]
    omega

theorem ne_nil_of_between {start stop : Bytes} (field : between start stop ≠ []) : start ≠ [] := by
  rintro rfl
  simp [between] at field

/-- A round that fills the fields of its entry has used up the entry's line; only
behind the last byte it does without the line end. -/
theorem lineLength_parseRound {cursor : Bytes} (noNul : 0 ∉ cursor)
    (filled : (parseRound 0 cursor).1.Filled) :
    (parseRound 0 cursor).1.lineLength + (parseRound 0 cursor).2.length ≤ cursor.length ∨
      (parseRound 0 cursor).2 = [] ∧ (parseRound 0 cursor).1.lineLength ≤ cursor.length + 1 := by
  obtain ⟨value, path⟩ := filled
  have func := length_field noNul (ne_nil_of_between value)
  have suffixValue : skipWhitespace (skipNonWhitespace cursor) <:+ cursor :=
    (advance_suffix _ _).trans (advance_suffix _ _)
  have noNulValue := fun mem => noNul (suffixValue.subset mem)
  have valueLength := length_field noNulValue (ne_nil_of_between path)
  simp only [parseRound, FileEntry.lineLength] at *
  generalize skipWhitespace (skipNonWhitespace cursor) = startValue at *
  have suffixPath : skipWhitespace (skipNonWhitespace startValue) <:+ startValue :=
    (advance_suffix _ _).trans (advance_suffix _ _)
  have noNulPath := fun mem => noNulValue (suffixPath.subset mem)
  generalize skipWhitespace (skipNonWhitespace startValue) = startPath at *
  by_cases atEnd : skipNonNewline startPath = []
  · have pathLength : _ + (skipNonNewline startPath).length = _ := length_between_advance _ _
    rw [show advance isLineChar startPath = skipNonNewline startPath from rfl] at pathLength
    rw [atEnd] at pathLength ⊢
    exact Or.inr ⟨rfl, by rw [List.length_nil] at pathLength; omega⟩
  · have pathLength := length_path noNulPath atEnd
    have inside : (0 : Int) < (skipNonNewline startPath).length := by
      exact_mod_cast List.length_pos_of_ne_nil atEnd
    rw [if_pos inside]
    exact Or.inl (by omega)

/-- The parsed entries were all there, but for the last line end. -/
theorem linesLength_parseLoop {fuel : Nat} {cursor : Bytes} (noNul : 0 ∉ cursor)
    {entries : List FileEntry} (h : parseLoop 0 fuel cursor [] = some entries)
    (filled : ∀ e ∈ entries, e.Filled) : linesLength entries ≤ cursor.length + 1 := by
  induction fuel generalizing cursor entries with
  | zero => cases h
  | succ fuel ih =>
    by_cases inside : (0 : Int) < cursor.length
    · rw [parseLoop_round inside, parseLoop_entries] at h
      obtain ⟨rest, parsed, rfl⟩ := Option.map_eq_some_iff.mp h
      have restNoNul : 0 ∉ (parseRound 0 cursor).2 :=
        fun mem => noNul ((parseRound_suffix 0 cursor).subset mem)
      have restLength := ih restNoNul parsed (fun e mem => filled e (List.mem_append_right _ mem))
      rw [List.nil_append, List.singleton_append] at filled ⊢
      rw [linesLength_cons]
      cases lineLength_parseRound noNul (filled _ List.mem_cons_self) with
      | inl used => omega
      | inr last =>
        -- the round has reached the end, so there is no further entry
        rw [last.1] at parsed
        cases fuel with
        | zero => cases parsed
        | succ fuel =>
          rw [parseLoop_passed (by simp)] at parsed
          cases parsed
          exact last.2
    · rw [parseLoop, if_neg inside] at h
      cases h
      exact Nat.zero_le _

theorem parseLoop_forall {P : FileEntry → Prop} {behind : Int}
    (round : ∀ cursor, P (parseRound behind cursor).1) {fuel : Nat} {cursor : Bytes}
    {entries : List FileEntry} (h : parseLoop behind fuel cursor [] = some entries) :
    ∀ e ∈ entries, P e := by
  induction fuel generalizing cursor entries with
  | zero => cases h
  | succ fuel ih =>
    by_cases inside : behind < cursor.length
    · rw [parseLoop_round inside, parseLoop_entries] at h
      obtain ⟨rest, parsed, rfl⟩ := Option.map_eq_some_iff.mp h
      rintro e mem
      cases List.mem_append.mp mem with
      | inl head => exact List.mem_singleton.mp head ▸ round cursor
      | inr tail => exact ih parsed e tail
    · rw [parseLoop, if_neg inside] at h
      cases h
      simp

theorem stops_parseRound_mPath (behind : Int) (cursor : Bytes) :
    Stops isWhitespace (parseRound behind cursor).1.mPath := by
  simp only [parseRound, skipNonNewline, between_advance]
  generalize skipNonWhitespace _ = afterValue
  have stops := stops_advance isWhitespace afterValue
  rw [skipWhitespace]
  cases h : advance isWhitespace afterValue with
  | nil => exact stops_nil
  | cons c cs =>
    rw [h] at stops
    by_cases line : isLineChar c = true
    · simpa [line] using stops
    · simp [line]

/-! ## Loading what was saved -/

/-- The outcomes of a load that goes well: `fopen` opens the file, the calls of `fread`
deliver what was asked for, in whatever pieces, and no line end lies in the memory behind. -/
structure ReadOutcomes.GoesWell (io : ReadOutcomes) (content : Bytes) : Prop where
  opens : io.opens = true
  ends : ∃ read, readLoop (toInt content.length) io.freads 0 = .ok read
  behind : ∀ c ∈ io.behind, isNewline c = false

/-- What was saved is loaded again: the same entries in the same order. -/
def RoundTrips (unittestPath : Bytes) (es : List FileEntry) : Prop :=
  ∀ (file : Option Bytes) (io : ReadOutcomes), io.GoesWell (savedText unittestPath es) →
    readFileHashes unittestPath io (saveFileHashes unittestPath .faultless es file).2 = .ok (true, es)

theorem toInt_lt (n : Int) : toInt n < 2147483648 := by
  rw [toInt]
  split
  · assumption
  · have := Int.emod_lt_of_pos n (by decide : (0 : Int) < 4294967296)
    omega

theorem goesWell_faultless (content : Bytes) : (ReadOutcomes.faultless []).GoesWell content where
  opens := rfl
  ends := by
    rw [ReadOutcomes.faultless, readLoop_faultless (toInt_lt _)]
    exact ⟨_, rfl⟩
  behind := by simp [ReadOutcomes.faultless]

theorem zero_not_mem_fileText (es : List FileEntry) : 0 ∉ fileText es := by
  have cStr_noNul (s : Bytes) : 0 ∉ cStr s := fun mem => by simpa using List.mem_takeWhile_imp mem
  induction es with
  | nil => simp
  | cons e es ih => simp [printEntry, cStr_noNul, ih]

theorem readBuffer_eq_ok {u : Bytes} {io : ReadOutcomes} {content : Bytes} {fileSize : Int}
    {es : List FileEntry} (h : readBuffer u io content fileSize = .ok (true, es)) :
    allocates fileSize = true ∧ ∃ parsed,
      parseBuffer [] (content.take fileSize.toNat ++ io.behind) fileSize = some parsed ∧
        es = parsed.map (loadedEntry u) := by
  rw [readBuffer] at h
  split at h
  case isFalse => cases h
  case isTrue allocated =>
    cases ended : readLoop fileSize io.freads 0 with
    | error stop =>
      rw [ended] at h
      cases h
    | ok read =>
      have all : read.toNat = fileSize.toNat := by
        rw [readLoop_ok ended]
        omega
      simp only [ended, Bind.bind, Except.bind, all] at h
      split at h
      case h_1 => cases h
      case h_2 parsed eq =>
        refine ⟨allocated, parsed, eq, ?_⟩
        cases h
        cases u with
        | nil => exact (List.map_id _).symm
        | cons c cs => rfl

theorem fits_of_parsed {es : List FileEntry} (wf : ∀ e ∈ es, e.WellFormed)
    (allocated : allocates (toInt (fileText es).length) = true)
    (parsed : parseBuffer [] ((fileText es).take (toInt (fileText es).length).toNat)
      (toInt (fileText es).length) = some es) : Fits (fileText es) := by
  by_contra big
  have bounds : 0 ≤ toInt (fileText es).length + 10 ∧ toInt (fileText es).length + 10 < 2147483648 :=
    of_decide_eq_true allocated
  -- the size the code works with lies below the real one by a multiple of 2^32
  have wraps : toInt (fileText es).length + 4294967296 ≤ (fileText es).length := by
    rw [Fits] at big
    rw [toInt] at bounds ⊢
    split at bounds <;> omega
  generalize toInt (fileText es).length = fileSize at *
  have taken : ((fileText es).take fileSize.toNat).length = fileSize.toNat :=
    List.length_take_of_le (by omega)
  by_cases positive : 0 < fileSize
  · have noNul : 0 ∉ (fileText es).take fileSize.toNat :=
      fun mem => zero_not_mem_fileText es (List.take_subset _ _ mem)
    have size : (((fileText es).take fileSize.toNat).length : Int) - fileSize = 0 := by omega
    rw [parseBuffer, size] at parsed
    have bound := linesLength_parseLoop noNul parsed (fun e mem => (wf e mem).filled)
    rw [← length_fileText wf, taken] at bound
    omega
  · have nothing : (fileText es).take fileSize.toNat = [] := by
      rw [Int.toNat_of_nonpos (by omega), List.take_zero]
    rw [nothing, parseBuffer, parseLoop_passed (by simp; omega)] at parsed
    cases parsed
    simp at wraps
    omega

/-- `u` stands in front of the path, and what follows does not start with a blank. -/
def StoredBehind (u path : Bytes) : Prop := ∃ r, path = u ++ r ∧ Stops isWhitespace r

theorem storedBehind_iff {u path : Bytes} :
    StoredBehind u path ↔ u <+: path ∧ Stops isWhitespace (path.drop u.length) := by
  constructor
  · rintro ⟨r, rfl, stops⟩
    exact ⟨List.prefix_append u r, by rwa [List.drop_left]⟩
  · rintro ⟨⟨r, rfl⟩, stops⟩
    rw [List.drop_left] at stops
    exact ⟨r, rfl, stops⟩

instance (u path : Bytes) : Decidable (StoredBehind u path) := decidable_of_iff _ storedBehind_iff.symm

theorem wellFormed_storedEntry {u : Bytes} {es : List FileEntry} (wf : ∀ e ∈ es, e.WellFormed)
    (proper : ∀ e ∈ es, e.mPath ≠ u) (split : ∀ e ∈ es, StoredBehind u e.mPath) :
    ∀ e ∈ es.map (storedEntry u), e.WellFormed := by
  rintro e mem
  obtain ⟨e, inList, rfl⟩ := List.mem_map.mp mem
  obtain ⟨r, path, start⟩ := split e inList
  refine ⟨(wf e inList).func, (wf e inList).value, ?_⟩
  rw [storedEntry_mPath, path, withoutUnittestPath_append]
  refine ⟨fun empty => proper e inList (by rw [path, empty, List.append_nil]), fun c inPath => ?_, start⟩
  exact (wf e inList).path.clean c (path ▸ List.mem_append_right _ inPath)

/-- The lists that come back: `unittestPath` stands in front of every path, what follows
does not start with a blank, and the size of the file fits. -/
theorem roundTrips_iff {u : Bytes} {es : List FileEntry} (wf : ∀ e ∈ es, e.WellFormed)
    (proper : ∀ e ∈ es, e.mPath ≠ u) :
    RoundTrips u es ↔ (∀ e ∈ es, StoredBehind u e.mPath) ∧ Fits (savedText u es) := by
  constructor
  · intro trips
    -- the condition is read off a load in which every call succeeds
    have load := trips none (.faultless []) (goesWell_faultless _)
    rw [saveFileHashes_faultless] at load
    rw [readFileHashes, if_pos (by rfl)] at load
    obtain ⟨allocated, parsed, parses, rfl⟩ := readBuffer_eq_ok load
    have starts : ∀ e ∈ parsed, Stops isWhitespace e.mPath :=
      parseLoop_forall (fun cursor => stops_parseRound_mPath _ cursor) parses
    have split : ∀ e ∈ parsed.map (loadedEntry u), StoredBehind u e.mPath := by
      rintro e mem
      obtain ⟨p, inList, rfl⟩ := List.mem_map.mp mem
      exact ⟨p.mPath, rfl, starts p inList⟩
    have stored : (parsed.map (loadedEntry u)).map (storedEntry u) = parsed := by
      simp [List.map_map, Function.comp_def]
    have parsedWf := wellFormed_storedEntry wf proper split
    refine ⟨split, ?_⟩
    rw [savedText, stored] at allocated parses ⊢
    rw [stored] at parsedWf
    exact fits_of_parsed parsedWf allocated (by simpa [ReadOutcomes.faultless] using parses)
  · rintro ⟨split, fits⟩ file io well
    have back : (es.map (storedEntry u)).map (loadedEntry u) = es := by
      rw [List.map_map]
      refine map_eq_self fun e mem => ?_
      obtain ⟨r, path, -⟩ := split e mem
      cases e
      simp_all [storedEntry, loadedEntry]
    obtain ⟨read, ends⟩ := well.ends
    rw [savedText] at ends fits
    rw [fits.toInt] at ends
    have load := readFileHashes_of_readLoop u well.opens (wellFormed_storedEntry wf proper split) fits ends
    rw [saveFileHashes_faultless, savedText, load, back]

/-! ## Without `unittestPath` -/

theorem savedText_nil (es : List FileEntry) : savedText [] es = fileText es := by
  rw [savedText]
  exact congrArg fileText (List.map_id _)

/-- Exactly the lists whose lines are short enough together come back. -/
theorem roundTrips_nil_iff {es : List FileEntry} (wf : ∀ e ∈ es, e.WellFormed) :
    RoundTrips [] es ↔ linesLength es + 10 < 2147483648 := by
  have proper : ∀ e ∈ es, e.mPath ≠ [] := fun e mem => (wf e mem).path.nonempty
  rw [roundTrips_iff wf proper, savedText_nil, Fits, length_fileText wf]
  exact and_iff_right fun e mem => ⟨e.mPath, rfl, (wf e mem).path.start⟩

/-- Inner and trailing blanks, a backslash and a high byte in the paths. -/
theorem roundTrips_nil_blanks : RoundTrips []
    [⟨text "MeowHash", text "0-0-0-0", text "in/a b  "⟩,
      ⟨text "MeowHash", text "1-0-0-0", text "in/" ++ [92, 255]⟩] :=
  (roundTrips_nil_iff (by decide)).mpr (by decide)

/-- The line of this entry has 64 bytes. -/
def equalLine : FileEntry :=
  ⟨text "MeowHash", text "00000000-00000000-00000000-00000000", text "in/0123456789abcde"⟩

theorem linesLength_replicate (n : Nat) (e : FileEntry) :
    linesLength (List.replicate n e) = n * e.lineLength := by
  induction n with
  | zero => simp [linesLength]
  | succ n ih => rw [List.replicate_succ, linesLength_cons, ih, Nat.succ_mul, Nat.add_comm]

theorem not_roundTrips_replicate {n : Nat} (many : 2147483648 ≤ n * 64) :
    ¬ ((∀ e ∈ List.replicate n equalLine, e.WellFormed) → RoundTrips [] (List.replicate n equalLine)) := by
  intro trips
  have wf : ∀ e ∈ List.replicate n equalLine, e.WellFormed := by
    rintro e mem
    rw [List.eq_of_mem_replicate mem]
    decide
  have proper : ∀ e ∈ List.replicate n equalLine, e.mPath ≠ [] :=
    fun e mem => (wf e mem).path.nonempty
  have fits := ((roundTrips_iff wf proper).mp (trips wf)).2
  rw [savedText_nil, Fits, length_fileText wf, linesLength_replicate,
    show equalLine.lineLength = 64 by decide] at fits
  omega

/-- Files of 2^31 bytes cannot be loaded. -/
theorem not_roundTrips_nil :
    ¬ ∀ es : List FileEntry, (∀ e ∈ es, e.WellFormed) → RoundTrips [] es :=
  fun trips => not_roundTrips_replicate (n := 2 ^ 25) (by decide) (trips _)

/-! ## With `unittestPath` -/

theorem linesLength_storedEntry {u : Bytes} {es : List FileEntry}
    (split : ∀ e ∈ es, StoredBehind u e.mPath) :
    linesLength (es.map (storedEntry u)) + es.length * u.length = linesLength es := by
  induction es with
  | nil => simp [linesLength]
  | cons e es ih =>
    obtain ⟨r, path, -⟩ := split e List.mem_cons_self
    have line : (storedEntry u e).lineLength + u.length = e.lineLength := by
      simp only [FileEntry.lineLength, storedEntry, path, withoutUnittestPath_append, List.length_append]
      omega
    have rest := ih fun f mem => split f (List.mem_cons_of_mem _ mem)
    rw [List.map_cons, linesLength_cons, linesLength_cons, List.length_cons, Nat.succ_mul]
    omega

theorem ne_of_getLast {path u : Bytes} (folder : u.getLast? = some 47) (file : path.getLast? ≠ some 47) :
    path ≠ u := by
  rintro rfl
  exact file folder

theorem nodup_stored {u : Bytes} {es : List FileEntry} (split : ∀ e ∈ es, StoredBehind u e.mPath)
    (distinct : (es.map FileEntry.mPath).Nodup) :
    (es.map fun e => withoutUnittestPath u e.mPath).Nodup := by
  have back : (es.map fun e => withoutUnittestPath u e.mPath).map (u ++ ·) = es.map FileEntry.mPath := by
    rw [List.map_map]
    refine List.map_congr_left fun e mem => ?_
    obtain ⟨r, path, -⟩ := split e mem
    simp [path]
  rw [← back] at distinct
  exact distinct.of_map _

/-- Exactly the lists come back, with the stored paths distinct, in which `u` is in front
of every path and no rest of a path starts with a blank, and whose lines without `u`
are short enough together. -/
theorem roundTrips_unittestPath_iff {u : Bytes} (folder : u.getLast? = some 47) {es : List FileEntry}
    (wf : ∀ e ∈ es, e.WellFormed) (files : ∀ e ∈ es, e.mPath.getLast? ≠ some 47)
    (distinct : (es.map FileEntry.mPath).Nodup) :
    RoundTrips u es ∧ (es.map fun e => withoutUnittestPath u e.mPath).Nodup ↔
      (∀ e ∈ es, StoredBehind u e.mPath) ∧
        linesLength es + 10 < 2147483648 + es.length * u.length := by
  have proper : ∀ e ∈ es, e.mPath ≠ u := fun e mem => ne_of_getLast folder (files e mem)
  rw [roundTrips_iff wf proper]
  have fits_iff (split : ∀ e ∈ es, StoredBehind u e.mPath) : Fits (savedText u es) ↔
      linesLength es + 10 < 2147483648 + es.length * u.length := by
    have lengths := linesLength_storedEntry split
    rw [Fits, savedText, length_fileText (wellFormed_storedEntry wf proper split)]
    omega
  constructor
  · rintro ⟨⟨split, fits⟩, -⟩
    exact ⟨split, (fits_iff split).mp fits⟩
  · rintro ⟨split, short⟩
    exact ⟨⟨split, (fits_iff split).mpr short⟩, nodup_stored split distinct⟩

/-- `u` occurs a second time inside a path. -/
theorem roundTrips_unittestPath_twice :
    RoundTrips (text "in/") [⟨text "MeowHash", text "0-0-0-0", text "in/a/in/b"⟩] ∧
      ([text "in/a/in/b"].map (withoutUnittestPath (text "in/"))).Nodup :=
  (roundTrips_unittestPath_iff (by decide) (by decide) (by decide) (by decide)).mpr (by decide)

/-- A path without `u` comes back with `u` in front of it. -/
theorem not_roundTrips_unittestPath :
    ¬ ∀ (u : Bytes) (es : List FileEntry), u.getLast? = some 47 → (∀ e ∈ es, e.WellFormed) →
      (∀ e ∈ es, e.mPath.getLast? ≠ some 47) → (es.map FileEntry.mPath).Nodup →
      RoundTrips u es ∧ (es.map fun e => withoutUnittestPath u e.mPath).Nodup := by
  intro claim
  have wf : ∀ e ∈ [FileEntry.mk (text "MeowHash") (text "0-0-0-0") (text "in/a")], e.WellFormed := by
    decide
  have trips := (claim (text "old/") _ (by decide) wf (by decide) (by decide)).1
  have split := ((roundTrips_iff wf (by decide)).mp trips).1
  exact absurd split (by decide)

end BackupSuite.CtrlCenter
