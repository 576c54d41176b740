import BackupSuite.CtrlCenter.RoundTrip
import BackupSuite.CtrlCenter.ParseLines

/-! # What was parsed is saved and parsed again

The parser takes far more texts than `saveFileHashes` writes.  Every entry it makes of a
text without NUL has the form of a printed line, though, with two exceptions that the printed
line survives: the func may be empty, and the last entry may lack fields when the text runs
out (`Unfinished`).  So one load and save brings a file to a form that does not change again.
-/

namespace BackupSuite.CtrlCenter

open BackupSuite.Library

/-- The entry of a round in which the text ran out. -/
structure FileEntry.Unfinished (e : FileEntry) : Prop where
  func : ∀ c ∈ e.mHashFunc, isTokenChar c = true
  value : e.mHashValue = [] ∨ IsToken e.mHashValue
  path : e.mPath = []

/-! ## The entries of a text -/

theorem mHashValue_parseRound (behind : Int) (cursor : Bytes) : (parseRound behind cursor).1.mHashValue =
    (advanceAll [isTokenChar, isWhitespace] cursor).takeWhile isTokenChar := between_advance isTokenChar _

theorem mPath_parseRound (behind : Int) (cursor : Bytes) : (parseRound behind cursor).1.mPath =
    (advanceAll [isTokenChar, isWhitespace, isTokenChar, isWhitespace] cursor).takeWhile isLineChar :=
  between_advance isLineChar _

theorem mHashFunc_clean (behind : Int) (cursor : Bytes) :
    ∀ c ∈ (parseRound behind cursor).1.mHashFunc, isTokenChar c = true := by
  rw [mHashFunc_parseRound]
  exact fun _ => List.mem_takeWhile_imp

theorem isToken_mHashValue {cursor : Bytes} (noNul : 0 ∉ cursor)
    (more : advanceAll [isTokenChar, isWhitespace] cursor ≠ []) : IsToken (parseRound 0 cursor).1.mHashValue := by
  have noNulValue : 0 ∉ advanceAll [isTokenChar, isWhitespace] cursor :=
    fun mem => noNul ((advanceAll_suffix _ cursor).subset mem)
  have stops : Stops isWhitespace (advanceAll [isTokenChar, isWhitespace] cursor) := stops_advance isWhitespace _
  rw [mHashValue_parseRound]
  exact ⟨takeWhile_ne_nil (fun c notNul notWhite => isTokenChar_eq_true.mpr ⟨notWhite, notNul⟩) noNulValue stops more,
    fun _ => List.mem_takeWhile_imp⟩

theorem readable_of_mPath {cursor : Bytes} (noNul : 0 ∉ cursor) (path : (parseRound 0 cursor).1.mPath ≠ []) :
    (parseRound 0 cursor).1.Readable := by
  have stops : Stops isWhitespace (advanceAll [isTokenChar, isWhitespace, isTokenChar, isWhitespace] cursor) :=
    stops_advance isWhitespace _
  have atPath : advanceAll [isTokenChar, isWhitespace, isTokenChar, isWhitespace] cursor ≠ [] := by
    intro out
    rw [mPath_parseRound, out] at path
    exact path rfl
  have atValue := @advanceAll_ne_nil _ [isTokenChar, isWhitespace] [isTokenChar, isWhitespace] cursor atPath
  refine ⟨mHashFunc_clean 0 cursor, isToken_mHashValue noNul atValue, path, ?_, ?_⟩
  · rw [mPath_parseRound]
    exact fun _ => List.mem_takeWhile_imp
  · rw [mPath_parseRound]
    exact stops.of_isFront (List.takeWhile_prefix isLineChar)

theorem unfinished_of_mPath {cursor : Bytes} (noNul : 0 ∉ cursor) (path : (parseRound 0 cursor).1.mPath = []) :
    (parseRound 0 cursor).1.Unfinished := by
  refine ⟨mHashFunc_clean 0 cursor, ?_, path⟩
  by_cases out : advanceAll [isTokenChar, isWhitespace] cursor = []
  · rw [mHashValue_parseRound, out]
    exact Or.inl rfl
  · exact Or.inr (isToken_mHashValue noNul out)

/-! ## Their lines -/

/-- What is missing from the line of the entry is missing again. -/
theorem parseRound_unfinished {e : FileEntry} (unfinished : e.Unfinished) :
    parseRound 0 (printEntry e) = (e, []) := by
  obtain ⟨func, value, path⟩ := e
  obtain ⟨funcClean, valueToken, noPath⟩ := unfinished
  simp only at funcClean valueToken noPath
  subst noPath
  have funcText : cStr func = func := cStr_of_clean funcClean rfl
  cases valueToken with
  | inl noValue =>
    subst noValue
    have behindFunc : skipNonWhitespace (func ++ [32, 32, 10]) = [32, 32, 10] :=
      advance_token funcClean (stops_cons.mpr rfl)
    have line : printEntry ⟨func, [], []⟩ = func ++ [32, 32, 10] := by
      simp only [printEntry, funcText]
      rfl
    rw [line]
    simp only [parseRound, behindFunc, between_append]
    rfl
  | inr token =>
    have line : printEntry ⟨func, value, []⟩ = func ++ 32 :: (value ++ 32 :: [10]) := by
      simp only [printEntry, funcText, cStr_of_clean token.clean rfl]
      rfl
    rw [line, parseRound_line funcClean token]
    rfl

theorem printEntry_ne_nil (e : FileEntry) : printEntry e ≠ [] :=
  List.ne_nil_of_length_pos (printEntry_length_pos e)

theorem Rounds.of_parseRound {cursor rest : Bytes} {e : FileEntry} {entries : List FileEntry} (nonempty : cursor ≠ [])
    (parsed : parseRound 0 cursor = (e, rest)) (behind : Rounds rest entries) : Rounds cursor (e :: entries) := by
  have rest_eq : skipNewline (pathEnd cursor) = rest := by rw [← parseRound_zero_snd, parsed]
  rw [← show (parseRound 0 cursor).1 = e by rw [parsed]]
  exact .round nonempty (rest_eq ▸ behind)

theorem skipNewline_fileText {es : List FileEntry} (first : ∀ e ∈ es.head?, e.Readable ∨ e.Unfinished) :
    skipNewline (fileText es) = fileText es := by
  refine advance_of_stops ?_
  cases es with
  | nil => exact stops_nil
  | cons e es =>
    rw [fileText_cons]
    cases first e rfl with
    | inl readable => exact readable.stops_printEntry _
    | inr unfinished =>
      -- the line starts with the func or with the blank behind it
      have clean := unfinished.func
      rw [printEntry, cStr_of_clean clean rfl]
      cases start : e.mHashFunc with
      | nil => exact stops_cons.mpr rfl
      | cons c cs =>
        have token := clean c (by rw [start]; exact List.mem_cons_self)
        exact stops_cons.mpr (isNewline_le_isWhitespace (isTokenChar_eq_true.mp token).1)

theorem Rounds.head {T : Bytes} {entries : List FileEntry} (noNul : 0 ∉ T) (rounds : Rounds T entries) :
    ∀ e ∈ entries.head?, e.Readable ∨ e.Unfinished := by
  cases rounds with
  | done => simp
  | round more behind =>
    intro e first
    cases first
    by_cases path : (parseRound 0 T).1.mPath = []
    · exact Or.inr (unfinished_of_mPath noNul path)
    · exact Or.inl (readable_of_mPath noNul path)

/-- The lines of the entries of a text are parsed as these entries. -/
theorem Rounds.fileText {T : Bytes} {entries : List FileEntry} (noNul : 0 ∉ T) (rounds : Rounds T entries) :
    Rounds (fileText entries) entries := by
  induction rounds with
  | done => exact .done
  | @round cursor entries more behind ih =>
    have noNulRest := not_mem_skipNewline_pathEnd noNul
    rw [fileText_cons]
    by_cases path : (parseRound 0 cursor).1.mPath = []
    · -- the text has run out, so this is the last line
      rw [pathEnd_of_mPath_nil noNul path] at behind
      rw [behind.eq_nil, fileText_nil, List.append_nil]
      exact .of_parseRound (printEntry_ne_nil _) (parseRound_unfinished (unfinished_of_mPath noNul path)) .done
    · have line := @parseRound_printEntry _ (readable_of_mPath noNul path) 0 (CtrlCenter.fileText entries) (by omega)
      rw [skipNewline_fileText (behind.head noNulRest)] at line
      exact .of_parseRound (List.append_ne_nil_of_left_ne_nil (printEntry_ne_nil _) _) line (ih noNulRest)

/-! ## Saving and loading again -/

/-- Without `unittestPath`, what is parsed of a text, saved and parsed again is the same
list of entries, and saving that list writes the same file. -/
theorem parseText_saved {T : Bytes} (noNul : 0 ∉ T) (file : Option Bytes) :
    ∃ entries saved, parseText [] T = some entries ∧ saveFileHashes [] .faultless entries file = (true, some saved) ∧
      parseText [] saved = some entries ∧
      ∀ again, parseText [] saved = some again → saveFileHashes [] .faultless again (some saved) = (true, some saved) := by
  obtain ⟨entries, rounds⟩ := exists_rounds noNul
  have parsed : parseText [] (fileText entries) = some entries := (rounds.fileText noNul).parseText []
  refine ⟨entries, fileText entries, rounds.parseText [], ?_, parsed, fun again reparsed => ?_⟩
  · rw [saveFileHashes_faultless, savedText_nil]
  · rw [parsed] at reparsed
    cases reparsed
    rw [saveFileHashes_faultless, savedText_nil]

/-- A line without func, a blank line, a line end of two bytes and no line end behind the last func. -/
theorem parseText_saved_odd :
    ∃ entries saved, parseText [] (text " 0-1 \t in/a b\r\n\r\n\nMeow") = some entries ∧
      saveFileHashes [] .faultless entries none = (true, some saved) ∧ parseText [] saved = some entries ∧
      ∀ again, parseText [] saved = some again → saveFileHashes [] .faultless again (some saved) = (true, some saved) :=
  parseText_saved (by decide) none

end BackupSuite.CtrlCenter
