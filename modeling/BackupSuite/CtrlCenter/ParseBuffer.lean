import BackupSuite.Library.Cursor

/-! # Bytes, the skip helpers and `FileHashes::parseBuffer`

A `char` is a byte, a `std::string` the list of its bytes, and a `const char *`
the list of the bytes from there to the end of the memory that is modelled;
behind that end every read gives NUL.  `parseBuffer` loops until its cursor has
passed `numberBytes`, which it need not do: the model counts rounds, and `none`
is a loop that never ends.
-/

namespace BackupSuite.CtrlCenter

open BackupSuite.Library

abbrev Bytes := List UInt8

/-- An ASCII string literal. -/
def text (s : String) : Bytes := s.toList.map fun c => c.toNat.toUInt8

/-- What `%s` prints of `s.c_str()`: everything in front of the first NUL. -/
def cStr (s : Bytes) : Bytes := s.takeWhile (· != 0)

theorem cStr_append {s : Bytes} (noNul : 0 ∉ s) (rest : Bytes) : cStr (s ++ rest) = s ++ cStr rest := by
  apply List.takeWhile_append_of_pos
  intro c mem
  have ne : c ≠ 0 := fun h => noNul (h ▸ mem)
  simpa using ne

/-! ## The skip helpers -/

def isWhitespace (c : UInt8) : Bool := c == 32 || c == 9 || c == 13 || c == 10

def isNewline (c : UInt8) : Bool := c == 13 || c == 10

def isTokenChar (c : UInt8) : Bool := !isWhitespace c && c != 0

def isLineChar (c : UInt8) : Bool := !isNewline c && c != 0

def skipWhitespace (ptr : Bytes) : Bytes := advance isWhitespace ptr

def skipNonWhitespace (ptr : Bytes) : Bytes := advance isTokenChar ptr

def skipNewline (ptr : Bytes) : Bytes := advance isNewline ptr

def skipNonNewline (ptr : Bytes) : Bytes := advance isLineChar ptr

theorem isNewline_le_isWhitespace {c : UInt8} (h : isWhitespace c = false) : isNewline c = false := by
  simp_all [isWhitespace, isNewline]

theorem isTokenChar_eq_true {c : UInt8} : isTokenChar c = true ↔ isWhitespace c = false ∧ c ≠ 0 := by
  simp [isTokenChar]

theorem isLineChar_eq_true {c : UInt8} : isLineChar c = true ↔ isNewline c = false ∧ c ≠ 0 := by
  simp [isLineChar]

/-! ## Entries -/

structure FileEntry where
  mHashFunc : Bytes
  mHashValue : Bytes
  mPath : Bytes
deriving DecidableEq, Repr

/-- Nonempty and free of blanks, line ends and NUL: what survives as one field. -/
structure IsToken (s : Bytes) : Prop where
  nonempty : s ≠ []
  clean : ∀ c ∈ s, isTokenChar c = true

theorem IsToken.not_mem {s : Bytes} (token : IsToken s) {c : UInt8} (special : isTokenChar c = false) :
    c ∉ s := by
  intro mem
  rw [token.clean c mem] at special
  cases special

/-- Nonempty, free of line ends and NUL, and not starting with a blank or tab. -/
structure IsStoredPath (s : Bytes) : Prop where
  nonempty : s ≠ []
  clean : ∀ c ∈ s, isLineChar c = true
  start : Stops isWhitespace s

/-- An entry whose line parses back. -/
structure FileEntry.WellFormed (e : FileEntry) : Prop where
  func : IsToken e.mHashFunc
  value : IsToken e.mHashValue
  path : IsStoredPath e.mPath

/-- An entry whose line parses back whatever stands in front: the func may be empty. -/
structure FileEntry.Readable (e : FileEntry) : Prop where
  func : ∀ c ∈ e.mHashFunc, isTokenChar c = true
  value : IsToken e.mHashValue
  path : IsStoredPath e.mPath

theorem FileEntry.WellFormed.readable {e : FileEntry} (wf : e.WellFormed) : e.Readable :=
  ⟨wf.func.clean, wf.value, wf.path⟩

instance (p : UInt8 → Bool) (s : Bytes) : Decidable (Stops p s) :=
  match s with
  | [] => isTrue stops_nil
  | c :: _ => decidable_of_iff (p c = false) stops_cons.symm

instance (s : Bytes) : Decidable (IsToken s) :=
  decidable_of_iff (s ≠ [] ∧ s.all isTokenChar = true)
    ⟨fun h => ⟨h.1, List.all_eq_true.mp h.2⟩, fun h => ⟨h.nonempty, List.all_eq_true.mpr h.clean⟩⟩

instance (s : Bytes) : Decidable (IsStoredPath s) :=
  decidable_of_iff (s ≠ [] ∧ s.all isLineChar = true ∧ Stops isWhitespace s)
    ⟨fun h => ⟨h.1, List.all_eq_true.mp h.2.1, h.2.2⟩,
      fun h => ⟨h.nonempty, List.all_eq_true.mpr h.clean, h.start⟩⟩

instance (e : FileEntry) : Decidable e.WellFormed :=
  decidable_of_iff (IsToken e.mHashFunc ∧ IsToken e.mHashValue ∧ IsStoredPath e.mPath)
    ⟨fun h => ⟨h.1, h.2.1, h.2.2⟩, fun h => ⟨h.func, h.value, h.path⟩⟩

/-! ## `parseBuffer` -/

/-- The body of the loop: the entry it pushes and where it leaves `readCursor`.
`behind` is how many bytes of the memory lie behind `buffer + numberBytes`, so
`readCursor < buffer + numberBytes` says that more than `behind` bytes are left. -/
def parseRound (behind : Int) (cursor : Bytes) : FileEntry × Bytes :=
  let startFunc := cursor
  let readCursor := skipNonWhitespace startFunc
  let hashFunc := between startFunc readCursor
  let startValue := skipWhitespace readCursor
  let readCursor := skipNonWhitespace startValue
  let hashValue := between startValue readCursor
  let startPath := skipWhitespace readCursor
  let readCursor := skipNonNewline startPath
  let filePath := between startPath readCursor
  (⟨hashFunc, hashValue, filePath⟩,
    if behind < readCursor.length then skipNewline readCursor else readCursor)

/-- `fuel` bounds the number of rounds. -/
def parseLoop (behind : Int) : Nat → Bytes → List FileEntry → Option (List FileEntry)
  | 0, _, _ => none
  | fuel + 1, cursor, mFileEntries =>
    -- `readCursor < buffer+numberBytes`
    if behind < cursor.length then
      let round := parseRound behind cursor
      parseLoop behind fuel round.2 (mFileEntries ++ [round.1])
    else some mFileEntries

/-- Appends the parsed entries; `none` when the loop runs on forever. -/
def parseBuffer (mFileEntries : List FileEntry) (buffer : Bytes) (numberBytes : Int) :
    Option (List FileEntry) :=
  parseLoop (buffer.length - numberBytes) (buffer.length + 1) buffer mFileEntries

/-! ### The bound on the rounds loses nothing -/

theorem parseRound_suffix (behind : Int) (cursor : Bytes) : (parseRound behind cursor).2 <:+ cursor := by
  have value := (advance_suffix isWhitespace _).trans (advance_suffix isTokenChar cursor)
  have path := (advance_suffix isWhitespace _).trans ((advance_suffix isTokenChar _).trans value)
  have stop := (advance_suffix isLineChar _).trans path
  simp only [parseRound]
  split
  · exact (advance_suffix isNewline _).trans stop
  · exact stop

theorem parseLoop_mono {behind : Int} {fuel more : Nat} (le : fuel ≤ more) {cursor : Bytes}
    {entries result : List FileEntry} (h : parseLoop behind fuel cursor entries = some result) :
    parseLoop behind more cursor entries = some result := by
  induction fuel generalizing more cursor entries with
  | zero => simp [parseLoop] at h
  | succ fuel ih =>
    obtain ⟨more, rfl⟩ : ∃ n, more = n + 1 := ⟨more - 1, by omega⟩
    simp only [parseLoop] at h ⊢
    split at h
    · rw [if_pos ‹_›]
      exact ih (by omega) h
    · rwa [if_neg ‹_›]

theorem parseLoop_stuck {behind : Int} {cursor : Bytes} (inside : behind < cursor.length)
    (stuck : (parseRound behind cursor).2 = cursor) (fuel : Nat) (entries : List FileEntry) :
    parseLoop behind fuel cursor entries = none := by
  induction fuel generalizing entries with
  | zero => rfl
  | succ fuel ih =>
    simp only [parseLoop, if_pos inside, stuck]
    exact ih _

/-- If any number of rounds is enough, one more than there are bytes is. -/
theorem parseLoop_enough {behind : Int} {fuel : Nat} {cursor : Bytes}
    {entries result : List FileEntry} (h : parseLoop behind fuel cursor entries = some result) :
    parseLoop behind (cursor.length + 1) cursor entries = some result := by
  induction fuel generalizing cursor entries with
  | zero => simp [parseLoop] at h
  | succ fuel ih =>
    by_cases inside : behind < cursor.length
    · have suffix := parseRound_suffix behind cursor
      -- a round only moves forward, so it moves or stays where it is for ever
      cases Nat.lt_or_ge (parseRound behind cursor).2.length cursor.length with
      | inl moved =>
        simp only [parseLoop, if_pos inside] at h ⊢
        exact parseLoop_mono (by omega) (ih h)
      | inr stuck =>
        have same := suffix.eq_of_length_le stuck
        rw [parseLoop_stuck inside same] at h
        cases h
    · simpa only [parseLoop, if_neg inside] using h

theorem parseBuffer_eq_some {mFileEntries result : List FileEntry} {buffer : Bytes}
    {numberBytes : Int} {fuel : Nat}
    (h : parseLoop (buffer.length - numberBytes) fuel buffer mFileEntries = some result) :
    parseBuffer mFileEntries buffer numberBytes = some result := parseLoop_enough h

/-! ### One line -/

/-- A round that finds two fields: the path is what follows them up to the line end. -/
theorem parseRound_line {behind : Int} {func value : Bytes}
    (funcClean : ∀ c ∈ func, isTokenChar c = true) (valueToken : IsToken value) (line : Bytes) :
    parseRound behind (func ++ 32 :: (value ++ 32 :: line)) =
      (⟨func, value, (skipWhitespace line).takeWhile isLineChar⟩,
        if behind < (skipNonNewline (skipWhitespace line)).length then
          skipNewline (skipNonNewline (skipWhitespace line))
        else skipNonNewline (skipWhitespace line)) := by
  have valueStart : Stops isWhitespace (value ++ 32 :: line) := by
    obtain ⟨nonempty, clean⟩ := valueToken
    cases value with
    | nil => exact absurd rfl nonempty
    | cons c cs => exact stops_cons.mpr (isTokenChar_eq_true.mp (clean c List.mem_cons_self)).1
  -- each field ends at a blank, and the next one starts right behind it
  have blank (l : Bytes) : Stops isTokenChar (32 :: l) := stops_cons.mpr rfl
  have skip (l : Bytes) : skipWhitespace (32 :: l) = skipWhitespace l :=
    advance_cons_of_pos (by rfl)
  have first : skipNonWhitespace (func ++ 32 :: (value ++ 32 :: line)) =
      32 :: (value ++ 32 :: line) := advance_token funcClean (blank _)
  have start : skipWhitespace (value ++ 32 :: line) = value ++ 32 :: line :=
    advance_of_stops valueStart
  have second : skipNonWhitespace (value ++ 32 :: line) = 32 :: line :=
    advance_token valueToken.clean (blank _)
  have path : between (skipWhitespace line) (skipNonNewline (skipWhitespace line)) =
      (skipWhitespace line).takeWhile isLineChar := between_advance _ _
  simp only [parseRound, first, skip, start, second, between_append, path]

/-- A round over three fields.  `rest` is where the path ends: a line end, a NUL
or the end of the memory. -/
theorem parseRound_fields {behind : Int} {func value path rest : Bytes}
    (funcClean : ∀ c ∈ func, isTokenChar c = true) (valueToken : IsToken value)
    (pathClean : ∀ c ∈ path, isLineChar c = true) (start : Stops isWhitespace (path ++ rest))
    (stop : Stops isLineChar rest) :
    parseRound behind (func ++ 32 :: (value ++ 32 :: (path ++ rest))) =
      (⟨func, value, path⟩, if behind < rest.length then skipNewline rest else rest) := by
  have atPath : skipWhitespace (path ++ rest) = path ++ rest := advance_of_stops start
  have behindPath : skipNonNewline (path ++ rest) = rest := advance_token pathClean stop
  have taken : (path ++ rest).takeWhile isLineChar = path := by
    rw [← between_advance, show advance isLineChar (path ++ rest) = rest from behindPath,
      between_append]
  rw [parseRound_line funcClean valueToken, atPath, behindPath, taken]

theorem parseLoop_passed {behind : Int} {cursor : Bytes} (passed : (cursor.length : Int) ≤ behind)
    (fuel : Nat) (entries : List FileEntry) :
    parseLoop behind (fuel + 1) cursor entries = some entries := by
  rw [parseLoop, if_neg (by omega)]

theorem parseLoop_round {behind : Int} {cursor : Bytes} (inside : behind < cursor.length)
    (fuel : Nat) (entries : List FileEntry) :
    parseLoop behind (fuel + 1) cursor entries =
      parseLoop behind fuel (parseRound behind cursor).2
        (entries ++ [(parseRound behind cursor).1]) := by
  rw [parseLoop, if_pos inside]

/-! ### Texts without NUL -/

theorem parseRound_moves {cursor : Bytes} (nonempty : cursor ≠ []) (noNul : 0 ∉ cursor)
    (behind : Int) : (parseRound behind cursor).2.length < cursor.length := by
  -- the first byte is a blank or part of a field: one of the first two loops steps over it
  have behindValue : (skipWhitespace (skipNonWhitespace cursor)).length < cursor.length := by
    cases cursor with
    | nil => exact absurd rfl nonempty
    | cons c cs =>
      have notNul : c ≠ 0 := fun h => noNul (h ▸ List.mem_cons_self)
      by_cases blank : isWhitespace c = true
      · have stops : skipNonWhitespace (c :: cs) = c :: cs :=
          advance_of_stops (stops_cons.mpr (by simp [isTokenChar, blank]))
        rw [stops, skipWhitespace, advance_cons_of_pos blank]
        exact Nat.lt_succ_of_le (length_advance_le _ _)
      · have token : isTokenChar c = true := by simp [isTokenChar, blank, notNul]
        have steps : skipNonWhitespace (c :: cs) = skipNonWhitespace cs :=
          advance_cons_of_pos token
        rw [steps]
        exact Nat.lt_succ_of_le ((length_advance_le _ _).trans (length_advance_le _ _))
  have stop : (skipNonNewline (skipWhitespace (skipNonWhitespace
      (skipWhitespace (skipNonWhitespace cursor))))).length < cursor.length :=
    Nat.lt_of_le_of_lt ((length_advance_le _ _).trans
      ((length_advance_le _ _).trans (length_advance_le _ _))) behindValue
  simp only [parseRound]
  split
  · exact Nat.lt_of_le_of_lt (length_advance_le _ _) stop
  · exact stop

theorem parseLoop_ends {behind : Int} (atEnd : 0 ≤ behind) {fuel : Nat} {cursor : Bytes}
    (noNul : 0 ∉ cursor) (enough : (cursor.length : Int) < behind + fuel) (positive : 0 < fuel)
    (entries : List FileEntry) : ∃ result, parseLoop behind fuel cursor entries = some result := by
  induction fuel generalizing cursor entries with
  | zero => omega
  | succ fuel ih =>
    by_cases inside : behind < cursor.length
    · have nonempty : cursor ≠ [] := by
        rintro rfl
        simp at inside
        omega
      have moves := parseRound_moves nonempty noNul behind
      -- what is left is a part of the text, and has no NUL either
      rw [parseLoop_round inside]
      exact ih (fun mem => noNul ((parseRound_suffix behind cursor).subset mem)) (by omega) (by omega) _
    · exact ⟨entries, parseLoop_passed (by omega) fuel entries⟩

theorem parseLoop_entries (behind : Int) (fuel : Nat) (cursor : Bytes) (entries : List FileEntry) :
    parseLoop behind fuel cursor entries = (parseLoop behind fuel cursor []).map (entries ++ ·) := by
  induction fuel generalizing cursor entries with
  | zero => rfl
  | succ fuel ih =>
    by_cases inside : behind < cursor.length
    · rw [parseLoop_round inside, parseLoop_round inside, ih, ih _ ([] ++ _)]
      cases parseLoop behind fuel (parseRound behind cursor).2 [] <;> simp
    · simp [parseLoop, if_neg inside]

end BackupSuite.CtrlCenter
