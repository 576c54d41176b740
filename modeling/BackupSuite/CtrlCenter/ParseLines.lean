import BackupSuite.CtrlCenter.DatabaseFile
import BackupSuite.CtrlCenter.ParseRounds

/-! # What `parseBuffer` makes of any text

A round of the loop does not stay on its line: white space between the fields may be a line
end.  `Rounds` is the loop on a text that ends in a NUL and has no other one, `Lines` the
texts of which every round finds its line end.
-/

namespace BackupSuite.CtrlCenter

open BackupSuite.Library

/-- Where the path of a round ends. -/
def pathEnd (cursor : Bytes) : Bytes :=
  skipNonNewline (skipWhitespace (skipNonWhitespace (skipWhitespace (skipNonWhitespace cursor))))

/-- The loop on a text, with the entries it pushes. -/
inductive Rounds : Bytes → List FileEntry → Prop where
  | done : Rounds [] []
  | round {cursor : Bytes} {entries : List FileEntry} (more : cursor ≠ [])
      (behind : Rounds (skipNewline (pathEnd cursor)) entries) :
      Rounds cursor ((parseRound 0 cursor).1 :: entries)

/-- A line with its three fields, and the line ends behind it.  The white space between the
fields may be line ends. -/
structure IsLine (func space value space' path ends : Bytes) : Prop where
  func : ∀ c ∈ func, isTokenChar c = true
  space : space ≠ [] ∧ ∀ c ∈ space, isWhitespace c = true
  value : IsToken value
  space' : space' ≠ [] ∧ ∀ c ∈ space', isWhitespace c = true
  path : IsStoredPath path
  ends : ends ≠ [] ∧ ∀ c ∈ ends, isNewline c = true

/-- A text made of such lines. -/
inductive Lines : Bytes → Prop where
  | done : Lines []
  | line {func space value space' path ends rest : Bytes} (line : IsLine func space value space' path ends)
      (next : Stops isNewline rest) (behind : Lines rest) :
      Lines (func ++ (space ++ (value ++ (space' ++ (path ++ (ends ++ rest))))))

/-- `parseBuffer` of a text with a NUL behind it. -/
def parseText (mFileEntries : List FileEntry) (T : Bytes) : Option (List FileEntry) :=
  parseBuffer mFileEntries (T ++ [0]) T.length

/-! ## A round -/

theorem pathEnd_eq (cursor : Bytes) :
    pathEnd cursor = advanceAll [isTokenChar, isWhitespace, isTokenChar, isWhitespace, isLineChar] cursor := rfl

theorem pathEnd_suffix (cursor : Bytes) : pathEnd cursor <:+ cursor := by
  rw [pathEnd_eq]
  exact advanceAll_suffix _ cursor

theorem pathEnd_append {cursor : Bytes} (ended : pathEnd cursor ≠ []) (rest : Bytes) :
    pathEnd (cursor ++ rest) = pathEnd cursor ++ rest := by
  rw [pathEnd_eq] at ended
  rw [pathEnd_eq, pathEnd_eq]
  exact advanceAll_append ended rest

theorem parseRound_snd (behind : Int) (cursor : Bytes) : (parseRound behind cursor).2 =
    if behind < (pathEnd cursor).length then skipNewline (pathEnd cursor) else pathEnd cursor := rfl

theorem parseRound_zero_snd (cursor : Bytes) : (parseRound 0 cursor).2 = skipNewline (pathEnd cursor) := by
  rw [parseRound_snd]
  split
  case isTrue => rfl
  case isFalse atEnd =>
    have empty : pathEnd cursor = [] := List.eq_nil_of_length_eq_zero (by omega)
    rw [empty]
    rfl

theorem skipNewline_append (cursor rest : Bytes) : skipNewline (cursor ++ rest) =
    if skipNewline cursor = [] then skipNewline rest else skipNewline cursor ++ rest :=
  advance_append isNewline cursor rest

/-- The fields lie between the stops of the scans. -/
theorem parseRound_fst_eq (behind : Int) (cursor : Bytes) : (parseRound behind cursor).1 =
    ⟨between cursor (advanceAll [isTokenChar] cursor),
      between (advanceAll [isTokenChar, isWhitespace] cursor)
        (advanceAll [isTokenChar, isWhitespace, isTokenChar] cursor),
      between (advanceAll [isTokenChar, isWhitespace, isTokenChar, isWhitespace] cursor) (pathEnd cursor)⟩ := rfl

/-- The entry of a round that finds its line end does not depend on what follows. -/
theorem parseRound_fst_append {cursor : Bytes} (ended : pathEnd cursor ≠ []) (behind : Int) (rest : Bytes) :
    (parseRound behind (cursor ++ rest)).1 = (parseRound 0 cursor).1 := by
  rw [pathEnd_eq] at ended
  have func := @advanceAll_ne_nil _ [isTokenChar] [isWhitespace, isTokenChar, isWhitespace, isLineChar] cursor ended
  have value := @advanceAll_ne_nil _ [isTokenChar, isWhitespace] [isTokenChar, isWhitespace, isLineChar] cursor ended
  have valueEnd := @advanceAll_ne_nil _ [isTokenChar, isWhitespace, isTokenChar] [isWhitespace, isLineChar]
    cursor ended
  have path := @advanceAll_ne_nil _ [isTokenChar, isWhitespace, isTokenChar, isWhitespace] [isLineChar] cursor ended
  rw [parseRound_fst_eq, parseRound_fst_eq, advanceAll_append func, advanceAll_append value,
    advanceAll_append valueEnd, advanceAll_append path, pathEnd_append ended]
  simp only [between_append_append]

/-- A path is empty only at the end of the text. -/
theorem pathEnd_of_mPath_nil {cursor : Bytes} (noNul : 0 ∉ cursor) (empty : (parseRound 0 cursor).1.mPath = []) :
    pathEnd cursor = [] := by
  have suffix := advanceAll_suffix [isTokenChar, isWhitespace, isTokenChar, isWhitespace] cursor
  have stops : Stops isWhitespace (advanceAll [isTokenChar, isWhitespace, isTokenChar, isWhitespace] cursor) :=
    stops_advance isWhitespace _
  have path : pathEnd cursor = advance isLineChar
    (advanceAll [isTokenChar, isWhitespace, isTokenChar, isWhitespace] cursor) := rfl
  rw [parseRound_fst_eq] at empty
  simp only at empty
  rw [path] at empty ⊢
  generalize advanceAll _ cursor = start at *
  rw [between_advance] at empty
  cases start with
  | nil => rfl
  | cons c rest =>
    -- the first byte is no white space and no NUL, so it belongs to the path
    have notNul : c ≠ 0 := fun isNul => noNul (suffix.subset (isNul ▸ List.mem_cons_self))
    have notNewline := isNewline_le_isWhitespace (stops_cons.mp stops)
    rw [List.takeWhile_cons_of_pos (isLineChar_eq_true.mpr ⟨notNewline, notNul⟩)] at empty
    cases empty

/-! ## Texts of complete lines -/

theorem takeWhile_ne_nil {p q : UInt8 → Bool} (cover : ∀ c, c ≠ 0 → p c = false → q c = true) {cursor : Bytes}
    (noNul : 0 ∉ cursor) (stops : Stops p cursor) (inside : cursor ≠ []) : cursor.takeWhile q ≠ [] := by
  cases cursor with
  | nil => exact absurd rfl inside
  | cons c rest =>
    have notNul : c ≠ 0 := fun isNul => noNul (isNul ▸ List.mem_cons_self)
    rw [List.takeWhile_cons_of_pos (cover c notNul (stops_cons.mp stops))]
    exact List.cons_ne_nil _ _

theorem takeWhile_append_advance (p : UInt8 → Bool) (cursor : Bytes) :
    cursor.takeWhile p ++ advance p cursor = cursor := List.takeWhile_append_dropWhile

theorem stops_of_all {p q : UInt8 → Bool} (apart : ∀ c, p c = true → q c = false) {s : Bytes} (nonempty : s ≠ [])
    (all : ∀ c ∈ s, p c = true) (rest : Bytes) : Stops q (s ++ rest) := by
  cases s with
  | nil => exact absurd rfl nonempty
  | cons c s => exact stops_cons.mpr (apart c (all c List.mem_cons_self))

theorem isTokenChar_of_isWhitespace (c : UInt8) (white : isWhitespace c = true) : isTokenChar c = false := by
  rw [isTokenChar, white]
  rfl

theorem isLineChar_of_isNewline (c : UInt8) (newline : isNewline c = true) : isLineChar c = false := by
  rw [isLineChar, newline]
  rfl

/-- The scans of a round stop at the ends of the fields. -/
theorem IsLine.pathEnd {func space value space' path ends : Bytes} (line : IsLine func space value space' path ends)
    (rest : Bytes) :
    pathEnd (func ++ (space ++ (value ++ (space' ++ (path ++ (ends ++ rest)))))) = ends ++ rest := by
  have func (s : Bytes) : skipNonWhitespace (func ++ (space ++ s)) = space ++ s :=
    advance_token line.func (stops_of_all isTokenChar_of_isWhitespace line.space.1 line.space.2 s)
  have space (s : Bytes) : skipWhitespace (space ++ (value ++ s)) = value ++ s :=
    advance_token line.space.2
      (stops_of_all (fun _ token => (isTokenChar_eq_true.mp token).1) line.value.nonempty line.value.clean s)
  have value (s : Bytes) : skipNonWhitespace (value ++ (space' ++ s)) = space' ++ s :=
    advance_token line.value.clean (stops_of_all isTokenChar_of_isWhitespace line.space'.1 line.space'.2 s)
  have space' (s : Bytes) : skipWhitespace (space' ++ (path ++ s)) = path ++ s := by
    refine advance_token line.space'.2 ?_
    cases start : path with
    | nil => exact absurd start line.path.nonempty
    | cons c cs =>
      have stops := line.path.start
      rw [start] at stops
      exact stops_cons.mpr (stops_cons.mp stops)
  have path : skipNonNewline (path ++ (ends ++ rest)) = ends ++ rest :=
    advance_token line.path.clean (stops_of_all isLineChar_of_isNewline line.ends.1 line.ends.2 rest)
  rw [CtrlCenter.pathEnd, func, space, value, space', path]

/-- A round on such a text takes its first line. -/
theorem Lines.round {A : Bytes} (lines : Lines A) (nonempty : A ≠ []) :
    pathEnd A ≠ [] ∧ Lines (skipNewline (pathEnd A)) := by
  cases lines with
  | done => exact absurd rfl nonempty
  | @line func space value space' path ends rest line next behind =>
    have behindEnds : skipNewline (ends ++ rest) = rest := advance_token line.ends.2 next
    rw [line.pathEnd, behindEnds]
    exact ⟨List.append_ne_nil_of_left_ne_nil line.ends.1 rest, behind⟩

theorem Lines.of_round {A : Bytes} (noNul : 0 ∉ A) (ended : pathEnd A ≠ [])
    (behind : Lines (skipNewline (pathEnd A))) : Lines A := by
  -- the five scans, and that none of them runs out
  let atSpace := skipNonWhitespace A
  let atValue := skipWhitespace atSpace
  let atSpace' := skipNonWhitespace atValue
  let atPath := skipWhitespace atSpace'
  have suffixSpace : atSpace <:+ A := advance_suffix _ _
  have suffixValue : atValue <:+ A := (advance_suffix _ _).trans suffixSpace
  have suffixSpace' : atSpace' <:+ A := (advance_suffix _ _).trans suffixValue
  have suffixPath : atPath <:+ A := (advance_suffix _ _).trans suffixSpace'
  have noNulIn {s : Bytes} (suffix : s <:+ A) : 0 ∉ s := fun mem => noNul (suffix.subset mem)
  rw [pathEnd_eq] at ended
  have space : atSpace ≠ [] := @advanceAll_ne_nil _ [isTokenChar] _ A ended
  have value : atValue ≠ [] := @advanceAll_ne_nil _ [isTokenChar, isWhitespace] _ A ended
  have space' : atSpace' ≠ [] := @advanceAll_ne_nil _ [isTokenChar, isWhitespace, isTokenChar] _ A ended
  have path : atPath ≠ [] := @advanceAll_ne_nil _ [isTokenChar, isWhitespace, isTokenChar, isWhitespace] _ A ended
  have whiteCover : ∀ c, c ≠ 0 → isTokenChar c = false → isWhitespace c = true :=
    fun c notNul notToken => by simpa [isTokenChar, notNul] using notToken
  have tokenCover : ∀ c, c ≠ 0 → isWhitespace c = false → isTokenChar c = true :=
    fun c notNul notWhite => isTokenChar_eq_true.mpr ⟨notWhite, notNul⟩
  have lineCover : ∀ c, c ≠ 0 → isWhitespace c = false → isLineChar c = true :=
    fun c notNul notWhite => isLineChar_eq_true.mpr ⟨isNewline_le_isWhitespace notWhite, notNul⟩
  have endCover : ∀ c, c ≠ 0 → isLineChar c = false → isNewline c = true :=
    fun c notNul notLine => by simpa [isLineChar, notNul] using notLine
  have stopsPath : Stops isWhitespace atPath := stops_advance _ _
  have line : IsLine (A.takeWhile isTokenChar) (atSpace.takeWhile isWhitespace) (atValue.takeWhile isTokenChar)
      (atSpace'.takeWhile isWhitespace) (atPath.takeWhile isLineChar) ((pathEnd A).takeWhile isNewline) :=
    { func := fun _ => List.mem_takeWhile_imp
      space := ⟨takeWhile_ne_nil whiteCover (noNulIn suffixSpace) (stops_advance _ _) space,
        fun _ => List.mem_takeWhile_imp⟩
      value := ⟨takeWhile_ne_nil tokenCover (noNulIn suffixValue) (stops_advance _ _) value,
        fun _ => List.mem_takeWhile_imp⟩
      space' := ⟨takeWhile_ne_nil whiteCover (noNulIn suffixSpace') (stops_advance _ _) space',
        fun _ => List.mem_takeWhile_imp⟩
      path := ⟨takeWhile_ne_nil lineCover (noNulIn suffixPath) stopsPath path,
        fun _ => List.mem_takeWhile_imp, stopsPath.of_isFront (List.takeWhile_prefix _)⟩
      ends := ⟨takeWhile_ne_nil endCover (noNulIn (pathEnd_suffix A)) (stops_advance _ _) ended,
        fun _ => List.mem_takeWhile_imp⟩ }
  have whole : A = A.takeWhile isTokenChar ++ (atSpace.takeWhile isWhitespace ++ (atValue.takeWhile isTokenChar ++
      (atSpace'.takeWhile isWhitespace ++ (atPath.takeWhile isLineChar ++
        ((pathEnd A).takeWhile isNewline ++ skipNewline (pathEnd A)))))) := by
    rw [skipNewline, takeWhile_append_advance, show pathEnd A = advance isLineChar atPath from rfl,
      takeWhile_append_advance, show atPath = advance isWhitespace atSpace' from rfl, takeWhile_append_advance,
      show atSpace' = advance isTokenChar atValue from rfl, takeWhile_append_advance,
      show atValue = advance isWhitespace atSpace from rfl, takeWhile_append_advance,
      show atSpace = advance isTokenChar A from rfl, takeWhile_append_advance]
  rw [whole]
  exact .line line (stops_advance _ _) behind

/-! ## The loop -/

theorem not_mem_skipNewline_pathEnd {cursor : Bytes} (noNul : 0 ∉ cursor) :
    0 ∉ skipNewline (pathEnd cursor) :=
  fun mem => noNul ((pathEnd_suffix cursor).subset ((advance_suffix isNewline _).subset mem))

theorem parseLoop_of_rounds {T : Bytes} {entries : List FileEntry} (rounds : Rounds T entries)
    (mFileEntries : List FileEntry) : parseLoop 0 (entries.length + 1) T mFileEntries = some (mFileEntries ++ entries) := by
  induction rounds generalizing mFileEntries with
  | done => simp [parseLoop]
  | round more _ ih =>
    have inside := List.length_pos_of_ne_nil more
    rw [List.length_cons, parseLoop_round (by omega), parseRound_zero_snd, ih, List.append_assoc,
      List.singleton_append]

theorem Rounds.parseText {T : Bytes} {entries : List FileEntry} (rounds : Rounds T entries)
    (mFileEntries : List FileEntry) : parseText mFileEntries T = some (mFileEntries ++ entries) := by
  have size : ((T ++ [0]).length : Int) - T.length = 0 + ([0] : Bytes).length := by
    rw [List.length_append]
    omega
  refine @parseBuffer_eq_some _ _ _ _ (entries.length + 1) ?_
  rw [size, parseLoop_nul]
  exact parseLoop_of_rounds rounds mFileEntries

theorem Rounds.eq_nil {entries : List FileEntry} (rounds : Rounds [] entries) : entries = [] := by
  cases rounds with
  | done => rfl
  | round more => exact absurd rfl more

theorem Rounds.exists_cons {T : Bytes} {entries : List FileEntry} (rounds : Rounds T entries) (nonempty : T ≠ []) :
    ∃ behind, entries = (parseRound 0 T).1 :: behind ∧ Rounds (skipNewline (pathEnd T)) behind := by
  cases rounds with
  | done => exact absurd rfl nonempty
  | round _ behind => exact ⟨_, rfl, behind⟩

theorem Rounds.unique {T : Bytes} {entries entries' : List FileEntry} (rounds : Rounds T entries)
    (rounds' : Rounds T entries') : entries = entries' := by
  induction rounds generalizing entries' with
  | done => exact rounds'.eq_nil.symm
  | round more _ ih =>
    obtain ⟨behind, rfl, rest⟩ := rounds'.exists_cons more
    rw [ih rest]

theorem exists_rounds {T : Bytes} (noNul : 0 ∉ T) : ∃ entries, Rounds T entries := by
  induction bound : T.length using Nat.strong_induction_on generalizing T with
  | _ n ih =>
    subst bound
    by_cases empty : T = []
    · exact ⟨[], empty ▸ .done⟩
    · have moves := parseRound_moves empty noNul 0
      rw [parseRound_zero_snd] at moves
      obtain ⟨entries, behind⟩ := ih _ moves (not_mem_skipNewline_pathEnd noNul) rfl
      exact ⟨_, .round empty behind⟩

/-- Behind lines that are complete the next text is parsed on its own, but for the line ends it starts with. -/
theorem Rounds.append {A B : Bytes} {a b : List FileEntry} (rounds : Rounds A a) (lines : Lines A)
    (nonempty : A ≠ []) (behind : Rounds (skipNewline B) b) : Rounds (A ++ B) (a ++ b) := by
  induction rounds with
  | done => exact absurd rfl nonempty
  | @round cursor entries more rest ih =>
    obtain ⟨ended, linesRest⟩ := lines.round more
    have entry : (parseRound 0 (cursor ++ B)).1 = (parseRound 0 cursor).1 := parseRound_fst_append ended 0 B
    rw [List.cons_append, ← entry]
    refine .round (List.append_ne_nil_of_left_ne_nil more B) ?_
    rw [pathEnd_append ended, skipNewline_append]
    split
    case isTrue last =>
      rw [last] at rest
      rw [rest.unique .done]
      exact behind
    case isFalse notLast => exact ih linesRest notLast

/-! ## One text behind another -/

/-- `parseBuffer` of the two texts together appends what it appends for each of them. -/
def ParsedApart (A B : Bytes) : Prop :=
  ∃ a b, parseText [] A = some a ∧ parseText [] B = some b ∧
    ∀ mFileEntries, parseText mFileEntries (A ++ B) = some (mFileEntries ++ a ++ b)

/-- No line end in front, or the first byte behind the line ends is a blank or a tab. -/
def StartsLine (B : Bytes) : Prop := Stops isNewline B ∨ ∃ c ∈ (skipNewline B).head?, isWhitespace c = true

/-- The last line is ended. -/
def EndsLine (A : Bytes) : Prop := A = [] ∨ A.getLast? = some 10

theorem isNewline_imp {c : UInt8} (newline : isNewline c = true) : isWhitespace c = true := by
  rw [isNewline] at newline
  rw [isWhitespace, Bool.or_assoc, newline, Bool.or_true]

/-- Line ends in front of a blank are white space like the blank. -/
theorem pathEnd_skipNewline {B : Bytes} (newline : ¬ Stops isNewline B)
    (blank : ∃ c ∈ (skipNewline B).head?, isWhitespace c = true) :
    (parseRound 0 (skipNewline B)).1 = (parseRound 0 B).1 ∧ pathEnd (skipNewline B) = pathEnd B := by
  have noToken {s : Bytes} (first : ∃ c ∈ s.head?, isWhitespace c = true) : advance isTokenChar s = s := by
    cases s with
    | nil => rfl
    | cons c s =>
      obtain ⟨_, head, white⟩ := first
      cases head
      exact advance_of_stops (stops_cons.mpr (by simp [isTokenChar, white]))
  have first : ∃ c ∈ B.head?, isWhitespace c = true := by
    simp only [Stops, not_forall] at newline
    obtain ⟨c, head, isEnd⟩ := newline
    exact ⟨c, head, isNewline_imp (by simpa using isEnd)⟩
  -- from the value on the two rounds are the same
  have value : advance isWhitespace (skipNewline B) = advance isWhitespace B :=
    advance_advance (fun _ => isNewline_imp) B
  have nothing (s : Bytes) : between s s = [] := by simp [between]
  constructor
  · rw [parseRound_fst_eq, parseRound_fst_eq, pathEnd_eq, pathEnd_eq]
    simp only [advanceAll_cons, advanceAll_nil, noToken blank, noToken first, value, nothing]
  · rw [pathEnd_eq, pathEnd_eq]
    simp only [advanceAll_cons, noToken blank, noToken first, value]

theorem mHashFunc_parseRound (behind : Int) (cursor : Bytes) :
    (parseRound behind cursor).1.mHashFunc = cursor.takeWhile isTokenChar := between_advance isTokenChar cursor

theorem rounds_skipNewline_iff {B : Bytes} (noNul : 0 ∉ B) (nonempty : B ≠ []) {b b' : List FileEntry}
    (rounds : Rounds B b) (rounds' : Rounds (skipNewline B) b') : b' = b ↔ StartsLine B := by
  obtain ⟨behind, rfl, rest⟩ := rounds.exists_cons nonempty
  constructor
  · rintro rfl
    by_contra notLine
    rw [StartsLine, not_or] at notLine
    obtain ⟨newline, notBlank⟩ := notLine
    have nonempty' : skipNewline B ≠ [] := by
      intro empty
      rw [empty] at rounds'
      cases rounds'.eq_nil
    obtain ⟨_, same, -⟩ := rounds'.exists_cons nonempty'
    have func := congrArg FileEntry.mHashFunc (List.cons.inj same).1
    rw [mHashFunc_parseRound, mHashFunc_parseRound] at func
    -- the first line has no func, and behind the line ends there is one
    have noFunc : B.takeWhile isTokenChar = [] := by
      cases B with
      | nil => rfl
      | cons c B =>
        have isEnd : isNewline c = true := by simpa using newline
        rw [List.takeWhile_cons_of_neg (by simp [isTokenChar, isNewline_imp isEnd])]
    cases start : skipNewline B with
    | nil => exact nonempty' start
    | cons c cs =>
      have inText : c ∈ B := by
        refine (advance_suffix isNewline B).subset ?_
        rw [show advance isNewline B = c :: cs from start]
        exact List.mem_cons_self
      have token : isTokenChar c = true := by
        refine isTokenChar_eq_true.mpr ⟨?_, fun isNul => noNul (isNul ▸ inText)⟩
        rw [start] at notBlank
        simpa using notBlank
      rw [start, noFunc, List.takeWhile_cons_of_pos token] at func
      cases func
  · intro line
    by_cases stops : Stops isNewline B
    · rw [skipNewline, advance_of_stops stops] at rounds'
      exact rounds'.unique rounds
    · have blank := line.resolve_left stops
      obtain ⟨entry, ends⟩ := pathEnd_skipNewline stops blank
      have nonempty' : skipNewline B ≠ [] := by
        intro empty
        rw [empty] at blank
        simp at blank
      obtain ⟨behind', rfl, rest'⟩ := rounds'.exists_cons nonempty'
      rw [ends] at rest'
      rw [entry, rest'.unique rest]

theorem EndsLine.of_suffix {A rest : Bytes} (ends : EndsLine A) (suffix : rest <:+ A) : EndsLine rest := by
  obtain ⟨front, rfl⟩ := suffix
  by_cases empty : rest = []
  · exact Or.inl empty
  · cases ends with
    | inl nothing => exact Or.inl (List.append_eq_nil_iff.mp nothing).2
    | inr last =>
      rw [List.getLast?_append_of_ne_nil _ empty] at last
      exact Or.inr last

/-- When the text runs out in a round and ends with a line end, there is no path. -/
theorem mPath_of_pathEnd_nil {A : Bytes} (ends : EndsLine A) (out : pathEnd A = []) :
    (parseRound 0 A).1.mPath = [] := by
  have endsStart := ends.of_suffix (advanceAll_suffix [isTokenChar, isWhitespace, isTokenChar, isWhitespace] A)
  rw [parseRound_fst_eq]
  simp only
  rw [pathEnd_eq] at out ⊢
  change between _ (advance isLineChar (advanceAll [isTokenChar, isWhitespace, isTokenChar, isWhitespace] A)) = []
  change advance isLineChar (advanceAll [isTokenChar, isWhitespace, isTokenChar, isWhitespace] A) = [] at out
  generalize advanceAll _ A = start at *
  cases endsStart with
  | inl nothing =>
    rw [nothing]
    rfl
  | inr last =>
    -- the last byte is a line end, and the scan of the path has stepped over it
    have allLine := List.dropWhile_eq_nil_iff.mp out
    exact absurd (allLine 10 (List.mem_of_getLast? last)) (by decide)

/-- Behind a last line that is not complete the next text is not parsed on its own. -/
theorem Rounds.append_ne {A B : Bytes} {a b ab : List FileEntry} (noNul : 0 ∉ A ++ B) (rounds : Rounds A a)
    (notLines : ¬ Lines A) (ends : EndsLine A) (nonempty : B ≠ []) (roundsB : Rounds B b)
    (roundsAB : Rounds (A ++ B) ab) : ab ≠ a ++ b := by
  induction rounds generalizing ab with
  | done => exact absurd .done notLines
  | @round cursor entries more behind ih =>
    obtain ⟨behindAB, rfl, restAB⟩ := roundsAB.exists_cons (List.append_ne_nil_of_left_ne_nil more B)
    intro same
    rw [List.cons_append, List.cons.injEq] at same
    by_cases ended : pathEnd cursor = []
    · -- the round goes on in `B`, and its path is there unless it runs out of `B` too
      rw [ended] at behind
      rw [behind.eq_nil, List.nil_append] at same
      have noPath : (parseRound 0 (cursor ++ B)).1.mPath = [] := by rw [same.1, mPath_of_pathEnd_nil ends ended]
      rw [pathEnd_of_mPath_nil noNul noPath] at restAB
      obtain ⟨_, isCons, -⟩ := roundsB.exists_cons nonempty
      rw [← same.2, restAB.eq_nil] at isCons
      cases isCons
    · have noNulCursor : 0 ∉ cursor := fun mem => noNul (List.mem_append_left B mem)
      have notLast : skipNewline (pathEnd cursor) ≠ [] := by
        intro last
        exact notLines (.of_round noNulCursor ended (last ▸ .done))
      have suffix : skipNewline (pathEnd cursor) <:+ cursor :=
        (advance_suffix isNewline _).trans (pathEnd_suffix cursor)
      rw [pathEnd_append ended, skipNewline_append, if_neg notLast] at restAB
      have noNulRest : 0 ∉ skipNewline (pathEnd cursor) ++ B := by
        rw [List.mem_append, not_or] at noNul ⊢
        exact ⟨fun mem => noNul.1 (suffix.subset mem), noNul.2⟩
      exact ih noNulRest (fun lines => notLines (.of_round noNulCursor ended lines)) (ends.of_suffix suffix) restAB same.2

/-- The two texts are parsed apart if and only if one of them is empty, or the lines of the first
are complete and the second starts a line. -/
theorem parsedApart_iff {A B : Bytes} (noNulA : 0 ∉ A) (noNulB : 0 ∉ B) (ends : EndsLine A) :
    ParsedApart A B ↔ A = [] ∨ B = [] ∨ Lines A ∧ StartsLine B := by
  obtain ⟨a, roundsA⟩ := exists_rounds noNulA
  obtain ⟨b, roundsB⟩ := exists_rounds noNulB
  have noNul : 0 ∉ A ++ B := by
    rw [List.mem_append, not_or]
    exact ⟨noNulA, noNulB⟩
  obtain ⟨ab, roundsAB⟩ := exists_rounds noNul
  have apart : ParsedApart A B ↔ ab = a ++ b := by
    rw [ParsedApart, roundsA.parseText, roundsB.parseText]
    constructor
    · rintro ⟨_, _, isA, isB, together⟩
      cases isA
      cases isB
      have parsed := together []
      rw [roundsAB.parseText] at parsed
      exact Option.some.inj parsed
    · rintro rfl
      refine ⟨a, b, rfl, rfl, fun mFileEntries => ?_⟩
      rw [roundsAB.parseText, List.append_assoc]
  rw [apart]
  by_cases emptyA : A = []
  · subst emptyA
    rw [roundsA.eq_nil]
    exact ⟨fun _ => Or.inl rfl, fun _ => roundsAB.unique roundsB⟩
  by_cases emptyB : B = []
  · subst emptyB
    rw [List.append_nil] at roundsAB
    rw [roundsB.eq_nil, List.append_nil]
    exact ⟨fun _ => Or.inr (Or.inl rfl), fun _ => roundsAB.unique roundsA⟩
  -- both have something to parse: what counts is where the last round of `A` ends
  by_cases lines : Lines A
  · have noNulRest : 0 ∉ skipNewline B := fun mem => noNulB ((advance_suffix isNewline B).subset mem)
    obtain ⟨b', roundsRest⟩ := exists_rounds noNulRest
    rw [roundsAB.unique (roundsA.append lines emptyA roundsRest), List.append_cancel_left_eq,
      rounds_skipNewline_iff noNulB emptyB roundsB roundsRest]
    simp [emptyA, emptyB, lines]
  · simp [emptyA, emptyB, lines, roundsA.append_ne noNul lines ends emptyB roundsB roundsAB]

/-- A complete line and a text that starts with a blank line. -/
theorem parsedApart_blank : ParsedApart (text "MeowHash 1 a b\n") (text "\n MeowHash 2 c\n") := by
  have line : Lines (text "MeowHash 1 a b\n") := .of_round (by decide) (by decide) .done
  exact (parsedApart_iff (by decide) (by decide) (Or.inr (by decide))).mpr
    (Or.inr (Or.inr ⟨line, Or.inr ⟨32, by decide, by decide⟩⟩))

/-- A line without a path takes the next line for its path. -/
theorem not_parsedApart : ¬ ∀ A B : Bytes, 0 ∉ A → 0 ∉ B → EndsLine A → EndsLine B → ParsedApart A B := by
  intro all
  obtain ⟨a, b, isA, isB, together⟩ := all (text "MeowHash 1\n") (text "MeowHash 2 c\n") (by decide) (by decide)
    (Or.inr (by decide)) (Or.inr (by decide))
  have first : parseText [] (text "MeowHash 1\n") = some [⟨text "MeowHash", text "1", []⟩] := by decide
  have second : parseText [] (text "MeowHash 2 c\n") = some [⟨text "MeowHash", text "2", text "c"⟩] := by decide
  have both : parseText [] (text "MeowHash 1\n" ++ text "MeowHash 2 c\n") =
      some [⟨text "MeowHash", text "1", text "MeowHash 2 c"⟩] := by decide
  have joined := together []
  rw [both] at joined
  rw [first] at isA
  rw [second] at isB
  cases isA
  cases isB
  exact absurd (congrArg (Option.map List.length) joined) (by decide)

end BackupSuite.CtrlCenter
