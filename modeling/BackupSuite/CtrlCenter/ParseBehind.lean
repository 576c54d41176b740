import BackupSuite.CtrlCenter.ParseLines

/-! # The bytes behind the file

`readFileHashes` allocates ten bytes more than the file has and leaves them as they are.  No
skip helper looks at the end of the buffer: a scan ends at a byte of the class it looks for,
in the file or behind it.  A helper reads behind the memory when the memory runs out under it,
that is, when it stops at `[]`.
-/

namespace BackupSuite.CtrlCenter

open BackupSuite.Library

/-- Where the helpers that a round calls stop. -/
def scanStops (behind : Int) (cursor : Bytes) : List Bytes :=
  let func := skipNonWhitespace cursor
  let startValue := skipWhitespace func
  let value := skipNonWhitespace startValue
  let startPath := skipWhitespace value
  let path := skipNonNewline startPath
  [func, startValue, value, startPath, path] ++ if behind < path.length then [skipNewline path] else []

/-- No round on the buffer reads a byte behind it. -/
def ReadsInside (buffer : Bytes) (numberBytes : Int) : Prop :=
  ∀ n, buffer.length - numberBytes < (cursorAfter (buffer.length - numberBytes) buffer n).length →
    ∀ stop ∈ scanStops (buffer.length - numberBytes) (cursorAfter (buffer.length - numberBytes) buffer n), stop ≠ []

/-- The entries do not depend on the ten bytes. -/
def SameEntries (content : Bytes) : Prop :=
  ∃ entries, ∀ g : Bytes, g.length = 10 → parseBuffer [] (content ++ g) content.length = some entries

structure DependsOnlyOnFile (content : Bytes) : Prop where
  same : SameEntries content
  inside : ∀ g : Bytes, g.length = 10 → ReadsInside (content ++ g) content.length

/-! ## Reading inside the memory -/

/-- The rounds from a cursor on do not use up the memory. -/
def RoundsInside (behind : Int) (cursor : Bytes) : Prop :=
  ∀ n, behind < (cursorAfter behind cursor n).length → (parseRound behind (cursorAfter behind cursor n)).2 ≠ []

/-- If a scan runs out, the round has run out. -/
theorem scanStops_iff (behind : Int) (cursor : Bytes) :
    (∀ stop ∈ scanStops behind cursor, stop ≠ []) ↔ (parseRound behind cursor).2 ≠ [] := by
  constructor
  · intro inside
    rw [parseRound_snd]
    split
    case isTrue more => exact inside _ (List.mem_append_right _ (by rw [if_pos (by exact more)]; exact List.mem_singleton_self _))
    case isFalse => exact inside _ (List.mem_append_left _ (by simp [pathEnd]))
  · intro inside stop mem
    -- what is left behind the round is left behind every scan
    have last : (parseRound behind cursor).2 <:+ pathEnd cursor := by
      rw [parseRound_snd]
      split
      case isTrue => exact advance_suffix isNewline _
      case isFalse => exact List.suffix_rfl
    have startPath := last.trans (advance_suffix isLineChar _)
    have value := startPath.trans (advance_suffix isWhitespace _)
    have startValue := value.trans (advance_suffix isTokenChar _)
    have func := startValue.trans (advance_suffix isWhitespace _)
    have notEmpty {s : Bytes} (suffix : (parseRound behind cursor).2 <:+ s) : s ≠ [] := by
      rintro rfl
      exact inside (List.suffix_nil.mp suffix)
    rw [scanStops, List.mem_append] at mem
    cases mem with
    | inl scan =>
      simp only [List.mem_cons, List.not_mem_nil, or_false] at scan
      obtain rfl | rfl | rfl | rfl | rfl := scan
      · exact notEmpty func
      · exact notEmpty startValue
      · exact notEmpty value
      · exact notEmpty startPath
      · exact notEmpty last
    | inr newline =>
      rw [parseRound_snd] at inside
      split at newline
      case isTrue more =>
        rw [List.mem_singleton.mp newline]
        rwa [if_pos (by exact more)] at inside
      case isFalse => cases newline

theorem readsInside_iff {content g : Bytes} (size : g.length = 10) :
    ReadsInside (content ++ g) content.length ↔ RoundsInside 10 (content ++ g) := by
  have behind : ((content ++ g).length : Int) - content.length = 10 := by
    rw [List.length_append]
    omega
  rw [ReadsInside, behind]
  exact forall_congr' fun n => imp_congr_right fun _ => scanStops_iff 10 _

theorem cursorAfter_succ (behind : Int) (cursor : Bytes) (n : Nat) :
    cursorAfter behind cursor (n + 1) = cursorAfter behind (parseRound behind cursor).2 n := by
  induction n with
  | zero => rfl
  | succ n ih => rw [cursorAfter, ih, cursorAfter]

theorem roundsInside_round {behind : Int} {cursor : Bytes} (inside : behind < cursor.length) :
    RoundsInside behind cursor ↔
      (parseRound behind cursor).2 ≠ [] ∧ RoundsInside behind (parseRound behind cursor).2 := by
  constructor
  · intro all
    refine ⟨all 0 inside, fun n more => ?_⟩
    have next := all (n + 1)
    rw [cursorAfter_succ] at next
    exact next more
  · rintro ⟨first, rest⟩ n more
    cases n with
    | zero => exact first
    | succ n =>
      rw [cursorAfter_succ] at more ⊢
      exact rest n more

theorem roundsInside_passed {behind : Int} {cursor : Bytes} (passed : (cursor.length : Int) ≤ behind) :
    RoundsInside behind cursor := by
  intro n more
  have le := (cursorAfter_suffix behind cursor n).length_le
  omega

/-! ## Complete lines -/

theorem parseRound_lines {T : Bytes} (ended : pathEnd T ≠ []) {g : Bytes} (size : g.length = 10) :
    (parseRound 10 (T ++ g)).2 =
      if skipNewline (pathEnd T) = [] then skipNewline g else skipNewline (pathEnd T) ++ g := by
  have positive := List.length_pos_of_ne_nil ended
  rw [parseRound_snd, pathEnd_append ended, if_pos (by rw [List.length_append]; omega), skipNewline_append]

theorem Rounds.parseLoop_behind {T : Bytes} {entries : List FileEntry} (rounds : Rounds T entries)
    (lines : Lines T) {g : Bytes} (size : g.length = 10) (mFileEntries : List FileEntry) :
    parseLoop 10 (entries.length + 1) (T ++ g) mFileEntries = some (mFileEntries ++ entries) := by
  induction rounds generalizing mFileEntries with
  | done =>
    rw [List.nil_append, parseLoop_passed (by omega), List.append_nil]
  | @round cursor entries more behind ih =>
    obtain ⟨ended, linesRest⟩ := lines.round more
    have positive := List.length_pos_of_ne_nil more
    have entry : (parseRound 10 (cursor ++ g)).1 = (parseRound 0 cursor).1 := parseRound_fst_append ended 10 g
    rw [List.length_cons, parseLoop_round (by rw [List.length_append]; omega), entry, parseRound_lines ended size]
    split
    case isTrue last =>
      -- behind the last line the helper goes on into the ten bytes
      have short := length_advance_le isNewline g
      rw [last] at behind
      rw [behind.eq_nil, parseLoop_passed (by rw [skipNewline]; omega)]
    case isFalse =>
      rw [ih linesRest, List.append_assoc, List.singleton_append]

theorem sameEntries_of_lines {content : Bytes} (noNul : 0 ∉ content) (lines : Lines content) : SameEntries content := by
  obtain ⟨entries, rounds⟩ := exists_rounds noNul
  refine ⟨entries, fun g size => ?_⟩
  have behind : ((content ++ g).length : Int) - content.length = 10 := by
    rw [List.length_append]
    omega
  refine @parseBuffer_eq_some _ _ _ _ (entries.length + 1) ?_
  rw [behind]
  exact rounds.parseLoop_behind lines size []

theorem skipNewline_ne_nil_iff {g : Bytes} : skipNewline g ≠ [] ↔ ∃ c ∈ g, isNewline c = false := by
  rw [skipNewline, advance, Ne, List.dropWhile_eq_nil_iff]
  simp

/-- Behind complete lines it is the line ends that may run on. -/
theorem Rounds.inside_iff {T : Bytes} {entries : List FileEntry} (rounds : Rounds T entries) (lines : Lines T)
    (nonempty : T ≠ []) {g : Bytes} (size : g.length = 10) :
    RoundsInside 10 (T ++ g) ↔ ∃ c ∈ g, isNewline c = false := by
  induction rounds with
  | done => exact absurd rfl nonempty
  | @round cursor entries more behind ih =>
    obtain ⟨ended, linesRest⟩ := lines.round more
    have positive := List.length_pos_of_ne_nil more
    rw [roundsInside_round (by rw [List.length_append]; omega), parseRound_lines ended size]
    split
    case isTrue =>
      have short := length_advance_le isNewline g
      rw [and_iff_left (roundsInside_passed (by rw [skipNewline]; omega)), skipNewline_ne_nil_iff]
    case isFalse notLast =>
      rw [and_iff_right (List.append_ne_nil_of_left_ne_nil notLast g)]
      exact ih linesRest notLast

/-! ## Lines that are not complete -/

/-- The three fields without what was between them. -/
def FileEntry.fieldsText (e : FileEntry) : Bytes := e.mHashFunc ++ e.mHashValue ++ e.mPath

theorem between_nil (s : Bytes) : between s [] = s := by simp [between]

/-- A round that runs out of the text goes on with what follows and takes all of it into a field. -/
theorem fieldsText_append {cursor g : Bytes} (out : pathEnd cursor = []) (token : IsToken g) (behind : Int) :
    (parseRound behind (cursor ++ g)).1.fieldsText = (parseRound behind cursor).1.fieldsText ++ g := by
  have tokens : advance isTokenChar g = [] := List.dropWhile_eq_nil_iff.mpr token.clean
  have line : advance isLineChar g = [] := by
    refine List.dropWhile_eq_nil_iff.mpr fun c mem => isLineChar_eq_true.mpr ?_
    obtain ⟨notWhite, notNul⟩ := isTokenChar_eq_true.mp (token.clean c mem)
    exact ⟨isNewline_le_isWhitespace notWhite, notNul⟩
  have white : advance isWhitespace g = g := by
    refine advance_of_stops ?_
    have stops := stops_of_all (fun _ token => (isTokenChar_eq_true.mp token).1) token.nonempty token.clean []
    rwa [List.append_nil] at stops
  have atField (s : Bytes) : advance isWhitespace (s ++ g) = advance isWhitespace s ++ g := by
    rw [advance_append, white]
    split
    case isTrue empty => rw [empty, List.nil_append]
    case isFalse => rfl
  rw [parseRound_fst_eq, parseRound_fst_eq, pathEnd_eq, pathEnd_eq]
  rw [pathEnd_eq] at out
  simp only [FileEntry.fieldsText, advanceAll_cons, advanceAll_nil] at out ⊢
  -- the field in which the text ends: the func, the value or the path
  by_cases func : advance isTokenChar cursor = []
  · have all : advance isTokenChar (cursor ++ g) = [] := by rw [advance_append, if_pos func, tokens]
    simp only [func, all, advance_nil, between_nil, List.append_nil]
  · rw [advance_append, if_neg func, atField, between_append_append]
    generalize between cursor _ = hashFunc
    generalize advance isWhitespace (advance isTokenChar cursor) = startValue at *
    by_cases value : advance isTokenChar startValue = []
    · have all : advance isTokenChar (startValue ++ g) = [] := by rw [advance_append, if_pos value, tokens]
      simp only [value, all, advance_nil, between_nil, List.append_nil, List.append_assoc]
    · rw [advance_append, if_neg value, atField, between_append_append]
      generalize advance isWhitespace (advance isTokenChar startValue) = startPath at *
      rw [advance_append, if_pos out, out, line]
      simp only [between_nil, List.append_assoc]

/-- Different bytes behind the text are read as different entries. -/
theorem Rounds.parseLoop_ne {T : Bytes} {entries : List FileEntry} (rounds : Rounds T entries) (noNul : 0 ∉ T)
    (notLines : ¬ Lines T) {g g' : Bytes} (size : g.length = 10) (size' : g'.length = 10) (token : IsToken g)
    (token' : IsToken g') (ne : g ≠ g') {fuel fuel' : Nat} {r r' : List FileEntry}
    (parsed : parseLoop 10 fuel (T ++ g) [] = some r) (parsed' : parseLoop 10 fuel' (T ++ g') [] = some r') :
    r ≠ r' := by
  induction rounds generalizing fuel fuel' r r' with
  | done => exact absurd .done notLines
  | @round cursor entries more behind ih =>
    have positive := List.length_pos_of_ne_nil more
    cases fuel with
    | zero => cases parsed
    | succ fuel =>
      cases fuel' with
      | zero => cases parsed'
      | succ fuel' =>
        rw [parseLoop_round (by rw [List.length_append]; omega), parseLoop_entries, List.nil_append] at parsed parsed'
        obtain ⟨rest, parsedRest, rfl⟩ := Option.map_eq_some_iff.mp parsed
        obtain ⟨rest', parsedRest', rfl⟩ := Option.map_eq_some_iff.mp parsed'
        rw [List.singleton_append, List.singleton_append]
        intro same
        obtain ⟨first, tails⟩ := List.cons.inj same
        -- the text ends inside this round, whose fields then go on with the other bytes
        by_cases ended : pathEnd cursor = []
        · have fields := congrArg FileEntry.fieldsText first
          rw [fieldsText_append ended token, fieldsText_append ended token'] at fields
          exact ne (List.append_cancel_left fields)
        · have notLast : skipNewline (pathEnd cursor) ≠ [] := by
            intro last
            exact notLines (.of_round noNul ended (last ▸ .done))
          rw [parseRound_lines ended size, if_neg notLast] at parsedRest
          rw [parseRound_lines ended size', if_neg notLast] at parsedRest'
          exact ih (not_mem_skipNewline_pathEnd noNul) (fun lines => notLines (.of_round noNul ended lines))
            parsedRest parsedRest' tails

theorem lines_of_sameEntries {content : Bytes} (noNul : 0 ∉ content) (same : SameEntries content) : Lines content := by
  by_contra notLines
  obtain ⟨entries, rounds⟩ := exists_rounds noNul
  obtain ⟨parsed, all⟩ := same
  have behind (g : Bytes) (size : g.length = 10) : ((content ++ g).length : Int) - content.length = 10 := by
    rw [List.length_append]
    omega
  have first := all (List.replicate 10 97) rfl
  have second := all (List.replicate 10 98) rfl
  rw [parseBuffer, behind _ rfl] at first second
  exact rounds.parseLoop_ne noNul notLines List.length_replicate List.length_replicate (by decide) (by decide)
    (by decide) first second rfl

/-! ## What the ten bytes decide -/

/-- Only of an empty file is nothing read behind it, whatever the ten bytes are.  The entries
do not depend on them if the file is made of complete lines; then the reading stays inside
as long as one of the ten bytes is no line end. -/
theorem dependsOnlyOnFile_iff {content : Bytes} (noNul : 0 ∉ content) :
    (DependsOnlyOnFile content ↔ content = []) ∧ (SameEntries content ↔ Lines content) ∧
      (Lines content → content ≠ [] → ∀ g : Bytes, g.length = 10 →
        (ReadsInside (content ++ g) content.length ↔ ∃ c ∈ g, isNewline c = false)) := by
  have same : SameEntries content ↔ Lines content :=
    ⟨lines_of_sameEntries noNul, sameEntries_of_lines noNul⟩
  have inside (lines : Lines content) (nonempty : content ≠ []) (g : Bytes) (size : g.length = 10) :
      ReadsInside (content ++ g) content.length ↔ ∃ c ∈ g, isNewline c = false := by
    obtain ⟨entries, rounds⟩ := exists_rounds noNul
    rw [readsInside_iff size, rounds.inside_iff lines nonempty size]
  refine ⟨?_, same, inside⟩
  constructor
  · rintro ⟨sameEntries, readsInside⟩
    by_contra nonempty
    have lines := same.mp sameEntries
    obtain ⟨c, mem, notEnd⟩ := (inside lines nonempty _ rfl).mp (readsInside (List.replicate 10 10) rfl)
    rw [List.eq_of_mem_replicate mem] at notEnd
    cases notEnd
  · rintro rfl
    refine ⟨same.mpr .done, fun g size => (readsInside_iff size).mpr (roundsInside_passed ?_)⟩
    rw [List.nil_append]
    omega

/-- A complete line. -/
theorem dependsOnlyOnFile_line :
    (DependsOnlyOnFile (text "MeowHash 1 a\n") ↔ text "MeowHash 1 a\n" = []) ∧
      (SameEntries (text "MeowHash 1 a\n") ↔ Lines (text "MeowHash 1 a\n")) ∧
      (Lines (text "MeowHash 1 a\n") → text "MeowHash 1 a\n" ≠ [] → ∀ g : Bytes, g.length = 10 →
        (ReadsInside (text "MeowHash 1 a\n" ++ g) (text "MeowHash 1 a\n").length ↔ ∃ c ∈ g, isNewline c = false)) :=
  dependsOnlyOnFile_iff (by decide)

/-- Without the last line end the path goes on into the ten bytes. -/
theorem not_dependsOnlyOnFile : ¬ ∀ content : Bytes, 0 ∉ content → DependsOnlyOnFile content := by
  intro all
  obtain ⟨entries, same⟩ := (all (text "MeowHash 1 a") (by decide)).same
  have first := same (List.replicate 10 0) rfl
  have second := same (List.replicate 10 97) rfl
  rw [← second] at first
  exact absurd first (by decide)

end BackupSuite.CtrlCenter
