import BackupSuite.CtrlCenter.ParseBuffer

/-! # The rounds of `parseBuffer`

No skip helper steps over a NUL.  A text is therefore parsed up to its first NUL as if the
memory ended there (`parseLoop_nul`), and a loop that has to come past a NUL never ends
(`parseLoop_stays`).
-/

namespace BackupSuite.CtrlCenter

open BackupSuite.Library

/-- `readCursor` after a number of rounds. -/
def cursorAfter (behind : Int) (buffer : Bytes) : Nat → Bytes
  | 0 => buffer
  | n + 1 => (parseRound behind (cursorAfter behind buffer n)).2

/-- With a NUL behind the buffer the loop ends after at most `numberBytes` rounds, and each
of its rounds moves `readCursor` forward. -/
structure Terminates (buffer : Bytes) (numberBytes : Int) : Prop where
  ends : ∃ entries, parseLoop ((buffer ++ [0]).length - numberBytes) (numberBytes.toNat + 1) (buffer ++ [0]) [] =
    some entries
  advances : ∀ n, (buffer ++ [0]).length - numberBytes <
      (cursorAfter ((buffer ++ [0]).length - numberBytes) (buffer ++ [0]) n).length →
    (cursorAfter ((buffer ++ [0]).length - numberBytes) (buffer ++ [0]) (n + 1)).length <
      (cursorAfter ((buffer ++ [0]).length - numberBytes) (buffer ++ [0]) n).length

/-! ## In front of a NUL -/

theorem parseRound_nul (behind : Int) (front rest : Bytes) :
    parseRound (behind + (0 :: rest).length) (front ++ 0 :: rest) =
      ((parseRound behind front).1, (parseRound behind front).2 ++ 0 :: rest) := by
  have whitespace (s : Bytes) : skipWhitespace (s ++ 0 :: rest) = skipWhitespace s ++ 0 :: rest :=
    advance_append_stop rfl s rest
  have token (s : Bytes) : skipNonWhitespace (s ++ 0 :: rest) = skipNonWhitespace s ++ 0 :: rest :=
    advance_append_stop rfl s rest
  have line (s : Bytes) : skipNonNewline (s ++ 0 :: rest) = skipNonNewline s ++ 0 :: rest :=
    advance_append_stop rfl s rest
  have newline (s : Bytes) : skipNewline (s ++ 0 :: rest) = skipNewline s ++ 0 :: rest :=
    advance_append_stop rfl s rest
  simp only [parseRound, whitespace, token, line, between_append_append]
  generalize skipNonNewline _ = stop
  by_cases inside : behind < stop.length
  · rw [if_pos inside, if_pos (by rw [List.length_append]; omega), newline]
  · rw [if_neg inside, if_neg (by rw [List.length_append]; omega)]

/-- The bytes from a NUL on are as if they were not there. -/
theorem parseLoop_nul (behind : Int) (fuel : Nat) (front rest : Bytes) (entries : List FileEntry) :
    parseLoop (behind + (0 :: rest).length) fuel (front ++ 0 :: rest) entries =
      parseLoop behind fuel front entries := by
  induction fuel generalizing front entries with
  | zero => rfl
  | succ fuel ih =>
    have whole : ((front ++ 0 :: rest).length : Int) = front.length + (0 :: rest).length := by
      rw [List.length_append, Int.natCast_add]
    by_cases inside : behind < front.length
    · rw [parseLoop_round inside, parseLoop_round (by omega), parseRound_nul, ih]
    · have passed : (front.length : Int) ≤ behind := by omega
      rw [parseLoop_passed passed, parseLoop_passed (by omega)]

theorem cursorAfter_nul (behind : Int) (front rest : Bytes) (n : Nat) :
    cursorAfter (behind + (0 :: rest).length) (front ++ 0 :: rest) n = cursorAfter behind front n ++ 0 :: rest := by
  induction n with
  | zero => rfl
  | succ n ih => rw [cursorAfter, cursorAfter, ih, parseRound_nul]

theorem cursorAfter_suffix (behind : Int) (buffer : Bytes) (n : Nat) : cursorAfter behind buffer n <:+ buffer := by
  induction n with
  | zero => exact List.suffix_rfl
  | succ n ih => exact (parseRound_suffix behind _).trans ih

/-- A loop whose end lies behind a NUL stays in front of it. -/
theorem parseLoop_stays {behind : Int} (negative : behind < 0) (fuel : Nat) (cursor : Bytes)
    (entries : List FileEntry) : parseLoop behind fuel cursor entries = none := by
  induction fuel generalizing cursor entries with
  | zero => rfl
  | succ fuel ih => rw [parseLoop_round (by omega), ih]

/-! ## Termination -/

/-- What is parsed has no NUL when it ends in front of the first one. -/
theorem not_mem_take_iff {buffer front rest : Bytes} (split : buffer ++ [0] = front ++ 0 :: rest)
    (noNul : 0 ∉ front) {n : Nat} (le : n ≤ buffer.length) : 0 ∉ buffer.take n ↔ n ≤ front.length := by
  have taken : buffer.take n = (front ++ 0 :: rest).take n := by
    rw [← split, List.take_append_of_le_length le]
  rw [taken]
  constructor
  · intro notIn
    by_contra long
    obtain ⟨more, rfl⟩ : ∃ more, n = front.length + (more + 1) := ⟨n - front.length - 1, by omega⟩
    rw [List.take_length_add_append, List.take_succ_cons] at notIn
    exact notIn (List.mem_append_right _ List.mem_cons_self)
  · intro short mem
    rw [List.take_append_of_le_length short] at mem
    exact noNul (List.take_subset _ _ mem)

/-- The loop of `parseBuffer` ends if and only if there is no NUL in what it has to parse. -/
theorem terminates_iff {buffer : Bytes} {numberBytes : Int} (le : numberBytes ≤ buffer.length) :
    Terminates buffer numberBytes ↔ 0 ∉ buffer.take numberBytes.toNat := by
  have some : 0 ∈ buffer ++ [0] := by simp
  obtain ⟨front, rest, split, noNul⟩ := List.eq_append_cons_of_mem some
  have size : ((buffer ++ [0]).length : Int) - numberBytes = (front.length - numberBytes) + (0 :: rest).length := by
    rw [split, List.length_append, Int.natCast_add]
    omega
  rw [not_mem_take_iff split noNul (by omega)]
  constructor
  · rintro ⟨⟨entries, ends⟩, -⟩
    by_contra long
    rw [size, split, parseLoop_nul, parseLoop_stays (by omega)] at ends
    cases ends
  · intro short
    have atEnd : (0 : Int) ≤ front.length - numberBytes := by omega
    refine ⟨?_, fun n inside => ?_⟩
    · rw [size, split, parseLoop_nul]
      exact parseLoop_ends atEnd noNul (by omega) (by omega) []
    · rw [size, split, cursorAfter_nul, List.length_append] at inside
      rw [size, split, cursorAfter_nul, cursorAfter_nul, List.length_append, List.length_append, cursorAfter]
      have suffix := cursorAfter_suffix (front.length - numberBytes) front n
      have nonempty : cursorAfter (front.length - numberBytes) front n ≠ [] := by
        intro empty
        rw [empty, List.length_nil] at inside
        omega
      have moves := parseRound_moves nonempty (fun mem => noNul (suffix.subset mem)) (front.length - numberBytes)
      omega

/-- Two lines with a NUL behind what has to be parsed. -/
theorem terminates_two : Terminates (text "MeowHash 1 a\nMeowHash 2 b\n" ++ [0]) 26 :=
  (terminates_iff (by decide)).mpr (by decide)

/-- A NUL is all that there is to parse. -/
theorem not_terminates : ¬ ∀ (buffer : Bytes) (numberBytes : Int), numberBytes ≤ buffer.length →
    Terminates buffer numberBytes := by
  intro all
  obtain ⟨⟨entries, ends⟩, -⟩ := all [0] 1 (by decide)
  cases ends

end BackupSuite.CtrlCenter
