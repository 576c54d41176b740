import BackupSuite.CtrlCenter.CompressFile

/-! # `copyFile` against every outcome of its calls

The POSIX branch, with one outcome for each call of `read` and `write` in the order in which
they are made.  The loop keeps the result of either call in one variable and looks at
`readCount` to see whether the file has ended; an interrupted `read` leaves `readCount` as it
was.  Source and destination are two files.
-/

namespace BackupSuite.CtrlCenter.Posix

open BackupSuite.Library

/-- What the system makes of a call: how many bytes it passes at most, `-1` with `EINTR`, or
`-1` with another error. -/
inductive CallResult where
  | count (n : Nat)
  | eintr
  | error
deriving DecidableEq, Repr

/-- The variables of `copyFile`, what is left of the source and what the destination holds. -/
structure CopyState where
  source : Bytes
  destination : Bytes
  buffer : Bytes
  readCount : Nat
  writeCount : Nat
  result : Int

def buffersize : Nat := 4 * 1024

/-- `(result >= 0) && (writeCount < readCount)`: the condition of the inner loop. -/
def CopyState.writes (s : CopyState) : Bool := decide (0 ≤ s.result ∧ s.writeCount < s.readCount)

/-- `(result >= 0) && (readCount > 0)`: the condition of the outer loop. -/
def CopyState.repeats (s : CopyState) : Bool := decide (0 ≤ s.result ∧ 0 < s.readCount)

/-- `result = ::read(sourceFH, buffer, buffersize)` and what depends on it.  In front of the
end of the file `read` delivers one byte at least. -/
def readCall (call : CallResult) (s : CopyState) : CopyState :=
  match call with
  | .count n =>
    let result := min (max 1 n) (min buffersize s.source.length)
    { s with
      source := s.source.drop result, buffer := s.source.take result,
      readCount := result, writeCount := 0, result := result }
  | .eintr => { s with result := 0 }
  | .error => { s with result := -1 }

/-- `result = ::write(destFH, buffer+writeCount, readCount-writeCount)` -/
def writeCall (call : CallResult) (s : CopyState) : CopyState :=
  match call with
  | .count n =>
    let result := min n (s.readCount - s.writeCount)
    { s with
      destination := s.destination ++ (s.buffer.drop s.writeCount).take result,
      writeCount := s.writeCount + result, result := result }
  -- `writeCount` is decremented, but not looked at again
  | .eintr => { s with result := -1 }
  | .error => { s with result := -1 }

/-- The next call. -/
def copyStep (call : CallResult) (s : CopyState) : CopyState :=
  if s.writes then writeCall call s else readCall call s

/-- The loop is in front of its next call, or it has been left. -/
inductive Progress where
  | running (s : CopyState)
  | left (s : CopyState)

/-- The loop after `n` calls. -/
def copyLoop (calls : Nat → CallResult) (start : CopyState) : Nat → Progress
  | 0 => .running start
  | n + 1 =>
    match copyLoop calls start n with
    | .running s =>
      let next := copyStep (calls n) s
      if next.writes || next.repeats then .running next else .left next
    | .left s => .left s

/-- The outcomes of the calls in `copyFile`. -/
structure CopyOutcomes where
  opensSource : Bool
  opensDest : Bool
  calls : Nat → CallResult

/-- In front of the first `read`; the destination has been truncated. -/
def CopyState.start (source : Bytes) : CopyState := ⟨source, [], [], 0, 0, -1⟩

/-- What `copyFile` returns and the destination it leaves, if it needs no more than `n` calls. -/
def copyFile (io : CopyOutcomes) (source : Bytes) (destination : Option Bytes) (n : Nat) :
    Option (Bool × Option Bytes) :=
  if io.opensSource = false then some (false, destination)
  else if io.opensDest = false then some (false, destination)
  else
    match copyLoop io.calls (.start source) n with
    | .running _ => none
    | .left s => some (decide (0 ≤ s.result), some s.destination)

/-- No call of `write` returns 0. -/
def WritesSome (io : CopyOutcomes) (source : Bytes) : Prop :=
  ∀ n s, copyLoop io.calls (.start source) n = .running s → s.writes = true → io.calls n ≠ .count 0

/-- `true` stands for a complete copy, and the function returns unless the system keeps it
from getting on. -/
structure CopiesTruly (io : CopyOutcomes) (source : Bytes) (destination : Option Bytes) : Prop where
  complete : ∀ n copy, copyFile io source destination n = some (true, copy) → copy = some source
  terminates : (∃ bound, ∀ n, bound ≤ n → io.calls n ≠ .eintr) → WritesSome io source →
    ∃ n result, copyFile io source destination n = some result

/-! ## One call -/

/-- What has been written, what is in the buffer and what has not been read make up the source. -/
structure Copying (content : Bytes) (s : CopyState) : Prop where
  whole : s.destination ++ (s.buffer.drop s.writeCount ++ s.source) = content
  filled : s.buffer.length = s.readCount
  written : s.writeCount ≤ s.readCount
  emptied : s.writes = false → s.writeCount = s.readCount

theorem copying_start (content : Bytes) : Copying content (.start content) :=
  ⟨rfl, rfl, Nat.le_refl 0, fun _ => rfl⟩

theorem CopyState.writes_iff {s : CopyState} : s.writes = true ↔ 0 ≤ s.result ∧ s.writeCount < s.readCount :=
  decide_eq_true_iff

theorem CopyState.repeats_iff {s : CopyState} : s.repeats = true ↔ 0 ≤ s.result ∧ 0 < s.readCount :=
  decide_eq_true_iff

/-- The inner loop runs inside the outer one. -/
theorem goesOn_iff {s : CopyState} : (s.writes || s.repeats) = true ↔ s.repeats = true := by
  rw [Bool.or_eq_true, CopyState.writes_iff, CopyState.repeats_iff]
  omega

theorem Copying.buffer_empty {content : Bytes} {s : CopyState} (copying : Copying content s)
    (reads : s.writes = false) : s.buffer.drop s.writeCount = [] := by
  have size := copying.filled
  have emptied := copying.emptied reads
  exact List.drop_eq_nil_of_le (by omega)

theorem Copying.writeCall {content : Bytes} {s : CopyState} (copying : Copying content s) (writes : s.writes = true)
    {call : CallResult} (good : 0 ≤ (writeCall call s).result) :
    Copying content (writeCall call s) ∧ 0 < (Posix.writeCall call s).readCount := by
  have more := (CopyState.writes_iff.mp writes).2
  cases call with
  | eintr => exact absurd good (by decide : ¬ (0 : Int) ≤ -1)
  | error => exact absurd good (by decide : ¬ (0 : Int) ≤ -1)
  | count n =>
    have whole := copying.whole
    have some : 0 < s.readCount := by omega
    refine ⟨⟨?_, copying.filled, ?_, fun reads => ?_⟩, some⟩
    · rw [← whole, Posix.writeCall, List.append_assoc, ← List.append_assoc (List.take _ _), ← List.drop_drop,
        List.take_append_drop]
    · simp only [Posix.writeCall]
      omega
    · have notWrites : ¬ (Posix.writeCall (.count n) s).writes = true := by rw [reads]; decide
      rw [CopyState.writes_iff] at notWrites
      simp only [Posix.writeCall] at notWrites ⊢
      omega

/-- A `read` after which the loop is left without an error was the last one of the file, if it
was not interrupted before anything was read. -/
theorem Copying.readCall {content : Bytes} {s : CopyState} (copying : Copying content s) (reads : s.writes = false)
    {call : CallResult} (started : 0 < s.readCount ∨ call ≠ .eintr ∨ s.source = [])
    (good : 0 ≤ (readCall call s).result) :
    Copying content (readCall call s) ∧
      (0 < (Posix.readCall call s).readCount ∨ (Posix.readCall call s).destination = content) := by
  have whole := copying.whole
  rw [copying.buffer_empty reads, List.nil_append] at whole
  have emptied := copying.emptied reads
  cases call with
  | error => exact absurd good (by decide : ¬ (0 : Int) ≤ -1)
  | eintr =>
    refine ⟨⟨copying.whole, copying.filled, copying.written, fun _ => emptied⟩, ?_⟩
    -- `readCount` is that of the last block, or still 0
    cases started with
    | inl some => exact Or.inl some
    | inr ended =>
      have atEnd := ended.resolve_left (not_not_intro rfl)
      rw [atEnd, List.append_nil] at whole
      exact Or.inr whole
  | count n =>
    refine ⟨⟨?_, ?_, Nat.zero_le _, fun notMore => ?_⟩, ?_⟩
    · simp only [Posix.readCall, List.drop_zero, List.take_append_drop]
      exact whole
    · simp only [Posix.readCall, List.length_take]
      omega
    · have notWrites : ¬ (Posix.readCall (.count n) s).writes = true := by rw [notMore]; decide
      rw [CopyState.writes_iff] at notWrites
      simp only [Posix.readCall] at notWrites ⊢
      omega
    · by_cases atEnd : s.source = []
      · rw [atEnd, List.append_nil] at whole
        exact Or.inr whole
      · have positive := List.length_pos_of_ne_nil atEnd
        refine Or.inl ?_
        simp only [Posix.readCall, buffersize]
        omega

theorem Copying.copyStep {content : Bytes} {s : CopyState} (copying : Copying content s) {call : CallResult}
    (started : 0 < s.readCount ∨ call ≠ .eintr ∨ s.source = []) (good : 0 ≤ (copyStep call s).result) :
    Copying content (copyStep call s) ∧
      (0 < (Posix.copyStep call s).readCount ∨ (Posix.copyStep call s).destination = content) := by
  rw [Posix.copyStep] at good ⊢
  split at good
  case isTrue writes =>
    rw [if_pos writes]
    exact (copying.writeCall writes good).imp_right Or.inl
  case isFalse notWrites =>
    rw [if_neg notWrites]
    exact copying.readCall (Bool.eq_false_iff.mpr notWrites) started good

/-! ## The whole loop -/

/-- What is known after some calls. -/
def Progress.Copies (content : Bytes) (n : Nat) : Progress → Prop
  | .running s => Copying content s ∧ (n = 0 ∨ 0 < s.readCount)
  | .left s => 0 ≤ s.result → s.destination = content

theorem copies_copyLoop {calls : Nat → CallResult} {content : Bytes} (started : calls 0 ≠ .eintr ∨ content = [])
    (n : Nat) : (copyLoop calls (.start content) n).Copies content n := by
  induction n with
  | zero => exact ⟨copying_start content, Or.inl rfl⟩
  | succ n ih =>
    cases before : copyLoop calls (.start content) n with
    | left s =>
      rw [before] at ih
      rw [copyLoop, before]
      exact ih
    | running s =>
      rw [before] at ih
      obtain ⟨copying, more⟩ := ih
      have startedHere : 0 < s.readCount ∨ calls n ≠ .eintr ∨ s.source = [] := by
        cases more with
        | inr more => exact Or.inl more
        | inl first =>
          -- nothing has been read before the first call
          subst first
          cases before
          exact Or.inr started
      simp only [copyLoop, before]
      split
      case isTrue goesOn =>
        have repeats := CopyState.repeats_iff.mp (goesOn_iff.mp goesOn)
        exact ⟨(copying.copyStep startedHere repeats.1).1, Or.inr repeats.2⟩
      case isFalse leaves =>
        intro good
        rw [goesOn_iff, CopyState.repeats_iff] at leaves
        exact (copying.copyStep startedHere good).2.resolve_left fun more => leaves ⟨good, more⟩

/-- Reading a byte and writing a byte both lower it. -/
def CopyState.rest (s : CopyState) : Nat := 2 * s.source.length + (s.readCount - s.writeCount)

theorem rest_copyStep {content : Bytes} {s : CopyState} (copying : Copying content s) {call : CallResult}
    (goesOn : (copyStep call s).repeats = true) (writesSome : s.writes = true → call ≠ .count 0) :
    (copyStep call s).rest < s.rest ∨ call = .eintr ∧ (copyStep call s).rest = s.rest := by
  rw [CopyState.repeats_iff] at goesOn
  rw [copyStep] at goesOn ⊢
  split at goesOn
  case isTrue writes =>
    have more := (CopyState.writes_iff.mp writes).2
    rw [if_pos writes]
    cases call with
    | eintr => exact absurd goesOn.1 (by decide : ¬ (0 : Int) ≤ -1)
    | error => exact absurd goesOn.1 (by decide : ¬ (0 : Int) ≤ -1)
    | count n =>
      have positive : n ≠ 0 := fun zero => writesSome writes (zero ▸ rfl)
      refine Or.inl ?_
      simp only [writeCall, CopyState.rest]
      omega
  case isFalse notWrites =>
    have emptied := copying.emptied (Bool.eq_false_iff.mpr notWrites)
    rw [if_neg notWrites]
    cases call with
    | eintr => exact Or.inr ⟨rfl, rfl⟩
    | error => exact absurd goesOn.1 (by decide : ¬ (0 : Int) ≤ -1)
    | count n =>
      refine Or.inl ?_
      simp only [readCall, CopyState.rest, List.length_drop] at goesOn ⊢
      omega

theorem copyLoop_ends {io : CopyOutcomes} {content : Bytes} (started : io.calls 0 ≠ .eintr ∨ content = [])
    (finite : ∃ bound, ∀ n, bound ≤ n → io.calls n ≠ .eintr) (writesSome : WritesSome io content) {n : Nat} {s : CopyState} (running : copyLoop io.calls (.start content) n = .running s) :
    ∃ m s', copyLoop io.calls (.start content) m = .left s' := by
  obtain ⟨bound, finite⟩ := finite
  -- every call that is not interrupted lowers `rest`, and every call uses up one of the first ones
  induction left : (bound - n) + s.rest using Nat.strong_induction_on generalizing n s with
  | _ k ih =>
    subst left
    have copies := copies_copyLoop started n
    rw [running] at copies
    by_cases goesOn : (copyStep (io.calls n) s).writes || (copyStep (io.calls n) s).repeats
    · have next : copyLoop io.calls (.start content) (n + 1) = .running (copyStep (io.calls n) s) := by
        simp only [copyLoop, running, if_pos goesOn]
      have less := rest_copyStep copies.1 (goesOn_iff.mp goesOn) (writesSome n s running)
      have early : io.calls n = .eintr → n < bound := by
        intro interrupted
        by_contra late
        exact finite n (by omega) interrupted
      refine ih _ ?_ next rfl
      cases less with
      | inl less => omega
      | inr same => have inBound := early same.1; omega
    · exact ⟨n + 1, copyStep (io.calls n) s, by simp only [copyLoop, running, if_neg goesOn]⟩

/-! ## The answer -/

theorem copiesTruly_of_fails {io : CopyOutcomes} {source : Bytes} {destination : Option Bytes}
    (fails : ∀ n, copyFile io source destination n = some (false, destination)) : CopiesTruly io source destination := by
  constructor
  · intro n copy returned
    rw [fails] at returned
    cases returned
  · exact fun _ _ => ⟨0, _, fails 0⟩

theorem copyFile_opened {io : CopyOutcomes} (opensSource : io.opensSource = true) (opensDest : io.opensDest = true)
    (source : Bytes) (destination : Option Bytes) (n : Nat) : copyFile io source destination n =
      match copyLoop io.calls (.start source) n with
      | .running _ => none
      | .left s => some (decide (0 ≤ s.result), some s.destination) := by
  rw [copyFile, opensSource, opensDest, if_neg (by decide), if_neg (by decide)]

theorem copiesTruly_of_started {io : CopyOutcomes} (opensSource : io.opensSource = true)
    (opensDest : io.opensDest = true) {source : Bytes} (started : io.calls 0 ≠ .eintr ∨ source = [])
    (destination : Option Bytes) : CopiesTruly io source destination := by
  constructor
  · intro n copy returned
    have copies := copies_copyLoop started n
    rw [copyFile_opened opensSource opensDest] at returned
    split at returned
    case h_1 => cases returned
    case h_2 s after =>
      rw [after] at copies
      obtain ⟨good, same⟩ := Prod.mk.inj (Option.some.inj returned)
      rw [← same, copies (of_decide_eq_true good)]
  · intro finite writesSome
    obtain ⟨n, s, after⟩ := copyLoop_ends started finite writesSome (n := 0) rfl
    exact ⟨n, _, by rw [copyFile_opened opensSource opensDest, after]⟩

/-- `copyFile` tells the truth unless both files are opened, the very first `read` is
interrupted and there was something to read. -/
theorem copiesTruly_iff (io : CopyOutcomes) (source : Bytes) (destination : Option Bytes) :
    CopiesTruly io source destination ↔
      ¬ (io.opensSource = true ∧ io.opensDest = true ∧ io.calls 0 = .eintr ∧ source ≠ []) := by
  constructor
  · rintro ⟨complete, -⟩ ⟨opensSource, opensDest, interrupted, nonempty⟩
    -- `readCount` is still 0, as at the end of the file
    have returned : copyFile io source destination 1 = some (true, some []) := by
      simp only [copyFile_opened opensSource opensDest, copyLoop, interrupted]
      rfl
    have empty := complete 1 _ returned
    exact nonempty (Option.some.inj empty).symm
  · intro notFirst
    cases opensSource : io.opensSource with
    | false => exact copiesTruly_of_fails fun n => by rw [copyFile, if_pos opensSource]
    | true =>
      cases opensDest : io.opensDest with
      | false =>
        refine copiesTruly_of_fails fun n => ?_
        rw [copyFile, opensSource, if_neg (by decide), if_pos opensDest]
      | true =>
        refine copiesTruly_of_started opensSource opensDest ?_ destination
        by_cases empty : source = []
        · exact Or.inr empty
        · exact Or.inl fun interrupted => notFirst ⟨opensSource, opensDest, interrupted, empty⟩

/-- The first `read` of a file of one byte is interrupted. -/
theorem not_copiesTruly : ¬ ∀ (io : CopyOutcomes) (source : Bytes) (destination : Option Bytes),
    CopiesTruly io source destination := by
  intro all
  let io : CopyOutcomes := ⟨true, true, fun n => if n = 0 then .eintr else .count 4096⟩
  have returned : copyFile io [7] none 1 = some (true, some []) := by rfl
  have complete := (all io [7] none).complete 1 _ returned
  cases complete

/-! ## When every call succeeds -/

/-- No call fails, and each passes one byte at least. -/
def Faultless (io : CopyOutcomes) : Prop :=
  io.opensSource = true ∧ io.opensDest = true ∧ ∀ n, ∃ k, io.calls n = .count (k + 1)

theorem result_copyStep (n : Nat) (s : CopyState) : 0 ≤ (copyStep (.count n) s).result := by
  rw [copyStep]
  split
  · exact Int.natCast_nonneg _
  · exact Int.natCast_nonneg _

theorem result_of_faultless {io : CopyOutcomes} (faultless : Faultless io) {start s : CopyState} {n : Nat}
    (left : copyLoop io.calls start n = .left s) : 0 ≤ s.result := by
  induction n generalizing s with
  | zero => cases left
  | succ n ih =>
    obtain ⟨k, call⟩ := faultless.2.2 n
    rw [copyLoop] at left
    split at left
    case h_1 s' running =>
      simp only at left
      split at left
      case isTrue => cases left
      case isFalse =>
        cases left
        rw [call]
        exact result_copyStep _ s'
    case h_2 s' already =>
      cases left
      exact ih already

/-- Then the function is the `copyFile` that `compressFile` is modelled with. -/
theorem copyFile_faultless {io : CopyOutcomes} (faultless : Faultless io) {files : Files}
    {sourcePath destPath content : Bytes} (here : files sourcePath = some content) :
    ∃ n copy, copyFile io content (files destPath) n = some (true, copy) ∧
      CtrlCenter.copyFile files sourcePath destPath = (true, files.write destPath copy) := by
  have calls (n : Nat) : io.calls n ≠ .eintr := by
    obtain ⟨k, call⟩ := faultless.2.2 n
    rw [call]
    exact CallResult.noConfusion
  have writesSome : WritesSome io content := by
    intro n s _ _ zero
    obtain ⟨k, call⟩ := faultless.2.2 n
    rw [call] at zero
    cases zero
  have started : io.calls 0 ≠ .eintr ∨ content = [] := Or.inl (calls 0)
  obtain ⟨n, s, left⟩ := copyLoop_ends started ⟨0, fun n _ => calls n⟩ writesSome (n := 0) rfl
  have good := result_of_faultless faultless left
  have copies := copies_copyLoop started n
  rw [left] at copies
  refine ⟨n, some s.destination, ?_, ?_⟩
  · rw [copyFile_opened faultless.1 faultless.2.1, left]
    simp only [decide_eq_true good]
  · rw [CtrlCenter.copyFile, here, copies good]

end BackupSuite.CtrlCenter.Posix
