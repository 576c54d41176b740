import Mathlib.Algebra.GroupWithZero.Nat
import BackupSuite.CtrlCenter.DatabaseFile

/-! # The read loop of `readFileHashes`

The loop goes on until `fread` has delivered as many bytes as `ftell` had announced, and does
not look at the end of the file or at an error: calls that deliver nothing leave everything as
it was.
-/

namespace BackupSuite.CtrlCenter

/-- The results of the first calls of `fread`. -/
def firstReads (freads : Nat → Nat) (n : Nat) : List Nat := (List.range n).map freads

/-- If the buffer is allocated the loop ends, and then `parseBuffer` is called on no more bytes
than were read. -/
structure ReadingEnds (ftell : Int) (freads : Nat → Nat) : Prop where
  terminates : allocates (toInt ftell) = true →
    ∃ n alreadyReadBytes, readLoop (toInt ftell) (firstReads freads n) 0 = .ok alreadyReadBytes
  onRead : ∀ n alreadyReadBytes, readLoop (toInt ftell) (firstReads freads n) 0 = .ok alreadyReadBytes →
    toInt ftell ≤ alreadyReadBytes

/-- The loop ends once the calls have delivered enough, and has read what it wanted. -/
theorem readLoop_eq (fileSize : Int) (freads : List Nat) (start : Int) : readLoop fileSize freads start =
    if fileSize ≤ start + freads.sum then .ok (max start fileSize) else .error .hangs := by
  induction freads generalizing start with
  | nil =>
    rw [List.sum_nil, readLoop]
    split
    case isTrue more => rw [if_neg (by omega)]
    case isFalse => rw [if_pos (by omega), show max start fileSize = start by omega]
  | cons fread freads ih =>
    rw [List.sum_cons, readLoop]
    split
    case isTrue more =>
      -- a call that could deliver more than is missing ends the loop
      rw [ih]
      split
      case isTrue => rw [if_pos (by omega), show max (start + _) fileSize = max start fileSize by omega]
      case isFalse => rw [if_neg (by omega)]
    case isFalse => rw [if_pos (by omega), show max start fileSize = start by omega]

theorem readLoop_ok_iff {fileSize : Int} {freads : List Nat} :
    (∃ read, readLoop fileSize freads 0 = .ok read) ↔ fileSize ≤ freads.sum := by
  rw [readLoop_eq, Int.zero_add]
  split
  case isTrue enough => exact iff_of_true ⟨_, rfl⟩ enough
  case isFalse few =>
    refine iff_of_false ?_ few
    rintro ⟨read, ended⟩
    cases ended

/-- The process hangs in the loop when the calls do not deliver as many bytes as expected. -/
theorem readBuffer_hangs (u : Bytes) {io : ReadOutcomes} (content : Bytes) {fileSize : Int}
    (allocated : allocates fileSize = true) (few : (io.freads.sum : Int) < fileSize) :
    readBuffer u io content fileSize = .error .hangs := by
  rw [readBuffer, if_pos allocated, readLoop_eq, if_neg (by omega)]
  rfl

/-- The loop ends exactly when the calls deliver, all together, the size that `ftell` returned
as far as it fits an `int`. -/
theorem readingEnds_iff (ftell : Int) (freads : Nat → Nat) : ReadingEnds ftell freads ↔
    (allocates (toInt ftell) = true → ∃ n, toInt ftell ≤ (firstReads freads n).sum) := by
  constructor
  · rintro ⟨terminates, -⟩ allocated
    obtain ⟨n, read, ended⟩ := terminates allocated
    exact ⟨n, readLoop_ok_iff.mp ⟨read, ended⟩⟩
  · intro enough
    refine ⟨fun allocated => ?_, fun n read ended => ?_⟩
    · obtain ⟨n, delivered⟩ := enough allocated
      exact ⟨n, readLoop_ok_iff.mpr delivered⟩
    · rw [readLoop_ok ended]
      omega

/-- A file that is empty by the time it is read. -/
theorem not_readingEnds : ¬ ∀ (ftell : Int) (freads : Nat → Nat), ReadingEnds ftell freads := by
  intro all
  obtain ⟨n, read, ended⟩ := (all 1 fun _ => 0).terminates (by decide)
  have enough := readLoop_ok_iff.mp ⟨read, ended⟩
  have nothing : (firstReads (fun _ => 0) n).sum = 0 := by simp [firstReads]
  rw [nothing] at enough
  exact absurd enough (by decide)

end BackupSuite.CtrlCenter
