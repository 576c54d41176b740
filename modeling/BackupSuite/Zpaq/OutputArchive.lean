import Mathlib.Data.List.Induction
import BackupSuite.Library.SparseFile
import BackupSuite.CtrlCenter.ParseBuffer

/-! # Writing an archive through a buffer

An `OutputArchive` without a password, and what of the bytes that are put into it is in the
file at any time: a front part of them, which is empty or as long as the buffer at least
(`write_spec`).  A process that is killed loses the rest.
-/

namespace BackupSuite.Zpaq

open BackupSuite.Library BackupSuite.CtrlCenter

structure OutputArchive where
  disk : Bytes
  position : Nat
  buf : Bytes
deriving DecidableEq, Repr

def BUFSIZE : Nat := 65536

namespace OutputArchive

variable (o : OutputArchive)

/-- Write pending output. -/
def flush : OutputArchive := ⟨writeAt 0 o.disk o.position o.buf, o.position + o.buf.length, []⟩

def seekSet (p : Nat) : OutputArchive := { o.flush with position := p }

def seekEnd : OutputArchive := { o.flush with position := o.flush.disk.length }

def tell : Nat := o.position + o.buf.length

def put (c : UInt8) : OutputArchive :=
  let o := if BUFSIZE ≤ o.buf.length then o.flush else o
  { o with buf := o.buf ++ [c] }

def write (bytes : Bytes) : OutputArchive := bytes.foldl put o

/-- Opens an existing file, or a new one. -/
def openArchive (disk : Bytes) : OutputArchive := seekEnd ⟨disk, 0, []⟩

/-! ## What is in the file -/

/-- The bytes are in the file up to a place, and wait in the buffer from there. -/
structure Writing (disk : Bytes) (start : Nat) (bytes : Bytes) (o : OutputArchive) (k : Nat) : Prop where
  inside : k ≤ bytes.length
  disk : o.disk = writeAt 0 disk start (bytes.take k)
  position : o.position = start + k
  buf : o.buf = bytes.drop k
  full : k = 0 ∨ BUFSIZE ≤ k

variable {o} {disk bytes : Bytes} {start k : Nat}

theorem Writing.flush (writing : Writing disk start bytes o k) (room : start ≤ disk.length) :
    o.flush = ⟨writeAt 0 disk start bytes, start + bytes.length, []⟩ := by
  have inside := writing.inside
  have joined := writeAt_append 0 room (bytes.take k) (bytes.drop k)
  rw [List.length_take, Nat.min_eq_left inside, List.take_append_drop] at joined
  have ends : start + k + (bytes.drop k).length = start + bytes.length := by
    rw [List.length_drop]
    omega
  rw [OutputArchive.flush, writing.disk, writing.position, writing.buf, joined, ends]

theorem Writing.tell (writing : Writing disk start bytes o k) : o.tell = start + bytes.length := by
  have inside := writing.inside
  rw [OutputArchive.tell, writing.position, writing.buf, List.length_drop]
  omega

theorem Writing.put (writing : Writing disk start bytes o k) (room : start ≤ disk.length) (c : UInt8) :
    ∃ k', Writing disk start (bytes ++ [c]) (o.put c) k' := by
  have inside := writing.inside
  rw [OutputArchive.put]
  split
  next full =>
    rw [writing.flush room]
    rw [writing.buf, List.length_drop] at full
    refine ⟨bytes.length, by simp, ?_, rfl, ?_, Or.inr (by omega)⟩
    · rw [List.take_left]
    · rw [List.drop_left, List.nil_append]
  next some =>
    refine ⟨k, by rw [List.length_append]; omega, ?_, writing.position, ?_, writing.full⟩
    · rw [List.take_append_of_le_length inside]
      exact writing.disk
    · rw [List.drop_append_of_le_length inside]
      simp only [writing.buf]

/-- The induction is on the bytes, the last one last. -/
theorem write_spec (room : start ≤ disk.length) (bytes : Bytes) :
    ∃ k, Writing disk start bytes (write ⟨disk, start, []⟩ bytes) k := by
  induction bytes using List.reverseRecOn with
  | nil => exact ⟨0, le_rfl, rfl, rfl, rfl, Or.inl rfl⟩
  | append_singleton bytes c ih =>
    obtain ⟨k, writing⟩ := ih
    rw [write, List.foldl_append, List.foldl_cons, List.foldl_nil]
    exact writing.put room c

end OutputArchive

end BackupSuite.Zpaq
