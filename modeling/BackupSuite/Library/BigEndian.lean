import Mathlib.Data.List.Basic
import Mathlib.Tactic.Ring

/-! # Big-endian numbers

The number that bytes stand for, the highest first, and the first bytes of a stream as a
number, which is how a decoder sees what is to come (`window`).
-/

namespace BackupSuite.Library

def ofBigEndian (bytes : List UInt8) : Nat := bytes.foldl (fun n b => n * 256 + b.toNat) 0

def bigEndian : (width n : Nat) → List UInt8
  | 0, _ => []
  | width + 1, n => (n / 256 ^ width).toUInt8 :: bigEndian width n

/-- The first four bytes. -/
def window (s : List UInt8) : Nat := ofBigEndian (s.take 4)

@[simp] theorem length_bigEndian (width n : Nat) : (bigEndian width n).length = width := by
  induction width with
  | zero => rfl
  | succ width ih => rw [bigEndian, List.length_cons, ih]

theorem ofBigEndian_foldl (n : Nat) (bytes : List UInt8) :
    bytes.foldl (fun n b => n * 256 + b.toNat) n = n * 256 ^ bytes.length + ofBigEndian bytes := by
  induction bytes generalizing n with
  | nil => simp [ofBigEndian]
  | cons b bytes ih =>
    rw [ofBigEndian, List.foldl_cons, List.foldl_cons, ih, ih (0 * 256 + b.toNat), List.length_cons]
    ring

theorem ofBigEndian_cons (b : UInt8) (bytes : List UInt8) :
    ofBigEndian (b :: bytes) = b.toNat * 256 ^ bytes.length + ofBigEndian bytes := by
  rw [ofBigEndian, List.foldl_cons, ofBigEndian_foldl]
  simp

theorem ofBigEndian_append (front back : List UInt8) :
    ofBigEndian (front ++ back) = ofBigEndian front * 256 ^ back.length + ofBigEndian back := by
  rw [ofBigEndian, List.foldl_append, ofBigEndian_foldl]
  rfl

theorem ofBigEndian_lt (bytes : List UInt8) : ofBigEndian bytes < 256 ^ bytes.length := by
  induction bytes with
  | nil => simp [ofBigEndian]
  | cons b bytes ih =>
    have byte : b.toNat + 1 ≤ 256 := b.toNat_lt
    have room := Nat.mul_le_mul_right (256 ^ bytes.length) byte
    rw [ofBigEndian_cons, List.length_cons, Nat.pow_succ']
    rw [Nat.add_mul, Nat.one_mul] at room
    omega

theorem ofBigEndian_bigEndian (width n : Nat) : ofBigEndian (bigEndian width n) = n % 256 ^ width := by
  induction width with
  | zero => simp [bigEndian, ofBigEndian, Nat.mod_one]
  | succ width ih =>
    have high : (n / 256 ^ width).toUInt8.toNat = n / 256 ^ width % 256 := UInt8.toNat_ofNat'
    rw [bigEndian, ofBigEndian_cons, ih, high, length_bigEndian, Nat.pow_succ, Nat.mod_mul, Nat.add_comm,
      Nat.mul_comm]

/-! ## The window on a stream -/

theorem exists_four {s : List UInt8} (long : 4 ≤ s.length) : ∃ a b c d rest, s = a :: b :: c :: d :: rest :=
  match s, long with
  | a :: b :: c :: d :: rest, _ => ⟨a, b, c, d, rest, rfl⟩

theorem window_four (a b c d : UInt8) (rest : List UInt8) :
    window (a :: b :: c :: d :: rest) = ((a.toNat * 256 + b.toNat) * 256 + c.toNat) * 256 + d.toNat := by
  simp [window, ofBigEndian]

/-- The window moves on by one byte. -/
theorem window_cons (a : UInt8) {s : List UInt8} (long : 4 ≤ s.length) :
    window (a :: s) = a.toNat * 16777216 + window s / 256 ∧
      ∃ d, s.drop 3 = d :: s.drop 4 ∧ window s = window (a :: s) * 256 % 4294967296 + d.toNat := by
  obtain ⟨b, c, e, d, rest, rfl⟩ := exists_four long
  have first := b.toNat_lt
  have second := c.toNat_lt
  have third := e.toNat_lt
  have last := d.toNat_lt
  rw [window_four, window_four]
  exact ⟨by omega, d, rfl, by omega⟩

theorem window_bigEndian {n : Nat} (small : n < 4294967296) (rest : List UInt8) : window (bigEndian 4 n ++ rest) = n := by
  rw [window, List.take_left' (length_bigEndian 4 n), ofBigEndian_bigEndian]
  exact Nat.mod_eq_of_lt small

end BackupSuite.Library
