import Mathlib.Algebra.Order.Ring.Nat

/-! # Little-endian numbers

The low bytes of a number, the lowest first, and the number that such bytes stand for.
Reading gives back what was written up to a power of 256 (`ofLittleEndian_littleEndian`),
so that a number that fits comes back as it was.
-/

namespace BackupSuite.Library

def littleEndian : (width n : Nat) → List UInt8
  | 0, _ => []
  | width + 1, n => (n % 256).toUInt8 :: littleEndian width (n / 256)

def ofLittleEndian (bytes : List UInt8) : Nat := bytes.foldr (fun b n => b.toNat + 256 * n) 0

@[simp] theorem length_littleEndian (width n : Nat) : (littleEndian width n).length = width := by
  induction width generalizing n with
  | zero => rfl
  | succ width ih => rw [littleEndian, List.length_cons, ih]

theorem ofLittleEndian_littleEndian (width n : Nat) : ofLittleEndian (littleEndian width n) = n % 256 ^ width := by
  induction width generalizing n with
  | zero => simp [littleEndian, ofLittleEndian, Nat.mod_one]
  | succ width ih =>
    have low : (n % 256).toUInt8.toNat = n % 256 := by
      rw [Nat.toUInt8_eq, UInt8.toNat_ofNat']
      omega
    rw [littleEndian, ofLittleEndian, List.foldr_cons, ← ofLittleEndian, ih, low, Nat.pow_succ', Nat.mod_mul]

theorem ofLittleEndian_of_lt {width n : Nat} (fits : n < 256 ^ width) :
    ofLittleEndian (littleEndian width n) = n := by
  rw [ofLittleEndian_littleEndian, Nat.mod_eq_of_lt fits]

/-- Reading takes the bytes of a number from in front of the rest. -/
theorem ofLittleEndian_take {width n : Nat} (fits : n < 256 ^ width) (rest : List UInt8) :
    ofLittleEndian ((littleEndian width n ++ rest).take width) = n := by
  rw [List.take_left' (length_littleEndian width n), ofLittleEndian_of_lt fits]

theorem drop_littleEndian (width n : Nat) (rest : List UInt8) : (littleEndian width n ++ rest).drop width = rest :=
  List.drop_left' (length_littleEndian width n)

end BackupSuite.Library
