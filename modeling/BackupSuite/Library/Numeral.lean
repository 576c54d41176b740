import Mathlib.Data.List.Induction
import Mathlib.Algebra.Order.Ring.Nat

/-! # Numerals of a fixed width

The last digits of a number in a base, most significant digit first, and the loop that
writes them into a text from the last one to the first.  Two numerals agree exactly
when the numbers do modulo a power of the base (`numeral_inj`), and cutting digits off
the front of a numeral makes it narrower (`drop_numeral`).
-/

namespace BackupSuite.Library

variable {α : Type*} (base : Nat) (digit : Nat → α)

/-- The last `width` digits of `n`. -/
def numeral : Nat → Nat → List α
  | 0, _ => []
  | width + 1, n => numeral width (n / base) ++ [digit (n % base)]

/-- Writes `width` digits of `n` over the text from `position` on, the last one first. -/
def putNumeral (position : Nat) : Nat → Nat → List α → List α
  | 0, _, s => s
  | width + 1, n, s => putNumeral position width (n / base) (s.set (position + width) (digit (n % base)))

variable {base digit}

@[simp] theorem length_numeral (width n : Nat) : (numeral base digit width n).length = width := by
  induction width generalizing n with
  | zero => rfl
  | succ width ih => simp [numeral, ih]

theorem mem_numeral (pos : 0 < base) {width n : Nat} {a : α} (mem : a ∈ numeral base digit width n) :
    ∃ k < base, a = digit k := by
  induction width generalizing n with
  | zero => cases mem
  | succ width ih =>
    rw [numeral, List.mem_append, List.mem_singleton] at mem
    rcases mem with front | rfl
    · exact ih front
    · exact ⟨n % base, Nat.mod_lt n pos, rfl⟩

theorem drop_numeral (width k n : Nat) :
    (numeral base digit width n).drop k = numeral base digit (width - k) n := by
  induction width generalizing n with
  | zero => simp [numeral]
  | succ width ih =>
    rcases Nat.lt_or_ge width k with all | some
    · have narrow : width + 1 - k = 0 := by omega
      rw [narrow, numeral]
      exact List.drop_eq_nil_of_le (by rw [length_numeral]; omega)
    · have narrow : width + 1 - k = (width - k) + 1 := by omega
      rw [narrow, numeral, numeral, List.drop_append_of_le_length (by rw [length_numeral]; exact some), ih]

theorem numeral_add (width width' n : Nat) :
    numeral base digit (width + width') n =
      numeral base digit width (n / base ^ width') ++ numeral base digit width' n := by
  induction width' generalizing n with
  | zero => simp [numeral]
  | succ width' ih =>
    rw [← Nat.add_assoc, numeral, ih, numeral, List.append_assoc, Nat.div_div_eq_div_mul, Nat.pow_succ']

theorem numeral_inj (inj : ∀ a < base, ∀ b < base, digit a = digit b → a = b) (pos : 0 < base)
    {width m n : Nat} :
    numeral base digit width m = numeral base digit width n ↔ m % base ^ width = n % base ^ width := by
  induction width generalizing m n with
  | zero => simp [numeral, Nat.mod_one]
  | succ width ih =>
    have last : digit (m % base) = digit (n % base) ↔ m % base = n % base :=
      ⟨inj _ (Nat.mod_lt m pos) _ (Nat.mod_lt n pos), congrArg digit⟩
    rw [numeral, numeral, List.append_singleton_inj, ih, last, Nat.pow_succ', Nat.mod_mul, Nat.mod_mul]
    constructor
    · rintro ⟨front, last⟩
      rw [front, last]
    · intro same
      -- the last digit is what is left modulo the base
      have lasts := congrArg (· % base) same
      simp only [Nat.add_mul_mod_self_left, Nat.mod_mod] at lasts
      rw [lasts] at same
      exact ⟨Nat.eq_of_mul_eq_mul_left pos (Nat.add_left_cancel same), lasts⟩

/-- What stands in front of the digits and behind them stays. -/
theorem putNumeral_eq {position width : Nat} {front old : List α} (front_length : front.length = position)
    (old_length : old.length = width) (back : List α) (n : Nat) :
    putNumeral base digit position width n (front ++ old ++ back) =
      front ++ numeral base digit width n ++ back := by
  subst front_length old_length
  induction old using List.reverseRecOn generalizing back n with
  | nil => rfl
  | append_singleton old last ih =>
    have written : (front ++ (old ++ [last]) ++ back).set (front.length + old.length) (digit (n % base)) =
        front ++ old ++ digit (n % base) :: back := by
      rw [← List.length_append, ← List.append_assoc, List.append_assoc, List.set_append_right _ _ le_rfl,
        Nat.sub_self]
      rfl
    rw [List.length_append, List.length_singleton, putNumeral, written, ih, numeral]
    simp

end BackupSuite.Library
