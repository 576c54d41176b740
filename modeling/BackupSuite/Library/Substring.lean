import Mathlib.Data.List.Basic
import Mathlib.Data.List.Infix

/-! # Occurrences of a sublist and their removal

`find pat s` is the position of the first occurrence of `pat` in `s`,
`eraseFirst pat s` cuts that occurrence out (or leaves `s` alone), and `eraseAll pat s`
cuts out all that are found from the left.
-/

namespace BackupSuite.Library

variable {α : Type*} [DecidableEq α]

/-- The position of the first occurrence of `pat`. -/
def find (pat : List α) : List α → Option Nat
  | [] => if pat = [] then some 0 else none
  | a :: s => if pat <+: a :: s then some 0 else (find pat s).map (· + 1)

/-- `s` without the `count` elements from `pos` on. -/
def erase (s : List α) (pos count : Nat) : List α := s.take pos ++ s.drop (pos + count)

/-- `s` without the first occurrence of `pat`. -/
def eraseFirst (pat s : List α) : List α :=
  match find pat s with
  | some pos => erase s pos pat.length
  | none => s

theorem find_of_prefixed {pat s : List α} (h : pat <+: s) : find pat s = some 0 := by
  cases s with
  | nil => rw [List.prefix_nil.mp h]; rfl
  | cons a s => rw [find, if_pos h]

@[simp] theorem find_append (pat s : List α) : find pat (pat ++ s) = some 0 :=
  find_of_prefixed (List.prefix_append pat s)

@[simp] theorem eraseFirst_append (pat s : List α) : eraseFirst pat (pat ++ s) = s := by
  simp [eraseFirst, erase]

/-! ## Text behind the last occurrence -/

omit [DecidableEq α] in
/-- A pattern whose last letter does not occur in `t` does not reach into it. -/
theorem prefixed_append_iff {pat s t : List α} {c : α} (last : pat.getLast? = some c) (notIn : c ∉ t) :
    pat <+: s ++ t ↔ pat <+: s := by
  refine ⟨fun isFront => ?_, fun isFront => isFront.trans (List.prefix_append s t)⟩
  cases Nat.le_total pat.length s.length with
  | inl short => exact List.prefix_of_prefix_length_le isFront (List.prefix_append s t) short
  | inr long =>
    obtain ⟨rest, rfl⟩ := List.prefix_of_prefix_length_le (List.prefix_append s t) isFront long
    cases rest with
    | nil => simp
    | cons b rest =>
      -- the pattern goes on behind `s`, so its last letter lies in `t`
      have inT := (List.prefix_append_right_inj s).mp isFront
      rw [List.getLast?_append_of_ne_nil _ (by simp)] at last
      exact absurd (inT.subset (List.mem_of_getLast? last)) notIn

theorem find_append_of_not_mem {pat t : List α} {c : α} (last : pat.getLast? = some c) (notIn : c ∉ t)
    (s : List α) : find pat (s ++ t) = find pat s := by
  have nonempty : pat ≠ [] := by
    rintro rfl
    cases last
  induction s with
  | nil =>
    rw [List.nil_append, find, if_neg nonempty]
    induction t with
    | nil => rw [find, if_neg nonempty]
    | cons b t ih =>
      have noFront : ¬ pat <+: b :: t := by
        intro isFront
        exact notIn (isFront.subset (List.mem_of_getLast? last))
      rw [find, if_neg noFront, ih fun mem => notIn (List.mem_cons_of_mem _ mem)]
      rfl
  | cons a s ih =>
    have fronts := @prefixed_append_iff α pat (a :: s) t c last notIn
    rw [List.cons_append] at fronts ⊢
    rw [find, find, ih]
    simp only [fronts]

theorem length_le_of_find {pat s : List α} {pos : Nat} (h : find pat s = some pos) :
    pos + pat.length ≤ s.length := by
  induction s generalizing pos with
  | nil =>
    rw [find] at h
    split at h
    · cases h
      simp_all
    · cases h
  | cons a s ih =>
    rw [find] at h
    split at h
    case isTrue isFront =>
      cases h
      simpa using isFront.length_le
    case isFalse =>
      obtain ⟨before, found, rfl⟩ := Option.map_eq_some_iff.mp h
      have := ih found
      rw [List.length_cons]
      omega

theorem eraseFirst_append_of_not_mem {pat t : List α} {c : α} (last : pat.getLast? = some c)
    (notIn : c ∉ t) (s : List α) : eraseFirst pat (s ++ t) = eraseFirst pat s ++ t := by
  rw [eraseFirst, eraseFirst, find_append_of_not_mem last notIn]
  cases found : find pat s with
  | none => rfl
  | some pos =>
    have bound := length_le_of_find found
    simp only [erase]
    rw [List.take_append_of_le_length (by omega), List.drop_append_of_le_length bound,
      List.append_assoc]

/-! ## All occurrences -/

/-- `s` without the occurrences of `pat`; the next `skip` elements are the rest of one. -/
def eraseAllFrom (pat : List α) : Nat → List α → List α
  | _, [] => []
  | skip + 1, _ :: s => eraseAllFrom pat skip s
  | 0, a :: s =>
    if pat ≠ [] ∧ pat <+: a :: s then eraseAllFrom pat (pat.length - 1) s
    else a :: eraseAllFrom pat 0 s

/-- `s` without the occurrences of `pat`. -/
def eraseAll (pat s : List α) : List α := eraseAllFrom pat 0 s

theorem eraseAllFrom_skip (pat p s : List α) : eraseAllFrom pat p.length (p ++ s) = eraseAll pat s := by
  induction p with
  | nil => rfl
  | cons a p ih => exact ih

theorem eraseAll_append (a : α) (p s : List α) : eraseAll (a :: p) (a :: p ++ s) = eraseAll (a :: p) s := by
  have isFront : a :: p <+: a :: (p ++ s) := List.prefix_append (a :: p) s
  rw [eraseAll, List.cons_append, eraseAllFrom, if_pos ⟨List.cons_ne_nil a p, isFront⟩]
  exact eraseAllFrom_skip (a :: p) p s

/-- In front of the first letter of the pattern nothing is cut out. -/
theorem eraseAll_append_of_head {a : α} {s : List α} (notIn : a ∉ s) (p t : List α) :
    eraseAll (a :: p) (s ++ t) = s ++ eraseAll (a :: p) t := by
  induction s with
  | nil => rfl
  | cons b s ih =>
    rw [List.mem_cons, not_or] at notIn
    have noFront : ¬ (a :: p ≠ [] ∧ a :: p <+: b :: (s ++ t)) := by
      intro found
      exact notIn.1 (List.cons_prefix_cons.mp found.2).1
    rw [eraseAll, List.cons_append, eraseAllFrom, if_neg noFront]
    exact congrArg (b :: ·) (ih notIn.2)

theorem eraseAll_of_not_mem {pat : List α} {c : α} (inside : c ∈ pat) {s : List α} (notIn : c ∉ s) :
    eraseAll pat s = s := by
  induction s with
  | nil => rfl
  | cons b s ih =>
    have noFront : ¬ (pat ≠ [] ∧ pat <+: b :: s) := fun found => notIn (found.2.subset inside)
    rw [eraseAll, eraseAllFrom, if_neg noFront]
    exact congrArg (b :: ·) (ih fun mem => notIn (List.mem_cons_of_mem _ mem))

/-- A text with a letter that is nowhere in front of it is the first occurrence of itself. -/
theorem eraseAll_append_of_mem {c : α} {pat : List α} (inside : c ∈ pat) {s : List α} (notIn : c ∉ s)
    (t : List α) : eraseAll pat (s ++ (pat ++ t)) = s ++ eraseAll pat t := by
  induction s with
  | nil =>
    cases pat with
    | nil => cases inside
    | cons a p => exact eraseAll_append a p t
  | cons b s ih =>
    have noFront : ¬ (pat ≠ [] ∧ pat <+: b :: (s ++ (pat ++ t))) := by
      rintro ⟨-, rest, split⟩
      -- the first `c` would be in two places
      have positions := congrArg (List.idxOf c) split
      rw [List.idxOf_append_of_mem inside, ← List.cons_append, List.idxOf_append_of_notMem notIn,
        List.idxOf_append_of_mem inside, List.length_cons] at positions
      omega
    rw [List.mem_cons, not_or] at notIn
    rw [eraseAll, List.cons_append, eraseAllFrom, if_neg noFront]
    exact congrArg (b :: ·) (ih notIn.2)

theorem eraseAllFrom_sublist (pat : List α) (skip : Nat) (s : List α) : (eraseAllFrom pat skip s).Sublist s := by
  induction s generalizing skip with
  | nil => cases skip <;> exact .refl _
  | cons b s ih =>
    cases skip with
    | succ skip => exact (ih skip).cons b
    | zero =>
      rw [eraseAllFrom]
      split
      case isTrue => exact (ih _).cons b
      case isFalse => exact (ih 0).cons_cons b

/-- A text is left as it is exactly if the pattern does not occur in it. -/
theorem eraseAll_eq_self_iff {pat : List α} (nonempty : pat ≠ []) {s : List α} :
    eraseAll pat s = s ↔ ¬ pat <:+: s := by
  induction s with
  | nil => simp [eraseAll, eraseAllFrom, nonempty]
  | cons b s ih =>
    rw [List.infix_cons_iff, not_or, eraseAll, eraseAllFrom]
    split
    case isTrue found =>
      -- at least one letter is gone
      have shorter := (eraseAllFrom_sublist pat (pat.length - 1) s).length_le
      constructor
      · intro same
        rw [same, List.length_cons] at shorter
        omega
      · rintro ⟨noFront, -⟩
        exact absurd found.2 noFront
    case isFalse noFront =>
      have noPrefix : ¬ pat <+: b :: s := fun front => noFront ⟨nonempty, front⟩
      rw [List.cons.injEq, ← eraseAll, ih]
      simp [noPrefix]

/-- A pattern that occurs leaves at least its own length less. -/
theorem length_eraseAll_of_infix {pat s : List α} (found : pat <:+: s) :
    (eraseAll pat s).length + pat.length ≤ s.length := by
  cases pat with
  | nil => exact (eraseAllFrom_sublist [] 0 s).length_le
  | cons a p =>
    induction s with
    | nil => cases List.infix_nil.mp found
    | cons b s ih =>
      by_cases front : a :: p <+: b :: s
      · obtain ⟨rest, split⟩ := front
        rw [← split, eraseAll_append, List.length_append, Nat.add_comm]
        exact Nat.add_le_add_left (eraseAllFrom_sublist _ _ _).length_le _
      · have inside := (List.infix_cons_iff.mp found).resolve_left front
        have kept : eraseAll (a :: p) (b :: s) = b :: eraseAll (a :: p) s := by
          rw [eraseAll, eraseAllFrom, if_neg fun both => front both.2, ← eraseAll]
        rw [kept, @List.length_cons _ b, @List.length_cons _ b, Nat.add_right_comm]
        exact Nat.add_le_add_right (ih inside) 1

/-- Behind the last letter of the pattern nothing is cut out. -/
theorem eraseAllFrom_append_of_last {pat t : List α} {c : α} (last : pat.getLast? = some c) (notIn : c ∉ t)
    {s : List α} {skip : Nat} (inside : skip ≤ s.length) :
    eraseAllFrom pat skip (s ++ t) = eraseAllFrom pat skip s ++ t := by
  induction s generalizing skip with
  | nil =>
    cases Nat.le_zero.mp inside
    exact eraseAll_of_not_mem (List.mem_of_getLast? last) notIn
  | cons b s ih =>
    cases skip with
    | succ skip => exact ih (Nat.le_of_succ_le_succ inside)
    | zero =>
      have fronts := @prefixed_append_iff α pat (b :: s) t c last notIn
      rw [List.cons_append] at fronts ⊢
      rw [eraseAllFrom, eraseAllFrom]
      simp only [fronts]
      split
      case isTrue found =>
        have bound := found.2.length_le
        rw [List.length_cons] at bound
        exact ih (by omega)
      case isFalse => rw [ih (Nat.zero_le _), List.cons_append]

/-! ## Occurrences around a separator -/

section

omit [DecidableEq α]

theorem isEnd_append_iff {c : α} {a : List α} (notIn : c ∉ a) (p r : List α) :
    c :: p <:+ a ++ c :: r ↔ p = r ∨ c :: p <:+ r := by
  induction a with
  | nil => simp [List.suffix_cons_iff]
  | cons b a ih =>
    rw [List.mem_cons, not_or] at notIn
    rw [List.cons_append, List.suffix_cons_iff, ih notIn.2]
    constructor
    · rintro (whole | behind)
      · exact absurd (List.cons.inj whole).1 notIn.1
      · exact behind
    · exact Or.inr

theorem isIn_append_iff {c : α} {v : List α} (notIn : c ∉ v) (a r : List α) :
    v <:+: a ++ c :: r ↔ v <:+: a ∨ v <:+: r := by
  constructor
  · rintro ⟨before, behind, split⟩
    rw [List.append_assoc, List.append_eq_append_iff] at split
    obtain ⟨as, rfl, split⟩ | ⟨bs, rfl, split⟩ := split
    · -- starts in `a`
      rw [List.append_eq_append_iff] at split
      obtain ⟨cs, rfl, -⟩ | ⟨cs, rfl, split⟩ := split
      · exact Or.inl ⟨before, cs, by simp⟩
      · cases cs with
        | nil => exact Or.inl ⟨before, [], by simp⟩
        | cons d cs =>
          cases (List.cons.inj split).1
          exact absurd (by simp) notIn
    · cases bs with
      | nil =>
        cases v with
        | nil => exact Or.inl (List.nil_infix)
        | cons d v =>
          cases (List.cons.inj split).1
          exact absurd (by simp) notIn
      | cons d bs =>
        obtain ⟨-, rfl⟩ := List.cons.inj split
        exact Or.inr ⟨bs, behind, by simp⟩
  · rintro (before | behind)
    · exact before.trans (List.prefix_append a (c :: r)).isInfix
    · exact behind.trans ((List.suffix_cons c r).trans (List.suffix_append a (c :: r))).isInfix

end

end BackupSuite.Library
