import BackupSuite.Zpaq.Journal

/-! # Archives in several parts

A `*` or a `?` in the name of an archive stands for the number of a part, so zpaq does not
write the file that it is given the name of.  Which part that is depends on what there is.
-/

namespace BackupSuite.Zpaq

open BackupSuite.CtrlCenter Journal

/-- The loop of `subpart`, which starts at the end of the name. -/
def replaceParts : Nat → Bytes → Bytes
  | _, [] => []
  | part, c :: fn =>
    if c = 63 then (48 + part % 10).toUInt8 :: replaceParts (part / 10) fn
    else if c = 42 then (itos part 1).reverse ++ replaceParts 0 fn
    else c :: replaceParts part fn

/-- The name with the part, or digits of it, in place of each `*` and `?`. -/
def subpart (fn : Bytes) (part : Nat) : Bytes := (replaceParts part fn.reverse).reverse

/-- There is nothing to replace. -/
def OnePart (fn : Bytes) : Prop := 42 ∉ fn ∧ 63 ∉ fn

instance (fn : Bytes) : Decidable (OnePart fn) := inferInstanceAs (Decidable (_ ∧ _))

theorem replaceParts_append {behind : Bytes} (onePart : OnePart behind) (part : Nat) (fn : Bytes) :
    replaceParts part (behind ++ fn) = behind ++ replaceParts part fn := by
  induction behind with
  | nil => rfl
  | cons c behind ih =>
    obtain ⟨star, mark⟩ := onePart
    rw [List.mem_cons, not_or] at star mark
    rw [List.cons_append, replaceParts, if_neg (Ne.symm mark.1), if_neg (Ne.symm star.1), ih ⟨star.2, mark.2⟩,
      List.cons_append]

/-- The end of the name stays. -/
theorem subpart_append (fn : Bytes) {behind : Bytes} (onePart : OnePart behind) (part : Nat) :
    subpart (fn ++ behind) part = subpart fn part ++ behind := by
  have reversed : OnePart behind.reverse := by rwa [OnePart, List.mem_reverse, List.mem_reverse]
  rw [subpart, List.reverse_append, replaceParts_append reversed, List.reverse_append, List.reverse_reverse, subpart]

theorem subpart_of_onePart {fn : Bytes} (onePart : OnePart fn) (part : Nat) : subpart fn part = fn :=
  subpart_append [] onePart part

end BackupSuite.Zpaq
