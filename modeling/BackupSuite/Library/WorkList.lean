import Mathlib.Data.List.Perm.Basic

/-! # Loops over a stack of work

`drain` takes the top off a stack, keeps what expanding it finds and puts its children
on the stack, until the stack is empty.  `Drains` is the same as a relation by the
structure of the work: `drain_eq_some_iff` says that the loop ends exactly when there is a
derivation, and with what.  `not_drains` is the rule for loops that never end.
-/

namespace BackupSuite.Library

variable {ν β : Type*} (expand : ν → List ν × List β)

/-- The top of the stack comes first; `fuel` bounds the number of turns. -/
def drain : Nat → List ν → List β → Option (List β)
  | 0, _, _ => none
  | _ + 1, [], found => some found
  | fuel + 1, node :: stack, found =>
    drain fuel ((expand node).1.reverse ++ stack) (found ++ (expand node).2)

/-- Working off the stack finds the list. -/
inductive Drains : List ν → List β → Prop
  | nil : Drains [] []
  | cons {node : ν} {stack : List ν} {below rest : List β}
      (children : Drains (expand node).1.reverse below) (others : Drains stack rest) :
      Drains (node :: stack) ((expand node).2 ++ below ++ rest)

variable {expand}

theorem Drains.append {stack stack' : List ν} {found found' : List β} (h : Drains expand stack found)
    (h' : Drains expand stack' found') : Drains expand (stack ++ stack') (found ++ found') := by
  induction h with
  | nil => exact h'
  | cons children _ _ ih =>
    rw [List.cons_append, List.append_assoc]
    exact .cons children ih

theorem Drains.of_append {stack stack' : List ν} {found : List β}
    (h : Drains expand (stack ++ stack') found) :
    ∃ upper lower, Drains expand stack upper ∧ Drains expand stack' lower ∧ found = upper ++ lower := by
  induction stack generalizing found with
  | nil => exact ⟨[], found, .nil, h, rfl⟩
  | cons node stack ih =>
    cases h with
    | cons children others =>
      obtain ⟨upper, lower, worked, left, rfl⟩ := ih others
      exact ⟨_, lower, .cons children worked, left, by simp⟩

theorem drain_cons (fuel : Nat) (node : ν) (stack : List ν) (found : List β) :
    drain expand (fuel + 1) (node :: stack) found =
      drain expand fuel ((expand node).1.reverse ++ stack) (found ++ (expand node).2) := rfl

theorem Drains.drain {stack : List ν} {part : List β} (h : Drains expand stack part) {fuel : Nat}
    {below : List ν} {found result : List β}
    (rest : drain expand fuel below (found ++ part) = some result) :
    ∃ more, drain expand more (stack ++ below) found = some result := by
  induction h generalizing fuel below found with
  | nil => exact ⟨fuel, by simpa using rest⟩
  | cons _ _ ihChildren ihOthers =>
    rw [← List.append_assoc, ← List.append_assoc] at rest
    obtain ⟨_, others⟩ := ihOthers rest
    obtain ⟨more, children⟩ := ihChildren others
    exact ⟨more + 1, by rwa [List.cons_append, drain_cons]⟩

/-- The loop ends exactly when the stack can be worked off, and finds what that finds. -/
theorem drain_eq_some_iff {stack : List ν} {found result : List β} :
    (∃ fuel, drain expand fuel stack found = some result) ↔
      ∃ part, Drains expand stack part ∧ result = found ++ part := by
  constructor
  · rintro ⟨fuel, ended⟩
    induction fuel generalizing stack found with
    | zero => cases ended
    | succ fuel ih =>
      cases stack with
      | nil =>
        cases ended
        exact ⟨[], .nil, (List.append_nil _).symm⟩
      | cons node stack =>
        obtain ⟨part, drains, rfl⟩ := ih ended
        obtain ⟨below, rest, children, others, rfl⟩ := drains.of_append
        exact ⟨_, .cons children others, by simp⟩
  · rintro ⟨part, drains, rfl⟩
    have ended : drain expand 1 [] (found ++ part) = some (found ++ part) := rfl
    simpa using drains.drain ended

/-- A stack with work on it that always leads to more of its kind is never worked off. -/
theorem not_drains {P : ν → Prop} (again : ∀ node, P node → ∃ child ∈ (expand node).1, P child)
    {stack : List ν} (some : ∃ node ∈ stack, P node) (found : List β) : ¬ Drains expand stack found := by
  intro drains
  induction drains with
  | nil => simp at some
  | cons children others ihChildren ihOthers =>
    obtain ⟨node, mem, holds⟩ := some
    cases List.mem_cons.mp mem with
    | inl top =>
      subst top
      obtain ⟨child, isChild, again⟩ := again node holds
      exact ihChildren ⟨child, List.mem_reverse.mpr isChild, again⟩
    | inr below => exact ihOthers ⟨node, below, holds⟩

theorem Drains.forall {P : ν → Prop} {Q : β → Prop}
    (kept : ∀ node, P node → (∀ child ∈ (expand node).1, P child) ∧ ∀ b ∈ (expand node).2, Q b)
    {stack : List ν} {found : List β} (drains : Drains expand stack found)
    (holds : ∀ node ∈ stack, P node) : ∀ b ∈ found, Q b := by
  induction drains with
  | nil => simp
  | cons children others ihChildren ihOthers =>
    obtain ⟨keeps, finds⟩ := kept _ (holds _ List.mem_cons_self)
    intro b mem
    simp only [List.mem_append] at mem
    obtain (here | below) | rest := mem
    · exact finds b here
    · exact ihChildren (fun child isChild => keeps child (List.mem_reverse.mp isChild)) b below
    · exact ihOthers (fun node isBelow => holds node (List.mem_cons_of_mem _ isBelow)) b rest

theorem exists_drains_perm {ι : Type*} {node : ι → ν} {target : ι → List β} {work : List ι}
    (each : ∀ i ∈ work, ∃ part, Drains expand [node i] part ∧ part.Perm (target i)) :
    ∃ found, Drains expand (work.map node) found ∧ found.Perm (work.flatMap target) := by
  induction work with
  | nil => exact ⟨[], .nil, .refl _⟩
  | cons i work ih =>
    obtain ⟨part, alone, perm⟩ := each i List.mem_cons_self
    obtain ⟨found, drains, perms⟩ := ih fun j mem => each j (List.mem_cons_of_mem _ mem)
    exact ⟨part ++ found, alone.append drains, perm.append perms⟩

theorem Drains.exists_sublist {stack : List ν} {found : List β} (drains : Drains expand stack found)
    {node : ν} (mem : node ∈ stack) : ∃ part, Drains expand [node] part ∧ part.Sublist found := by
  obtain ⟨above, below, rfl⟩ := List.append_of_mem mem
  obtain ⟨_, rest, -, lower, rfl⟩ := drains.of_append
  obtain ⟨part, _, alone, -, rfl⟩ := (show Drains expand ([node] ++ below) rest from lower).of_append
  exact ⟨part, alone, (List.sublist_append_left _ _).trans (List.sublist_append_right _ _)⟩

theorem Drains.exists_sublist_two {stack : List ν} {found : List β} (drains : Drains expand stack found)
    {node node' : ν} (mem : node ∈ stack) (mem' : node' ∈ stack) (ne : node ≠ node') :
    ∃ part part', Drains expand [node] part ∧ Drains expand [node'] part' ∧
      ((part ++ part').Sublist found ∨ (part' ++ part).Sublist found) := by
  obtain ⟨above, below, rfl⟩ := List.append_of_mem mem
  obtain ⟨upper, rest, worked, lower, rfl⟩ := drains.of_append
  obtain ⟨part, left, alone, others, rfl⟩ := (show Drains expand ([node] ++ below) rest from lower).of_append
  cases List.mem_append.mp mem' with
  | inl isAbove =>
    obtain ⟨part', alone', sublist⟩ := worked.exists_sublist isAbove
    exact ⟨part, part', alone, alone', Or.inr (sublist.append (List.sublist_append_left _ _))⟩
  | inr isBelow =>
    have isOther := (List.mem_cons.mp isBelow).resolve_left (Ne.symm ne)
    obtain ⟨part', alone', sublist⟩ := others.exists_sublist isOther
    refine ⟨part, part', alone, alone', Or.inl ?_⟩
    exact ((List.Sublist.refl part).append sublist).trans (List.sublist_append_right _ _)

theorem Drains.singleton {node : ν} {found : List β} (drains : Drains expand [node] found) :
    ∃ below, Drains expand (expand node).1.reverse below ∧ found = (expand node).2 ++ below := by
  cases drains with
  | cons children others =>
    cases others
    exact ⟨_, children, by simp⟩

theorem Drains.of_children {node : ν} {below : List β}
    (children : Drains expand (expand node).1.reverse below) :
    Drains expand [node] ((expand node).2 ++ below) := by
  simpa using Drains.cons children .nil

theorem Drains.congr {node node' : ν} (same : expand node = expand node') {found : List β}
    (drains : Drains expand [node] found) : Drains expand [node'] found := by
  obtain ⟨below, children, rfl⟩ := drains.singleton
  rw [same] at children ⊢
  exact .of_children children

theorem Drains.unique {stack : List ν} {found found' : List β} (first : Drains expand stack found)
    (second : Drains expand stack found') : found = found' := by
  induction first generalizing found' with
  | nil =>
    cases second
    rfl
  | cons _ _ ihChildren ihOthers =>
    cases second with
    | cons children others => rw [ihChildren children, ihOthers others]

end BackupSuite.Library
