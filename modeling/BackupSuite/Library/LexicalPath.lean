import Mathlib.Data.List.Basic

/-! # Lexical path resolution

Which file a path names when there are no links: empty components and the dot are
skipped, two dots leave the last component again.  Below one common prefix, two
paths made of names resolve to the same file only if they are the same
(`resolve_below_inj`).
-/

namespace BackupSuite.Library

variable {α : Type*} [DecidableEq α] (sep dot : α)

/-- One more component; the stack has the innermost one first. -/
def enter (absolute : Bool) (stack : List (List α)) (component : List α) : List (List α) :=
  if component = [] ∨ component = [dot] then stack
  else if component = [dot, dot] then
    match stack with
    -- at the root two dots lead nowhere, in front of a relative path they are kept
    | [] => if absolute then [] else [component]
    | top :: rest => if top = [dot, dot] then component :: stack else rest
  else component :: stack

/-- The components of a path entered one after the other. -/
def walk (absolute : Bool) : List (List α) → List α → List α → List (List α)
  | stack, component, [] => enter dot absolute stack component
  | stack, component, c :: path =>
    if c = sep then walk absolute (enter dot absolute stack component) [] path
    else walk absolute stack (component ++ [c]) path

/-- Whether the path is absolute, and its components, innermost first. -/
def resolve (path : List α) : Bool × List (List α) :=
  let absolute := decide (path.head? = some sep)
  (absolute, walk sep dot absolute [] [] path)

/-- The folders that a path leads through, outermost first: one for each separator. -/
def way (absolute : Bool) : List (List α) → List α → List α → List (List (List α))
  | _, _, [] => []
  | stack, component, c :: path =>
    if c = sep then
      let entered := enter dot absolute stack component
      entered :: way absolute entered [] path
    else way absolute stack (component ++ [c]) path

/-- A name that a directory can list. -/
structure IsName (name : List α) : Prop where
  nonempty : name ≠ []
  noSep : sep ∉ name
  notDot : name ≠ [dot]
  notDots : name ≠ [dot, dot]

/-- A relative path of folders with a last name. -/
def relative (folders : List (List α)) (name : List α) : List α :=
  folders.flatMap (· ++ [sep]) ++ name

/-- Names one below the other, each behind a separator. -/
def joined (names : List (List α)) : List α := names.flatMap (sep :: ·)

variable {sep dot}

omit [DecidableEq α] in
theorem joined_cons (name : List α) (names : List (List α)) :
    joined sep (name :: names) = sep :: (name ++ joined sep names) := rfl

omit [DecidableEq α] in
theorem append_joined_inj {name name' : List α} (noSep : sep ∉ name) (noSep' : sep ∉ name')
    {names names' : List (List α)} (same : name ++ joined sep names = name' ++ joined sep names') :
    name = name' ∧ joined sep names = joined sep names' := by
  induction name generalizing name' with
  | nil =>
    cases name' with
    | nil => exact ⟨rfl, same⟩
    | cons c name' =>
      cases names with
      | nil => cases same
      | cons first names =>
        rw [List.nil_append, joined_cons, List.cons_append, List.cons.injEq] at same
        exact absurd (same.1 ▸ List.mem_cons_self) noSep'
  | cons c name ih =>
    rw [List.mem_cons, not_or] at noSep
    cases name' with
    | nil =>
      cases names' with
      | nil => cases same
      | cons first names' =>
        rw [List.nil_append, joined_cons, List.cons_append, List.cons.injEq] at same
        exact absurd same.1.symm noSep.1
    | cons c' name' =>
      rw [List.mem_cons, not_or] at noSep'
      rw [List.cons_append, List.cons_append, List.cons.injEq] at same
      obtain ⟨rfl, same⟩ := same
      exact (ih noSep.2 noSep'.2 same).imp_left (congrArg (c :: ·))

omit [DecidableEq α] in
theorem exists_last_sep {path : List α} (mem : sep ∈ path) :
    ∃ front last, path = front ++ sep :: last ∧ sep ∉ last := by
  induction path with
  | nil => cases mem
  | cons c path ih =>
    by_cases later : sep ∈ path
    · obtain ⟨front, last, rfl, noSep⟩ := ih later
      exact ⟨c :: front, last, rfl, noSep⟩
    · rcases List.mem_cons.mp mem with rfl | later'
      · exact ⟨[], path, rfl, later⟩
      · exact absurd later' later

omit [DecidableEq α] in
/-- The last separator is in one place. -/
theorem append_sep_inj {front front' last last' : List α} (noSep : sep ∉ last) (noSep' : sep ∉ last')
    (same : front ++ sep :: last = front' ++ sep :: last') : front = front' ∧ last = last' := by
  induction front generalizing front' with
  | nil =>
    cases front' with
    | nil => exact ⟨rfl, (List.cons.inj same).2⟩
    | cons c front' => exact absurd ((List.cons.inj same).2 ▸ by simp) noSep
  | cons c front ih =>
    cases front' with
    | nil => exact absurd ((List.cons.inj same).2.symm ▸ by simp) noSep'
    | cons c' front' =>
      obtain ⟨rfl, rest⟩ := List.cons.inj same
      exact (ih rest).imp_left (congrArg (c :: ·))

omit [DecidableEq α] in
theorem joined_inj {names names' : List (List α)} (noSep : ∀ name ∈ names, sep ∉ name)
    (noSep' : ∀ name ∈ names', sep ∉ name) (same : joined sep names = joined sep names') :
    names = names' := by
  induction names generalizing names' with
  | nil =>
    cases names' with
    | nil => rfl
    | cons first names' => cases same
  | cons first names ih =>
    cases names' with
    | nil => cases same
    | cons first' names' =>
      rw [joined_cons, joined_cons, List.cons.injEq] at same
      obtain ⟨heads, tails⟩ := append_joined_inj (noSep first List.mem_cons_self)
        (noSep' first' List.mem_cons_self) same.2
      rw [heads, ih (fun name mem => noSep name (List.mem_cons_of_mem _ mem))
        (fun name mem => noSep' name (List.mem_cons_of_mem _ mem)) tails]

theorem walk_append_sep (absolute : Bool) (stack : List (List α)) (component pre path : List α) :
    walk sep dot absolute stack component (pre ++ sep :: path) =
      walk sep dot absolute (walk sep dot absolute stack component pre) [] path := by
  induction pre generalizing stack component with
  | nil => simp [walk]
  | cons c pre ih =>
    by_cases here : c = sep
    · simp [walk, here, ih]
    · simp [walk, here, ih]

theorem walk_of_noSep {path : List α} (noSep : sep ∉ path) (absolute : Bool)
    (stack : List (List α)) (component : List α) :
    walk sep dot absolute stack component path = enter dot absolute stack (component ++ path) := by
  induction path generalizing component with
  | nil => simp [walk]
  | cons c path ih =>
    simp only [List.mem_cons, not_or] at noSep
    rw [walk, if_neg (Ne.symm noSep.1), ih noSep.2, List.append_assoc, List.singleton_append]

@[simp] theorem walk_concat_sep (absolute : Bool) (stack : List (List α)) (component path : List α) :
    walk sep dot absolute stack component (path ++ [sep]) = walk sep dot absolute stack component path := by
  rw [walk_append_sep]
  simp [walk, enter]

theorem way_append_sep (absolute : Bool) (stack : List (List α)) (component pre path : List α) :
    way sep dot absolute stack component (pre ++ sep :: path) =
      way sep dot absolute stack component pre ++ walk sep dot absolute stack component pre ::
        way sep dot absolute (walk sep dot absolute stack component pre) [] path := by
  induction pre generalizing stack component with
  | nil => simp [way, walk]
  | cons c pre ih =>
    by_cases here : c = sep
    · simp [way, walk, here, ih]
    · simp [way, walk, here, ih]

theorem way_of_noSep {path : List α} (noSep : sep ∉ path) (absolute : Bool) (stack : List (List α))
    (component : List α) : way sep dot absolute stack component path = [] := by
  induction path generalizing component with
  | nil => rfl
  | cons c path ih =>
    simp only [List.mem_cons, not_or] at noSep
    rw [way, if_neg (Ne.symm noSep.1), ih noSep.2]

theorem way_append_of_noSep {name : List α} (noSep : sep ∉ name) (absolute : Bool)
    (stack : List (List α)) (component path : List α) :
    way sep dot absolute stack component (path ++ name) = way sep dot absolute stack component path := by
  induction path generalizing stack component with
  | nil => exact way_of_noSep noSep absolute stack component
  | cons c path ih =>
    rw [List.cons_append, way, way]
    split
    · simp only [ih]
    · exact ih _ _

theorem way_isFront (absolute : Bool) (stack : List (List α)) (component pre path : List α) :
    way sep dot absolute stack component pre <+: way sep dot absolute stack component (pre ++ path) := by
  induction pre generalizing stack component with
  | nil => exact List.nil_prefix
  | cons c pre ih =>
    rw [List.cons_append, way, way]
    split
    · exact (List.prefix_cons_inj _).mpr (ih _ _)
    · exact ih _ _

theorem walk_append_replicate_sep (absolute : Bool) (stack : List (List α)) (component path : List α)
    (n : Nat) : walk sep dot absolute stack component (path ++ List.replicate n sep) =
      walk sep dot absolute stack component path := by
  induction n with
  | zero => rw [List.replicate_zero, List.append_nil]
  | succ n ih => rw [List.replicate_succ', ← List.append_assoc, walk_concat_sep, ih]

theorem IsName.walk {name : List α} (isName : IsName sep dot name) (absolute : Bool)
    (stack : List (List α)) : walk sep dot absolute stack [] name = name :: stack := by
  rw [walk_of_noSep isName.noSep, List.nil_append]
  unfold enter
  rw [if_neg (not_or.mpr ⟨isName.nonempty, isName.notDot⟩), if_neg isName.notDots]

theorem walk_relative {folders : List (List α)} {name : List α}
    (areNames : ∀ folder ∈ folders, IsName sep dot folder) (isName : IsName sep dot name)
    (absolute : Bool) (stack : List (List α)) :
    walk sep dot absolute stack [] (relative sep folders name) =
      name :: (folders.reverse ++ stack) := by
  induction folders generalizing stack with
  | nil => exact isName.walk absolute stack
  | cons folder folders ih =>
    have split : relative sep (folder :: folders) name =
        folder ++ sep :: relative sep folders name := by simp [relative]
    rw [split, walk_append_sep, (areNames folder List.mem_cons_self).walk,
      ih fun f mem => areNames f (List.mem_cons_of_mem _ mem)]
    simp

/-- Below a common prefix different relative paths are different files. -/
theorem resolve_below_inj {pre : List α} {folders folders' : List (List α)} {name name' : List α}
    (areNames : ∀ folder ∈ folders, IsName sep dot folder) (isName : IsName sep dot name)
    (areNames' : ∀ folder ∈ folders', IsName sep dot folder) (isName' : IsName sep dot name') :
    resolve sep dot (pre ++ sep :: relative sep folders name) =
      resolve sep dot (pre ++ sep :: relative sep folders' name') ↔
    folders = folders' ∧ name = name' := by
  constructor
  · intro same
    -- both walks start alike and have the same stack when they come to the names
    have heads : (pre ++ sep :: relative sep folders name).head? =
        (pre ++ sep :: relative sep folders' name').head? := by cases pre <;> rfl
    have inner := congrArg Prod.snd same
    simp only [resolve, heads, walk_append_sep, walk_relative areNames isName,
      walk_relative areNames' isName', List.cons.injEq, List.append_cancel_right_eq,
      List.reverse_inj] at inner
    exact ⟨inner.2, inner.1⟩
  · rintro ⟨rfl, rfl⟩
    rfl

theorem exists_walk_append {name : List α} (noSep : sep ∉ name) (long : 2 < name.length)
    (absolute : Bool) (stack : List (List α)) (component pre : List α) :
    ∃ front rest, walk sep dot absolute stack component (pre ++ name) = (front ++ name) :: rest := by
  induction pre generalizing stack component with
  | nil =>
    -- more than two letters are neither a dot nor two
    have tooLong : ∀ m : List α, m.length ≤ 2 → component ++ name ≠ m := by
      intro m short same
      have lengths := congrArg List.length same
      rw [List.length_append] at lengths
      omega
    refine ⟨component, stack, ?_⟩
    rw [List.nil_append, walk_of_noSep noSep]
    unfold enter
    rw [if_neg (not_or.mpr ⟨tooLong [] (by simp), tooLong [dot] (by simp)⟩),
      if_neg (tooLong [dot, dot] (by simp))]
  | cons c pre ih =>
    rw [List.cons_append, walk]
    split
    · exact ih _ _
    · exact ih _ _

omit [DecidableEq α] in
theorem IsName.append {name suffix : List α} (isName : IsName sep dot name) (noSep : sep ∉ suffix)
    (long : 2 < suffix.length) : IsName sep dot (name ++ suffix) where
  nonempty := by simp [isName.nonempty]
  noSep := by simp [isName.noSep, noSep]
  notDot := by
    intro same
    have lengths := congrArg List.length same
    simp at lengths
    omega
  notDots := by
    intro same
    have lengths := congrArg List.length same
    simp at lengths
    omega

end BackupSuite.Library
