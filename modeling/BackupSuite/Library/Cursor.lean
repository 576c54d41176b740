import Mathlib.Data.List.TakeWhile

/-! # Cursors over a list

A pointer into a buffer is the list of what lies from it on, so moving it
forward is dropping elements and the text between two pointers is what the
later one no longer has.  `advance` is the loop "step while the element
satisfies `p`"; a list that has run out stops every such loop.
-/

namespace BackupSuite.Library

variable {α : Type*} {p q : α → Bool}

/-- Step over every element that satisfies `p`. -/
def advance (p : α → Bool) (cursor : List α) : List α := cursor.dropWhile p

/-- The elements between two cursors into one buffer. -/
def between (start stop : List α) : List α := start.take (start.length - stop.length)

/-- A loop on `p` does not go on at `cursor`. -/
def Stops (p : α → Bool) (cursor : List α) : Prop := ∀ a ∈ cursor.head?, p a = false

@[simp] theorem stops_nil : Stops p [] := by simp [Stops]

@[simp] theorem stops_cons {a : α} {l : List α} : Stops p (a :: l) ↔ p a = false := by
  simp [Stops]

theorem Stops.append {l rest : List α} (h : Stops p l) (h' : Stops p rest) : Stops p (l ++ rest) := by
  cases l with
  | nil => exact h'
  | cons a l => exact stops_cons.mpr (stops_cons.mp h)

theorem Stops.of_isFront {front l : List α} (h : Stops p l) (isFront : front <+: l) : Stops p front := by
  obtain ⟨rest, rfl⟩ := isFront
  cases front with
  | nil => exact stops_nil
  | cons a front => exact stops_cons.mpr (stops_cons.mp h)

@[simp] theorem advance_nil : advance p [] = [] := rfl

theorem advance_cons_of_pos {a : α} {l : List α} (h : p a = true) :
    advance p (a :: l) = advance p l := List.dropWhile_cons_of_pos h

theorem advance_suffix (p : α → Bool) (cursor : List α) : advance p cursor <:+ cursor :=
  List.dropWhile_suffix p

theorem length_advance_le (p : α → Bool) (cursor : List α) :
    (advance p cursor).length ≤ cursor.length :=
  (advance_suffix p cursor).length_le

theorem stops_advance (p : α → Bool) (cursor : List α) : Stops p (advance p cursor) := by
  induction cursor with
  | nil => simp [advance]
  | cons a l ih =>
    by_cases h : p a = true
    · simpa [advance, h] using ih
    · simp [advance, h]

theorem advance_of_stops {cursor : List α} (h : Stops p cursor) : advance p cursor = cursor := by
  cases cursor with
  | nil => rfl
  | cons a l => simp_all [advance]

/-- The token in front of a cursor: the loop steps over it and ends behind it. -/
theorem advance_token {token rest : List α} (all : ∀ a ∈ token, p a = true) (stop : Stops p rest) :
    advance p (token ++ rest) = rest := by
  rw [advance, List.dropWhile_append_of_pos all]
  exact advance_of_stops stop

/-- A loop that stops later starts anywhere in front of its stop. -/
theorem advance_advance (le : ∀ a, q a = true → p a = true) (cursor : List α) :
    advance p (advance q cursor) = advance p cursor := by
  induction cursor with
  | nil => rfl
  | cons a cursor ih =>
    by_cases steps : q a = true
    · rw [advance_cons_of_pos steps, advance_cons_of_pos (le a steps), ih]
    · rw [advance_of_stops (stops_cons.mpr (Bool.eq_false_iff.mpr steps))]

/-- The loop over two parts goes on into the second one when the first has run out. -/
theorem advance_append (p : α → Bool) (front rest : List α) :
    advance p (front ++ rest) = if advance p front = [] then advance p rest else advance p front ++ rest := by
  rw [advance, List.dropWhile_append]
  simp only [List.isEmpty_iff]
  rfl

theorem advance_append_stop {a : α} (stop : p a = false) (front rest : List α) :
    advance p (front ++ a :: rest) = advance p front ++ a :: rest := by
  rw [advance_append]
  split
  case isTrue out => rw [out, advance_of_stops (stops_cons.mpr stop), List.nil_append]
  case isFalse => rfl

theorem between_advance (p : α → Bool) (cursor : List α) :
    between cursor (advance p cursor) = cursor.takeWhile p := by
  -- what was stepped over and what is left make up the cursor, so their lengths add up
  have split : cursor.takeWhile p ++ advance p cursor = cursor := List.takeWhile_append_dropWhile
  have lengths := congrArg List.length split
  rw [List.length_append] at lengths
  rw [between, show cursor.length - (advance p cursor).length = (cursor.takeWhile p).length by omega]
  exact (List.prefix_iff_eq_take.mp (List.takeWhile_prefix p)).symm

@[simp] theorem between_append (token rest : List α) : between (token ++ rest) rest = token := by
  simp [between]

/-- What lies behind both cursors does not count. -/
theorem between_append_append (start stop rest : List α) :
    between (start ++ rest) (stop ++ rest) = between start stop := by
  rw [between, between, List.length_append, List.length_append, Nat.add_sub_add_right,
    List.take_append_of_le_length (Nat.sub_le _ _)]

/-! ## Loops one after the other -/

/-- The loops on `ps`, each from where the one before it stopped. -/
def advanceAll (ps : List (α → Bool)) (cursor : List α) : List α := ps.foldl (fun c p => advance p c) cursor

@[simp] theorem advanceAll_nil (cursor : List α) : advanceAll [] cursor = cursor := rfl

@[simp] theorem advanceAll_cons (p : α → Bool) (ps : List (α → Bool)) (cursor : List α) :
    advanceAll (p :: ps) cursor = advanceAll ps (advance p cursor) := rfl

theorem advanceAll_suffix (ps : List (α → Bool)) (cursor : List α) : advanceAll ps cursor <:+ cursor := by
  induction ps generalizing cursor with
  | nil => exact List.suffix_rfl
  | cons p ps ih => exact (ih _).trans (advance_suffix p cursor)

theorem advanceAll_empty (ps : List (α → Bool)) : advanceAll ps ([] : List α) = [] :=
  List.suffix_nil.mp (advanceAll_suffix ps [])

theorem advanceAll_ne_nil {ps qs : List (α → Bool)} {cursor : List α} (inside : advanceAll (ps ++ qs) cursor ≠ []) :
    advanceAll ps cursor ≠ [] := by
  intro out
  rw [advanceAll, List.foldl_append] at inside
  rw [advanceAll] at out
  rw [out] at inside
  exact inside (advanceAll_empty qs)

/-- Loops that stop inside the first part do not see the second one. -/
theorem advanceAll_append {ps : List (α → Bool)} {front : List α} (inside : advanceAll ps front ≠ []) (rest : List α) :
    advanceAll ps (front ++ rest) = advanceAll ps front ++ rest := by
  induction ps generalizing front with
  | nil => rfl
  | cons p ps ih =>
    have notOut : advance p front ≠ [] := by
      intro out
      rw [advanceAll_cons, out] at inside
      exact inside (advanceAll_empty ps)
    rw [advanceAll_cons, advance_append, if_neg notOut]
    exact ih inside

end BackupSuite.Library
