import Mathlib.Data.Finset.Card
import Mathlib.Order.Interval.Finset.Nat

/-! # Hash tables with probe paths

A place of the table has a number, which is 0 where the place is empty. The numbers stand
for entries that have keys, and every key has a path through the places. A number is put in
the first empty place of its key's path (`putFirst`). When the numbers come in increasing
order, the search along the path of a key (`probe`) ends at the least number with that key
(`Tables.probe_least`), or at 0 where there is none (`Tables.probe_none`).
-/

namespace BackupSuite.Library

/-- The first number on the path that matches, unless an empty place comes before it. -/
def probe (matched : Nat → Bool) (t : List Nat) : List Nat → Nat
  | [] => 0
  | place :: path =>
    if t.getD place 0 = 0 then 0
    else if matched (t.getD place 0) then t.getD place 0
    else probe matched t path

/-- The table with the number in the first empty place of the path. -/
def putFirst (number : Nat) (t : List Nat) : List Nat → List Nat
  | [] => t
  | place :: path =>
    if t.getD place 0 = 0 then t.set place number else putFirst number t path

@[simp] theorem length_putFirst (number : Nat) (t path : List Nat) :
    (putFirst number t path).length = t.length := by
  induction path with
  | nil => rfl
  | cons place path ih =>
    rw [putFirst]
    split
    next => exact List.length_set
    next => exact ih

theorem putFirst_eq {t path : List Nat} (empty : ∃ place ∈ path, t.getD place 0 = 0) (number : Nat) :
    ∃ before place after, path = before ++ place :: after ∧ (∀ p ∈ before, t.getD p 0 ≠ 0) ∧
      t.getD place 0 = 0 ∧ putFirst number t path = t.set place number := by
  induction path with
  | nil =>
    obtain ⟨_, mem, _⟩ := empty
    cases mem
  | cons first path ih =>
    by_cases free : t.getD first 0 = 0
    · refine ⟨[], first, path, rfl, ?_, free, ?_⟩
      · intro p mem
        cases mem
      · rw [putFirst, if_pos free]
    · have later : ∃ place ∈ path, t.getD place 0 = 0 := by
        obtain ⟨place, mem, zero⟩ := empty
        cases mem with
        | head => exact absurd zero free
        | tail _ mem => exact ⟨place, mem, zero⟩
      obtain ⟨before, place, after, split, full, zero, put⟩ := ih later
      refine ⟨first :: before, place, after, ?_, ?_, zero, ?_⟩
      · rw [split, List.cons_append]
      · exact List.forall_mem_cons.mpr ⟨free, full⟩
      · rw [putFirst, if_neg free, put]

theorem probe_eq_of_before {matched : Nat → Bool} {t before after : List Nat} {place : Nat}
    (full : ∀ p ∈ before, t.getD p 0 ≠ 0) (differ : ∀ p ∈ before, matched (t.getD p 0) = false)
    (found : t.getD place 0 ≠ 0) (same : matched (t.getD place 0) = true) :
    probe matched t (before ++ place :: after) = t.getD place 0 := by
  induction before with
  | nil => rw [List.nil_append, probe, if_neg found, if_pos same]
  | cons first before ih =>
    have full' := List.forall_mem_cons.mp full
    have differ' := List.forall_mem_cons.mp differ
    rw [List.cons_append, probe, if_neg full'.1, if_neg (Bool.eq_false_iff.mp differ'.1)]
    exact ih full'.2 differ'.2

theorem probe_eq_zero {matched : Nat → Bool} {t path : List Nat}
    (differ : ∀ p ∈ path, t.getD p 0 ≠ 0 → matched (t.getD p 0) = false) : probe matched t path = 0 := by
  induction path with
  | nil => rfl
  | cons first path ih =>
    have differ' := List.forall_mem_cons.mp differ
    rw [probe]
    split
    next => rfl
    next full => rw [if_neg (Bool.eq_false_iff.mp (differ'.1 full)), ih differ'.2]

/-! ## Numbers put in in their order -/

variable {κ : Type*} {path : κ → List Nat} {key key' : Nat → κ} {counted counted' : Nat → Prop}
  {bound : Nat} {t : List Nat}

/-- The table has the counted numbers from 1 up to the bound, each of them on its key's path
with smaller ones before it. -/
structure Tables (path : κ → List Nat) (key : Nat → κ) (counted : Nat → Prop) (bound : Nat)
    (t : List Nat) : Prop where
  below : ∀ place, t.getD place 0 ≠ 0 → t.getD place 0 < bound
  counts : ∀ place, t.getD place 0 ≠ 0 → counted (t.getD place 0)
  once : ∀ place place', t.getD place 0 ≠ 0 → t.getD place 0 = t.getD place' 0 → place = place'
  reached : ∀ number, 0 < number → number < bound → counted number →
    ∃ before place after, path (key number) = before ++ place :: after ∧ t.getD place 0 = number ∧
      ∀ p ∈ before, t.getD p 0 ≠ 0 ∧ t.getD p 0 < number

theorem getD_replicate_zero (size place : Nat) : (List.replicate size 0).getD place 0 = 0 := by
  rw [List.getD_eq_getElem?_getD, List.getElem?_replicate]
  split <;> rfl

theorem tables_replicate (size : Nat) : Tables path key counted 1 (List.replicate size 0) where
  below place full := absurd (getD_replicate_zero size place) full
  counts place full := absurd (getD_replicate_zero size place) full
  once place _ full := absurd (getD_replicate_zero size place) full
  reached number positive small := absurd positive (by omega)

namespace Tables

theorem congr (tables : Tables path key counted bound t)
    (same : ∀ number, 0 < number → number < bound → key' number = key number ∧ (counted' number ↔ counted number)) :
    Tables path key' counted' bound t where
  below := tables.below
  counts place full := (same _ (Nat.pos_of_ne_zero full) (tables.below place full)).2.mpr (tables.counts place full)
  once := tables.once
  reached number positive small counts := by
    obtain ⟨sameKey, sameCount⟩ := same number positive small
    rw [sameKey]
    exact tables.reached number positive small (sameCount.mp counts)

theorem pass (tables : Tables path key counted bound t) (uncounted : ¬ counted bound) :
    Tables path key counted (bound + 1) t where
  below place full := Nat.lt_succ_of_lt (tables.below place full)
  counts := tables.counts
  once := tables.once
  reached number positive small counts := by
    have other : number ≠ bound := fun eq => uncounted (eq ▸ counts)
    exact tables.reached number positive (by omega) counts

/-- As many places as the bound are more than the numbers below it. -/
theorem exists_empty (tables : Tables path key counted bound t) (positive : 0 < bound)
    (room : bound ≤ t.length) : ∃ place < t.length, t.getD place 0 = 0 := by
  by_contra none
  have full : ∀ place < t.length, t.getD place 0 ≠ 0 := fun place inside zero => none ⟨place, inside, zero⟩
  have fits : (Finset.range t.length).card ≤ (Finset.Ioo 0 bound).card := by
    refine Finset.card_le_card_of_injOn (fun place => t.getD place 0) ?_ ?_
    · intro place mem
      have some := full place (Finset.mem_range.mp mem)
      exact Finset.mem_coe.mpr (Finset.mem_Ioo.mpr ⟨Nat.pos_of_ne_zero some, tables.below place some⟩)
    · intro place mem place' _ same
      exact tables.once place place' (full place (Finset.mem_range.mp mem)) same
  rw [Finset.card_range, Nat.card_Ioo] at fits
  omega

theorem put (tables : Tables path key counted bound t) (positive : 0 < bound) (room : bound ≤ t.length)
    (covers : ∀ place, place ∈ path (key bound) ↔ place < t.length) (counts : counted bound) :
    Tables path key counted (bound + 1) (putFirst bound t (path (key bound))) := by
  obtain ⟨free, inside, zero⟩ := tables.exists_empty positive room
  obtain ⟨before, place, after, split, full, empty, eq⟩ :=
    putFirst_eq ⟨free, (covers free).mpr inside, zero⟩ bound
  have placed : place < t.length := (covers place).mp (split ▸ List.mem_append_cons_self)
  have here : (t.set place bound).getD place 0 = bound := by
    rw [List.getD_eq_getElem?_getD, List.getElem?_set_self placed, Option.getD_some]
  have there : ∀ p, p ≠ place → (t.set place bound).getD p 0 = t.getD p 0 := by
    intro p other
    rw [List.getD_eq_getElem?_getD, List.getElem?_set_ne (Ne.symm other), ← List.getD_eq_getElem?_getD]
  have ne_of_full : ∀ p, t.getD p 0 ≠ 0 → p ≠ place := fun p some eq => some (eq ▸ empty)
  rw [eq]
  refine ⟨?_, ?_, ?_, ?_⟩
  · intro p some
    by_cases new : p = place
    · rw [new, here]
      exact Nat.lt_succ_self bound
    · rw [there p new] at some ⊢
      exact Nat.lt_succ_of_lt (tables.below p some)
  · intro p some
    by_cases new : p = place
    · rw [new, here]
      exact counts
    · rw [there p new] at some ⊢
      exact tables.counts p some
  · intro p p' some same
    by_cases new : p = place <;> by_cases new' : p' = place
    · rw [new, new']
    · rw [new, here, there p' new'] at same
      have low := tables.below p' (by omega)
      omega
    · rw [new', here, there p new] at same
      have low := tables.below p (by omega)
      omega
    · rw [there p new] at some
      rw [there p new, there p' new'] at same
      exact tables.once p p' some same
  · intro number above small counted
    by_cases new : number = bound
    · rw [new]
      refine ⟨before, place, after, split, here, ?_⟩
      intro p mem
      rw [there p (ne_of_full p (full p mem))]
      exact ⟨full p mem, tables.below p (full p mem)⟩
    · -- the paths of older numbers have no empty place that could have changed
      obtain ⟨before', place', after', split', found, smaller⟩ := tables.reached number above (by omega) counted
      refine ⟨before', place', after', split', ?_, ?_⟩
      · rw [there place' (ne_of_full place' (by omega)), found]
      · intro p mem
        rw [there p (ne_of_full p (smaller p mem).1)]
        exact smaller p mem

section

variable [DecidableEq κ]

theorem probe_least (tables : Tables path key counted bound t) {number : Nat} (positive : 0 < number)
    (small : number < bound) (counts : counted number)
    (least : ∀ other, 0 < other → other < number → counted other → key other ≠ key number) :
    probe (fun other => key other = key number) t (path (key number)) = number := by
  obtain ⟨before, place, after, split, found, smaller⟩ := tables.reached number positive small counts
  have differ : ∀ p ∈ before, decide (key (t.getD p 0) = key number) = false := by
    intro p mem
    obtain ⟨full, below⟩ := smaller p mem
    exact decide_eq_false (least _ (Nat.pos_of_ne_zero full) below (tables.counts p full))
  have full : t.getD place 0 ≠ 0 := by omega
  rw [split, probe_eq_of_before (fun p mem => (smaller p mem).1) differ full (decide_eq_true (congrArg key found)), found]

theorem probe_none (tables : Tables path key counted bound t) {wanted : κ}
    (none : ∀ number, 0 < number → number < bound → counted number → key number ≠ wanted) :
    probe (fun number => key number = wanted) t (path wanted) = 0 :=
  probe_eq_zero fun p _ full =>
    decide_eq_false (none _ (Nat.pos_of_ne_zero full) (tables.below p full) (tables.counts p full))

end

end Tables

end BackupSuite.Library
