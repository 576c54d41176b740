import Mathlib.Data.List.Nodup
import Mathlib.Data.List.Induction

/-! # Keyed lists with first-match lookup

A list of records is read as a map by looking a key up from the front.  `put`
replaces the first record with the key, or appends; `putAll` puts a whole list,
one record after the other.  The results say what a sequence of `putAll`s leaves:
which keys, in which order (`keys_putAll`), and which record under each
(`lookup_putAll`), and that a second `putAll` of the same list changes nothing.
-/

namespace BackupSuite.Library

variable {α κ : Type*} [DecidableEq κ]

/-- The first record with key `k`. -/
def lookup (key : α → κ) (k : κ) (l : List α) : Option α := l.find? fun a => key a = k

/-- The last record with key `k`. -/
def lastWith (key : α → κ) (k : κ) (l : List α) : Option α := lookup key k l.reverse

/-- Replace the first record with the key of `a`, or append `a`. -/
def put (key : α → κ) (a : α) : List α → List α
  | [] => [a]
  | b :: l => if key b = key a then a :: l else b :: put key a l

/-- Put the records of `as` one after the other. -/
def putAll (key : α → κ) (as l : List α) : List α := as.foldl (fun l a => put key a l) l

/-- Each element once, at the place of its first occurrence. -/
def firstOccurrences (ks : List κ) : List κ := ks.foldl (fun l k => if k ∈ l then l else l ++ [k]) []

variable {key : α → κ}

/-! ## Lookup -/

@[simp] theorem lookup_nil (k : κ) : lookup key k [] = none := rfl

theorem lookup_cons (k : κ) (a : α) (l : List α) :
    lookup key k (a :: l) = if key a = k then some a else lookup key k l := by
  by_cases h : key a = k <;> simp [lookup, h]

theorem lookup_append (k : κ) (l m : List α) :
    lookup key k (l ++ m) = (lookup key k l).or (lookup key k m) := by
  simp [lookup]

theorem key_of_lookup {k : κ} {l : List α} {a : α} (h : lookup key k l = some a) : key a = k := by
  simpa using List.find?_some h

theorem mem_of_lookup {k : κ} {l : List α} {a : α} (h : lookup key k l = some a) : a ∈ l :=
  List.mem_of_find?_eq_some h

theorem lookup_eq_none {k : κ} {l : List α} : lookup key k l = none ↔ k ∉ l.map key := by
  simp [lookup]

theorem exists_lookup {k : κ} {l : List α} (mem : k ∈ l.map key) : ∃ a, lookup key k l = some a :=
  Option.ne_none_iff_exists'.mp fun absent => lookup_eq_none.mp absent mem

theorem lookup_of_mem {l : List α} (nodup : (l.map key).Nodup) {a : α} (h : a ∈ l) :
    lookup key (key a) l = some a := by
  induction l with
  | nil => cases h
  | cons b l ih =>
    rw [List.map_cons, List.nodup_cons] at nodup
    rw [lookup_cons]
    cases h with
    | head => simp
    | tail _ tail =>
      have ne : key b ≠ key a := fun e => nodup.1 (e ▸ List.mem_map_of_mem tail)
      rw [if_neg ne, ih nodup.2 tail]

theorem lookup_filter (P : κ → Bool) (k : κ) (l : List α) :
    lookup key k (l.filter fun a => P (key a)) = if P k then lookup key k l else none := by
  induction l with
  | nil => simp
  | cons a l ih =>
    rw [List.filter_cons, lookup_cons]
    by_cases same : key a = k
    · subst same
      cases kept : P (key a) with
      | true => simp [lookup_cons]
      | false => simp [ih, kept]
    · cases kept : P (key a) with
      | true => simp [lookup_cons, same, ih]
      | false => simp [same, ih]

theorem eq_filterMap_lookup {l : List α} (nodup : (l.map key).Nodup) :
    (l.map key).filterMap (fun k => lookup key k l) = l := by
  rw [List.filterMap_map]
  have each : ∀ a ∈ l, ((fun k => lookup key k l) ∘ key) a = some a :=
    fun a ha => lookup_of_mem nodup ha
  rw [List.filterMap_congr each, List.filterMap_some]

@[simp] theorem lastWith_nil (k : κ) : lastWith key k ([] : List α) = none := rfl

theorem lastWith_concat (k : κ) (l : List α) (a : α) :
    lastWith key k (l ++ [a]) = if key a = k then some a else lastWith key k l := by
  simp [lastWith, lookup_cons]

theorem lastWith_append (k : κ) (l m : List α) :
    lastWith key k (l ++ m) = (lastWith key k m).or (lastWith key k l) := by
  simp [lastWith, lookup_append]

theorem lastWith_cons (k : κ) (a : α) (l : List α) :
    lastWith key k (a :: l) = (lastWith key k l).or (if key a = k then some a else none) := by
  have : a :: l = [a] ++ l := rfl
  rw [this, lastWith_append]
  simp [lastWith, lookup_cons]

theorem lastWith_eq_none {k : κ} {l : List α} : lastWith key k l = none ↔ k ∉ l.map key := by
  simp [lastWith, lookup_eq_none]

theorem lastWith_eq_lookup {l : List α} (nodup : (l.map key).Nodup) (k : κ) :
    lastWith key k l = lookup key k l := by
  induction l with
  | nil => rfl
  | cons a l ih =>
    rw [List.map_cons, List.nodup_cons] at nodup
    rw [lastWith_cons, lookup_cons, ih nodup.2]
    by_cases h : key a = k
    · subst h
      rw [lookup_eq_none.mpr nodup.1]
      simp
    · simp [h]

theorem lastWith_filter (P : κ → Bool) (k : κ) (l : List α) :
    lastWith key k (l.filter fun a => P (key a)) = if P k then lastWith key k l else none := by
  rw [lastWith, ← List.filter_reverse, lookup_filter]
  rfl

/-! ## One `put` -/

@[simp] theorem put_nil (a : α) : put key a [] = [a] := rfl

theorem lookup_put (k : κ) (a : α) (l : List α) :
    lookup key k (put key a l) = if key a = k then some a else lookup key k l := by
  induction l with
  | nil => simp [lookup_cons]
  | cons b l ih =>
    by_cases same : key b = key a
    · by_cases h : key a = k <;> simp [put, same, lookup_cons, h]
    · by_cases h : key a = k
      · -- the head is passed over: it does not have the key that is put, and `k` is that key
        have ne : key b ≠ k := fun e => same (e.trans h.symm)
        rw [put, if_neg same, lookup_cons, if_neg ne, ih, if_pos h, if_pos h]
      · simp [put, same, lookup_cons, ih, h]

theorem put_of_not_mem {a : α} {l : List α} (h : key a ∉ l.map key) : put key a l = l ++ [a] := by
  induction l with
  | nil => rfl
  | cons b l ih =>
    simp only [List.map_cons, List.mem_cons, not_or] at h
    simp [put, Ne.symm h.1, ih h.2]

theorem keys_put_of_mem {a : α} {l : List α} (h : key a ∈ l.map key) :
    (put key a l).map key = l.map key := by
  induction l with
  | nil => cases h
  | cons b l ih =>
    by_cases same : key b = key a
    · simp [put, same]
    · have tail : key a ∈ l.map key := List.mem_of_ne_of_mem (Ne.symm same) h
      simp [put, same, ih tail]

theorem keys_put (a : α) (l : List α) :
    (put key a l).map key = if key a ∈ l.map key then l.map key else l.map key ++ [key a] := by
  by_cases h : key a ∈ l.map key
  · rw [if_pos h, keys_put_of_mem h]
  · rw [if_neg h, put_of_not_mem h, List.map_append, List.map_singleton]

theorem mem_keys_put {k : κ} {a : α} {l : List α} :
    k ∈ (put key a l).map key ↔ k = key a ∨ k ∈ l.map key := by
  rw [keys_put]
  by_cases h : key a ∈ l.map key
  · rw [if_pos h]
    constructor
    · exact Or.inr
    · rintro (rfl | mem)
      · exact h
      · exact mem
  · rw [if_neg h, List.mem_append, List.mem_singleton]
    exact or_comm

theorem mem_put {a b : α} {l : List α} (h : b ∈ put key a l) : b = a ∨ b ∈ l := by
  induction l with
  | nil => simpa using h
  | cons c l ih =>
    by_cases same : key c = key a
    · simp only [put, same, if_true, List.mem_cons] at h ⊢
      exact h.imp_right Or.inr
    · simp only [put, same, if_false, List.mem_cons] at h ⊢
      rcases h with rfl | tail
      · exact Or.inr (Or.inl rfl)
      · exact (ih tail).imp_right Or.inr

theorem put_self {a : α} {l : List α} (h : lookup key (key a) l = some a) : put key a l = l := by
  induction l with
  | nil => cases h
  | cons b l ih =>
    rw [lookup_cons] at h
    by_cases same : key b = key a
    · rw [if_pos same] at h
      cases h
      simp [put]
    · rw [if_neg same] at h
      simp [put, same, ih h]

theorem put_put_same {a b : α} (l : List α) (same : key b = key a) :
    put key b (put key a l) = put key b l := by
  induction l with
  | nil => simp [put, same]
  | cons c l ih => by_cases h : key c = key a <;> simp [put, h, same, ih]

/-- Records with different keys can be put in either order, as long as one of
them does not change which keys there are. -/
theorem put_comm {a b : α} {l : List α} (ne : key a ≠ key b) (mem : key a ∈ l.map key) :
    put key b (put key a l) = put key a (put key b l) := by
  induction l with
  | nil => cases mem
  | cons c l ih =>
    by_cases ha : key c = key a
    · have hb : key c ≠ key b := fun e => ne (ha.symm.trans e)
      simp [put, ha, ne]
    · -- `a` replaces a record of the tail, so the head is there for both orders
      have tail : key a ∈ l.map key := List.mem_of_ne_of_mem (Ne.symm ha) mem
      by_cases hb : key c = key b
      · simp [put, hb, Ne.symm ne]
      · simp [put, ha, hb, ih tail]

/-! ## A whole list of `put`s -/

@[simp] theorem putAll_nil (l : List α) : putAll key [] l = l := rfl

@[simp] theorem putAll_cons (a : α) (as l : List α) :
    putAll key (a :: as) l = putAll key as (put key a l) := rfl

theorem putAll_append (as bs l : List α) :
    putAll key (as ++ bs) l = putAll key bs (putAll key as l) := List.foldl_append

theorem putAll_concat (as : List α) (a : α) (l : List α) :
    putAll key (as ++ [a]) l = put key a (putAll key as l) := by
  rw [putAll_append]; rfl

theorem lookup_putAll (k : κ) (as l : List α) :
    lookup key k (putAll key as l) = (lastWith key k as).or (lookup key k l) := by
  -- from the back: the last put decides first
  induction as using List.reverseRecOn with
  | nil => simp
  | append_singleton as a ih =>
    rw [putAll_concat, lookup_put, lastWith_concat, ih]
    by_cases h : key a = k <;> simp [h]

theorem mem_keys_putAll {k : κ} {as l : List α} (h : k ∈ as.map key ∨ k ∈ l.map key) :
    k ∈ (putAll key as l).map key := by
  by_contra absent
  have nothing := lookup_eq_none.mpr absent
  rw [lookup_putAll, Option.or_eq_none_iff, lastWith_eq_none, lookup_eq_none] at nothing
  exact h.elim nothing.1 nothing.2

theorem mem_putAll {a : α} {as l : List α} (h : a ∈ putAll key as l) : a ∈ as ∨ a ∈ l := by
  induction as generalizing l with
  | nil => exact Or.inr h
  | cons b as ih =>
    cases ih h with
    | inl tail => exact Or.inl (List.mem_cons_of_mem _ tail)
    | inr head =>
      rcases mem_put head with rfl | old
      · exact Or.inl List.mem_cons_self
      · exact Or.inr old

theorem nodup_keys_putAll {as l : List α} (h : (l.map key).Nodup) :
    ((putAll key as l).map key).Nodup := by
  induction as generalizing l with
  | nil => exact h
  | cons a as ih =>
    apply ih
    rw [keys_put]
    by_cases mem : key a ∈ l.map key
    · rwa [if_pos mem]
    · rw [if_neg mem]
      exact List.Nodup.append h (List.nodup_singleton _) (by simpa using mem)

/-- The keys of `l` keep their places; the new ones follow in the order of their
first occurrence. -/
theorem keys_putAll (as l : List α) :
    (putAll key as l).map key =
      (as.map key).foldl (fun ks k => if k ∈ ks then ks else ks ++ [k]) (l.map key) := by
  induction as generalizing l with
  | nil => rfl
  | cons a as ih => rw [putAll_cons, ih, keys_put, List.map_cons, List.foldl_cons]

theorem keys_putAll_nil (as : List α) :
    (putAll key as []).map key = firstOccurrences (as.map key) := keys_putAll as []

theorem nodup_firstOccurrences (ks : List κ) : (firstOccurrences ks).Nodup := by
  have nodup : ((putAll id ks []).map id).Nodup := @nodup_keys_putAll _ _ _ id ks [] (by simp)
  rwa [keys_putAll_nil, List.map_id] at nodup

theorem firstOccurrences_concat (ks : List κ) (k : κ) : firstOccurrences (ks ++ [k]) =
    if k ∈ firstOccurrences ks then firstOccurrences ks else firstOccurrences ks ++ [k] := by
  rw [firstOccurrences, List.foldl_concat]
  rfl

/-- The new keys, each once, behind the old ones. -/
theorem keys_putAll_eq (as l : List α) : (putAll key as l).map key =
    l.map key ++ (firstOccurrences (as.map key)).filter (· ∉ l.map key) := by
  induction as using List.reverseRecOn with
  | nil => simp [firstOccurrences]
  | append_singleton as a ih =>
    rw [putAll_concat, keys_put, ih, List.map_append, List.map_singleton, firstOccurrences_concat]
    by_cases seen : key a ∈ firstOccurrences (as.map key)
    · -- an earlier record has put the key, if it was not there
      rw [if_pos seen, if_pos]
      by_cases old : key a ∈ l.map key
      · exact List.mem_append_left _ old
      · exact List.mem_append_right _ (List.mem_filter.mpr ⟨seen, decide_eq_true old⟩)
    · rw [if_neg seen, List.filter_append]
      by_cases old : key a ∈ l.map key
      · rw [if_pos (List.mem_append_left _ old), List.filter_singleton, decide_eq_false (not_not_intro old)]
        simp
      · have absent : key a ∉ l.map key ++ (firstOccurrences (as.map key)).filter (· ∉ l.map key) := by
          rw [List.mem_append, not_or]
          exact ⟨old, fun mem => seen (List.mem_filter.mp mem).1⟩
        rw [if_neg absent, List.append_assoc, List.filter_singleton, decide_eq_true old]
        rfl

theorem getElem?_put {a b : α} {l : List α} {i : Nat} (here : l[i]? = some b) (ne : key b ≠ key a) :
    (put key a l)[i]? = some b := by
  induction l generalizing i with
  | nil => cases here
  | cons c l ih =>
    rw [put]
    split
    case isTrue same =>
      cases i with
      | zero =>
        cases here
        exact absurd same ne
      | succ i => exact here
    case isFalse =>
      cases i with
      | zero => exact here
      | succ i => exact ih here

/-- A record whose key is not put stays where it is. -/
theorem getElem?_putAll {b : α} {as l : List α} {i : Nat} (here : l[i]? = some b) (notPut : key b ∉ as.map key) :
    (putAll key as l)[i]? = some b := by
  induction as generalizing l with
  | nil => exact here
  | cons a as ih =>
    rw [List.map_cons, List.mem_cons, not_or] at notPut
    exact ih (getElem?_put here notPut.1) notPut.2

/-- What a sequence of puts into nothing leaves: each key once, in order of first
occurrence, with the last record put under it. -/
theorem putAll_nil_eq (as : List α) :
    putAll key as [] =
      (firstOccurrences (as.map key)).filterMap (fun k => lastWith key k as) := by
  have nodup : ((putAll key as []).map key).Nodup := nodup_keys_putAll (by simp)
  -- the keys are distinct, so the list is what its keys find
  rw [← keys_putAll_nil]
  conv_lhs => rw [← eq_filterMap_lookup nodup]
  exact List.filterMap_congr fun k _ => by simp [lookup_putAll]

theorem putAll_of_nodup {l : List α} (nodup : (l.map key).Nodup) : putAll key l [] = l := by
  induction l using List.reverseRecOn with
  | nil => rfl
  | append_singleton l a ih =>
    rw [List.map_append, List.nodup_append] at nodup
    rw [putAll_concat, ih nodup.1]
    apply put_of_not_mem
    intro mem
    exact nodup.2.2 _ mem _ (by simp) rfl

/-- A record that a later put of the same key overwrites leaves no trace. -/
theorem putAll_put_absorb {a : α} {as l : List α} (mem : key a ∈ l.map key)
    (later : key a ∈ as.map key) : putAll key as (put key a l) = putAll key as l := by
  induction as generalizing l with
  | nil => cases later
  | cons b as ih =>
    rw [putAll_cons, putAll_cons]
    by_cases same : key b = key a
    · rw [put_put_same l same]
    · -- `b` has another key and goes first: the one that overwrites `a` is in the rest
      have tail : key a ∈ as.map key := List.mem_of_ne_of_mem (Ne.symm same) later
      rw [put_comm (Ne.symm same) mem]
      exact ih (mem_keys_put.mpr (Or.inr mem)) tail

theorem putAll_self {as l : List α}
    (agree : ∀ k ∈ as.map key, lookup key k l = lastWith key k as) : putAll key as l = l := by
  induction as with
  | nil => rfl
  | cons a as ih =>
    have agreeTail : ∀ k ∈ as.map key, lookup key k l = lastWith key k as := by
      intro k mem
      rw [agree k (List.mem_cons_of_mem _ mem), lastWith_cons]
      cases found : lastWith key k as with
      | some b => rfl
      | none => exact absurd mem (lastWith_eq_none.mp found)
    have head := agree (key a) List.mem_cons_self
    rw [lastWith_cons] at head
    rw [putAll_cons]
    by_cases later : key a ∈ as.map key
    · -- `a` is overwritten, and no longer needs to agree with `l`
      have mem : key a ∈ l.map key := by
        by_contra absent
        rw [lookup_eq_none.mpr absent] at head
        cases found : lastWith key (key a) as with
        | some b => simp [found] at head
        | none => exact absurd later (lastWith_eq_none.mp found)
      rw [putAll_put_absorb mem later, ih agreeTail]
    · rw [lastWith_eq_none.mpr later] at head
      rw [put_self (by simpa using head), ih agreeTail]

theorem putAll_cons_right (as : List α) (b : α) (l : List α) :
    putAll key as (b :: l) = ((lastWith key (key b) as).getD b) ::
      putAll key (as.filter fun a => key a ≠ key b) l := by
  induction as generalizing b l with
  | nil => rfl
  | cons a as ih =>
    rw [putAll_cons, put, lastWith_cons]
    by_cases same : key a = key b
    · rw [if_pos same.symm, ih, same, if_pos rfl, List.filter_cons_of_neg (by simpa using same)]
      cases lastWith key (key b) as <;> rfl
    · rw [if_neg (Ne.symm same), ih, if_neg same, List.filter_cons_of_pos (by simpa using same),
        putAll_cons, Option.or_none]

/-- What is put depends on the order of the keys and on the last record of each. -/
theorem putAll_congr {as bs : List α} (keys : as.map key = bs.map key)
    (last : ∀ k, lastWith key k as = lastWith key k bs) (l : List α) :
    putAll key as l = putAll key bs l := by
  induction l generalizing as bs with
  | nil =>
    rw [putAll_nil_eq, putAll_nil_eq, keys]
    exact List.filterMap_congr fun k _ => last k
  | cons b l ih =>
    have keptKeys : (as.filter fun a => key a ≠ key b).map key = (bs.filter fun a => key a ≠ key b).map key := by
      have filtered := congrArg (List.filter fun k => decide (k ≠ key b)) keys
      rwa [List.filter_map, List.filter_map] at filtered
    have keptLast : ∀ k, lastWith key k (as.filter fun a => key a ≠ key b) =
        lastWith key k (bs.filter fun a => key a ≠ key b) := by
      intro k
      have left := @lastWith_filter α κ _ key (fun k => k ≠ key b) k as
      have right := @lastWith_filter α κ _ key (fun k => k ≠ key b) k bs
      rw [left, right, last]
    rw [putAll_cons_right, putAll_cons_right, last, ih keptKeys keptLast]

/-! ## Maps -/

omit [DecidableEq κ] in
theorem map_eq_self {f : α → α} {l : List α} (same : ∀ a ∈ l, f a = a) : l.map f = l :=
  (List.map_congr_left same).trans (List.map_id l)

section

variable {β κ' : Type*} [DecidableEq κ'] {key' : β → κ'} {f : α → β}

/-- A map that keeps the keys apart goes through the lookups and the puts. -/
theorem lookup_map (keys : ∀ a b, key' (f a) = key' (f b) ↔ key a = key b) (a : α) (l : List α) :
    lookup key' (key' (f a)) (l.map f) = (lookup key (key a) l).map f := by
  induction l with
  | nil => rfl
  | cons b l ih =>
    rw [List.map_cons, lookup_cons, lookup_cons, ih]
    by_cases here : key b = key a
    · rw [if_pos ((keys b a).mpr here), if_pos here]
      rfl
    · rw [if_neg (mt (keys b a).mp here), if_neg here]

theorem lastWith_map (keys : ∀ a b, key' (f a) = key' (f b) ↔ key a = key b) (a : α) (l : List α) :
    lastWith key' (key' (f a)) (l.map f) = (lastWith key (key a) l).map f := by
  rw [lastWith, ← List.map_reverse, lookup_map keys, lastWith]

theorem put_map (keys : ∀ a b, key' (f a) = key' (f b) ↔ key a = key b) (a : α) (l : List α) :
    put key' (f a) (l.map f) = (put key a l).map f := by
  induction l with
  | nil => rfl
  | cons b l ih =>
    by_cases here : key b = key a
    · rw [List.map_cons, put, put, if_pos ((keys b a).mpr here), if_pos here]
      rfl
    · rw [List.map_cons, put, put, if_neg (mt (keys b a).mp here), if_neg here, ih]
      rfl

theorem putAll_map (keys : ∀ a b, key' (f a) = key' (f b) ↔ key a = key b) (as l : List α) :
    putAll key' (as.map f) (l.map f) = (putAll key as l).map f := by
  induction as generalizing l with
  | nil => rfl
  | cons a as ih => rw [List.map_cons, putAll_cons, putAll_cons, put_map keys, ih]

end

theorem putAll_idem (as l : List α) : putAll key as (putAll key as l) = putAll key as l := by
  apply putAll_self
  intro k mem
  rw [lookup_putAll]
  cases found : lastWith key k as with
  | some b => rfl
  | none => exact absurd mem (lastWith_eq_none.mp found)

end BackupSuite.Library
