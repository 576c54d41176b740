import BackupSuite.Library.ProbeTable
import BackupSuite.Zpaq.JournalContents

/-! # The index of fragment hashes

`add` looks fragments up in `HTIndex`, a hash table over the numbers of the fragments that
doubles its size when three quarters are in use. `find` gives the least number of a fragment
with the hash (`Indexes.find_eq`), whatever the hashes and however often the table has
grown, so that `add` numbers the fragments of a file as a search through the list would
(`addIndexed_create`).
-/

namespace BackupSuite.Zpaq.Journal

open BackupSuite.Library BackupSuite.CtrlCenter

structure HTIndex where
  bits : Nat
  t : List Nat
  htsize : Nat
  /-- the sizes that `resize` is called for -/
  length_t : t.length = 2 ^ bits

namespace HTIndex

/-- `*(const unsigned*)sha1 & (t.size()-1)` -/
def hash (size : Nat) (sha1 : Bytes) : Nat := ofLittleEndian (sha1.take 4) &&& (size - 1)

/-- The places `h^i`. -/
def places (size : Nat) (sha1 : Bytes) : List Nat := (List.range size).map fun i => hash size sha1 ^^^ i

/-- The hash of a fragment of the list. -/
def sha1At (htr : List HT) (number : Nat) : Bytes := (htr.getD number .new).sha1

def find (index : HTIndex) (htr : List HT) (sha1 : Bytes) : Nat :=
  probe (fun number => sha1At htr number = sha1) index.t (places index.t.length sha1)

/-- A fragment of unknown size or hash is not in the index. -/
def indexed (e : HT) : Bool := 0 ≤ e.usize && e.sha1 ≠ List.replicate 20 0

variable (index : HTIndex)

theorem length_doubled : (List.replicate (index.t.length * 2) 0).length = 2 ^ (index.bits + 1) := by
  rw [List.length_replicate, index.length_t, Nat.pow_succ]

/-- `t.resize(t.size(), 1)`, which empties the table. -/
def resized : HTIndex := ⟨index.bits + 1, List.replicate (index.t.length * 2) 0, 1, index.length_doubled⟩

@[simp] theorem t_resized : index.resized.t = List.replicate (index.t.length * 2) 0 := rfl

@[simp] theorem htsize_resized : index.resized.htsize = 1 := rfl

def grown : HTIndex := if index.t.length / 4 * 3 ≤ index.htsize then index.resized else index

variable (htr : List HT)

def entered : List Nat :=
  if indexed (htr.getD index.htsize .new) then
    putFirst index.htsize index.t (places index.t.length (sha1At htr index.htsize))
  else index.t

theorem length_entered : (index.entered htr).length = 2 ^ index.bits := by
  rw [entered]
  split
  next => rw [length_putFirst, index.length_t]
  next => exact index.length_t

def enter : HTIndex := ⟨index.bits, index.entered htr, index.htsize + 1, index.length_entered htr⟩

@[simp] theorem t_enter : (index.enter htr).t = index.entered htr := rfl

@[simp] theorem htsize_enter : (index.enter htr).htsize = index.htsize + 1 := rfl

/-- With twice as many places as fragments the table does not grow any more. -/
theorem bits_lt_of_grows (more : index.htsize < htr.length) (full : index.t.length / 4 * 3 ≤ index.htsize) :
    2 * htr.length + 4 - 2 ^ (index.bits + 1) < 2 * htr.length + 4 - 2 ^ index.bits := by
  have size := index.length_t
  have positive : 0 < 2 ^ index.bits := Nat.two_pow_pos index.bits
  rw [Nat.pow_succ]
  omega

def update (htr : List HT) (index : HTIndex) : HTIndex :=
  if index.htsize < htr.length then update htr (index.grown.enter htr) else index
termination_by (2 * htr.length + 4 - 2 ^ index.bits, htr.length - index.htsize)
decreasing_by
  rename_i more
  rw [grown]
  split
  next full => exact Prod.Lex.left _ _ (index.bits_lt_of_grows htr more full)
  next =>
    refine Prod.Lex.right _ ?_
    rw [htsize_enter]
    omega

/-- `for (b=1; sz*3>>b; ++b);` -/
def firstBits (n b : Nat) : Nat := if n >>> b = 0 then b else firstBits n (b + 1)
termination_by n >>> b
decreasing_by
  rename_i more
  rw [Nat.shiftRight_add, Nat.shiftRight_one]
  exact Nat.div_lt_self (Nat.pos_of_ne_zero more) Nat.one_lt_two

theorem length_replicate_pow (bits : Nat) : (List.replicate (2 ^ bits) 0).length = 2 ^ bits :=
  List.length_replicate

/-- The index of the list, for an estimated number of fragments. -/
def create (htr : List HT) (sz : Nat) : HTIndex :=
  let bits := firstBits (sz * 3) 1 - 1
  update htr ⟨bits, List.replicate (2 ^ bits) 0, 1, length_replicate_pow bits⟩

end HTIndex

/-! ## What is in the table -/

namespace HTIndex

theorem mem_places {bits place : Nat} {sha1 : Bytes} : place ∈ places (2 ^ bits) sha1 ↔ place < 2 ^ bits := by
  have small : hash (2 ^ bits) sha1 < 2 ^ bits := by
    rw [hash, Nat.and_two_pow_sub_one_eq_mod]
    exact Nat.mod_lt _ (Nat.two_pow_pos bits)
  rw [places, List.mem_map]
  constructor
  · rintro ⟨i, mem, rfl⟩
    exact Nat.xor_lt_two_pow small (List.mem_range.mp mem)
  · intro inside
    refine ⟨hash (2 ^ bits) sha1 ^^^ place, List.mem_range.mpr (Nat.xor_lt_two_pow small inside), ?_⟩
    rw [← Nat.xor_assoc, Nat.xor_self, Nat.zero_xor]

/-- The index has the fragments up to `htsize`. -/
structure Indexes (htr : List HT) (index : HTIndex) : Prop where
  positive : 0 < index.htsize
  within : index.htsize ≤ max 1 htr.length
  tables : Tables (places index.t.length) (sha1At htr) (fun number => indexed (htr.getD number .new) = true)
    index.htsize index.t

variable {htr : List HT} {index : HTIndex}

theorem getD_append_left (htr new : List HT) {number : Nat} (inside : number < htr.length) :
    (htr ++ new).getD number .new = htr.getD number .new := by
  rw [List.getD_eq_getElem?_getD, List.getElem?_append_left inside, ← List.getD_eq_getElem?_getD]

theorem indexes_replicate (htr : List HT) {bits size : Nat} (length : (List.replicate size 0).length = 2 ^ bits) :
    Indexes htr ⟨bits, List.replicate size 0, 1, length⟩ where
  positive := Nat.one_pos
  within := Nat.le_max_left 1 htr.length
  tables := tables_replicate size

namespace Indexes

/-- Fragments behind the list do not change the index of those in it. -/
theorem append (indexes : Indexes htr index) (new : List HT) : Indexes (htr ++ new) index where
  positive := indexes.positive
  within := by
    have within := indexes.within
    rw [List.length_append]
    omega
  tables := indexes.tables.congr fun number positive small => by
    have within := indexes.within
    have inside : number < htr.length := by omega
    have same := getD_append_left htr new inside
    rw [sha1At, sha1At, same]
    exact ⟨rfl, Iff.rfl⟩

theorem grown (indexes : Indexes htr index) : Indexes htr index.grown := by
  rw [HTIndex.grown]
  split
  next => exact indexes_replicate htr index.length_doubled
  next => exact indexes

theorem enter (indexes : Indexes htr index) (more : index.htsize < htr.length)
    (room : index.htsize ≤ index.t.length) : Indexes htr (index.enter htr) where
  positive := Nat.succ_pos index.htsize
  within := by
    rw [htsize_enter]
    omega
  tables := by
    have covers : ∀ place, place ∈ places index.t.length (sha1At htr index.htsize) ↔ place < index.t.length := by
      intro place
      rw [index.length_t]
      exact mem_places
    have size : (index.enter htr).t.length = index.t.length := (index.length_entered htr).trans index.length_t.symm
    rw [size, htsize_enter, t_enter, entered]
    split
    next counts => exact indexes.tables.put indexes.positive room covers counts
    next uncounted => exact indexes.tables.pass uncounted

end Indexes

theorem htsize_grown_le (index : HTIndex) : index.grown.htsize ≤ index.grown.t.length := by
  have positive : 0 < 2 ^ index.bits := Nat.two_pow_pos index.bits
  have size := index.length_t
  rw [grown]
  split
  next =>
    rw [htsize_resized, t_resized, List.length_replicate]
    omega
  next => omega

theorem htsize_grown_lt (positive : 0 < index.htsize) (more : index.htsize < htr.length) :
    index.grown.htsize < htr.length := by
  rw [grown]
  split
  next =>
    rw [htsize_resized]
    omega
  next => exact more

theorem Indexes.update (indexes : Indexes htr index) : Indexes htr (index.update htr) := by
  fun_induction HTIndex.update htr index with
  | case1 index more ih =>
    exact ih (indexes.grown.enter (htsize_grown_lt indexes.positive more) index.htsize_grown_le)
  | case2 => exact indexes

theorem length_le_htsize_update (htr : List HT) (index : HTIndex) : htr.length ≤ (index.update htr).htsize := by
  fun_induction HTIndex.update htr index with
  | case1 index more ih => exact ih
  | case2 index done => exact Nat.le_of_not_lt done

theorem indexes_create (htr : List HT) (sz : Nat) : Indexes htr (create htr sz) :=
  (indexes_replicate htr (length_replicate_pow _)).update

end HTIndex

/-! ## What `find` gives -/

/-- The least number of a fragment with the hash. -/
def findFirst (htr : List HT) (sha1 : Bytes) : Nat :=
  ((htr.tail.findIdx? fun e => e.sha1 = sha1 && HTIndex.indexed e).map (· + 1)).getD 0

theorem getD_succ_of_lt {htr : List HT} {i : Nat} (inside : i < htr.tail.length) :
    htr.getD (i + 1) .new = htr.tail[i] := by
  cases htr with
  | nil => cases inside
  | cons e htr => exact List.getD_eq_getElem htr HT.new inside

theorem HTIndex.Indexes.find_eq {htr : List HT} {index : HTIndex} (indexes : index.Indexes htr)
    (complete : htr.length ≤ index.htsize) (sha1 : Bytes) : index.find htr sha1 = findFirst htr sha1 := by
  have within := indexes.within
  rw [findFirst]
  cases found : htr.tail.findIdx? fun e => e.sha1 = sha1 && HTIndex.indexed e with
  | some i =>
    obtain ⟨inside, here, before⟩ := List.findIdx?_eq_some_iff_getElem.mp found
    obtain ⟨same, counts⟩ := Bool.and_eq_true_iff.mp here
    have size := List.length_tail ▸ inside
    have key : sha1At htr (i + 1) = sha1 := by
      rw [sha1At, getD_succ_of_lt inside]
      exact of_decide_eq_true same
    rw [find, ← key]
    refine indexes.tables.probe_least (Nat.succ_pos i) (by omega) ?_ ?_
    · rw [getD_succ_of_lt inside]
      exact counts
    · intro other positive smaller counted equal
      obtain ⟨j, rfl⟩ := Nat.exists_eq_succ_of_ne_zero positive.ne'
      have inside' : j < htr.tail.length := by omega
      rw [key, sha1At, getD_succ_of_lt inside'] at equal
      rw [getD_succ_of_lt inside'] at counted
      exact before j (by omega) (Bool.and_eq_true_iff.mpr ⟨decide_eq_true equal, counted⟩)
  | none =>
    refine indexes.tables.probe_none fun number positive small counted equal => ?_
    obtain ⟨j, rfl⟩ := Nat.exists_eq_succ_of_ne_zero positive.ne'
    have inside : j < htr.tail.length := by
      rw [List.length_tail]
      omega
    rw [sha1At, getD_succ_of_lt inside] at equal
    rw [getD_succ_of_lt inside] at counted
    have differs := List.findIdx?_eq_none_iff.mp found htr.tail[j] (List.getElem_mem inside)
    rw [decide_eq_true equal, counted] at differs
    cases differs

/-! ## The fragments of a file -/

variable (lib : Libzpaq)

/-- `addFragments` as `add` has it, with the list of fragments and its index. -/
def addIndexed (index : HTIndex) (ht : List HT) : List Bytes → List Nat × List HT
  | [] => ([], ht)
  | f :: rest =>
    let htptr := index.find ht (lib.sha1 f)
    if htptr = 0 then
      let grown := ht ++ [HT.of lib f]
      let (ptr, all) := addIndexed (index.update grown) grown rest
      (ht.length :: ptr, all)
    else
      let (ptr, all) := addIndexed index ht rest
      (htptr :: ptr, all)

/-- The list in the code for a list of fragments, of which number 0 is not used. -/
def table (ht : List Bytes) : List HT := .new :: ht.tail.map (HT.of lib)

variable {ht : List Bytes}

theorem length_table_eq (some : ht ≠ []) : (table lib ht).length = ht.length := by
  have positive := List.length_pos_of_ne_nil some
  rw [table, List.length_cons, List.length_map, List.length_tail]
  omega

theorem table_append (some : ht ≠ []) (f : Bytes) : table lib ht ++ [HT.of lib f] = table lib (ht ++ [f]) := by
  rw [table, table, List.tail_append_of_ne_nil some, List.map_append, List.map_singleton, List.cons_append]

theorem findFirst_table (ht : List Bytes) (f : Bytes) :
    findFirst (table lib ht) (lib.sha1 f) = Zpaq.find lib.sha1 ht f := by
  have same : ((fun e : HT => decide (e.sha1 = lib.sha1 f) && HTIndex.indexed e) ∘ HT.of lib) =
      fun g => decide (lib.sha1 g = lib.sha1 f) && decide (lib.sha1 g ≠ List.replicate 20 0) := by
    funext g
    simp only [HTIndex.indexed, HT.of, Function.comp_apply, Int.natCast_nonneg, decide_true, Bool.true_and]
    rfl
  rw [findFirst, Zpaq.find, table, List.tail_cons, List.findIdx?_map, same]
  cases ht.tail.findIdx? _ <;> rfl

/-- The induction is on the fragments of the file; after a new one the index has all of the longer list. -/
theorem addIndexed_table {index : HTIndex} (some : ht ≠ []) (indexes : index.Indexes (table lib ht))
    (complete : (table lib ht).length ≤ index.htsize) (file : List Bytes) :
    addIndexed lib index (table lib ht) file =
      ((addFragments lib.sha1 ht file).1, table lib (addFragments lib.sha1 ht file).2) := by
  induction file generalizing ht index with
  | nil => rfl
  | cons f file ih =>
    rw [addFragments, addIndexed, indexes.find_eq complete, findFirst_table]
    by_cases absent : Zpaq.find lib.sha1 ht f = 0
    · have some' : ht ++ [f] ≠ [] := List.append_ne_nil_of_left_ne_nil some [f]
      have indexes' : index.Indexes (table lib (ht ++ [f])) := table_append lib some f ▸ indexes.append _
      have next := ih some' indexes'.update (HTIndex.length_le_htsize_update _ index)
      rw [if_pos absent, if_pos absent]
      simp only [table_append lib some, next, length_table_eq lib some]
    · rw [if_neg absent, if_neg absent, ih some indexes complete]

theorem addIndexed_new (some : ht ≠ []) (sz : Nat) (file : List Bytes) :
    addIndexed lib (.create (table lib ht) sz) (table lib ht) file =
      ((addFragments lib.sha1 ht file).1, table lib (addFragments lib.sha1 ht file).2) :=
  addIndexed_table lib some (HTIndex.indexes_create _ sz) (HTIndex.length_le_htsize_update _ _) file

/-- Whatever the archive holds and however small the index is at first. -/
theorem addIndexed_create (issel : Bytes → Bool) (archive : Archive) (sz : Nat) (file : List Bytes) :
    addIndexed lib (.create (table lib (Zpaq.read_archive issel archive).ht) sz)
        (table lib (Zpaq.read_archive issel archive).ht) file =
      ((addFragments lib.sha1 (Zpaq.read_archive issel archive).ht file).1,
        table lib (addFragments lib.sha1 (Zpaq.read_archive issel archive).ht file).2) :=
  addIndexed_new lib (List.cons_ne_nil _ _) sz file

/-- The same for the list that `read_archive` has made of the bytes. -/
theorem Reads.addIndexed_eq {lib : Libzpaq} {options : Options} {bytes : Bytes} {done : List Addition} {st : ReadState}
    (reads : Reads lib options bytes done st) (sz : Nat) (file : List Bytes) :
    addIndexed lib (.create st.ht sz) st.ht file =
      ((addFragments lib.sha1 (contents (done.map Addition.update)).ht file).1,
        table lib (addFragments lib.sha1 (contents (done.map Addition.update)).ht file).2) := by
  have list : st.ht = table lib (contents (done.map Addition.update)).ht := reads.ht
  rw [list]
  exact addIndexed_new lib (List.cons_ne_nil _ _) sz file

end BackupSuite.Zpaq.Journal
