import Mathlib.Algebra.GroupWithZero.Nat
import Mathlib.Data.List.Infix
import Mathlib.Data.List.Sort
import BackupSuite.Library.KeyedList
import BackupSuite.Zpaq.Fragments

/-! # A zpaq archive and what `read_archive` makes of it

An archive is a sequence of updates, each with blocks of fragments and index entries.
Reading it numbers the fragments, puts the index entries of the selected files one after
the other, and knows where each block of fragments starts (`layout`).  Blocks are stored
without loss.
-/

namespace BackupSuite.Zpaq

open BackupSuite.Library BackupSuite.CtrlCenter

/-! ## Names and dates -/

/-- `a` is `b` or a folder of `b`; `?` stands for any byte and `*` for any bytes. -/
def ispath : Bytes → Bytes → Bool
  | [], b => b = [] ∨ b.head? = some 47
  | ca :: a, b =>
    if ca = 42 then b.tails.any (ispath a)
    else
      match b with
      | [] => false
      | cb :: b =>
        if ca = 63 then ispath a b
        else if ca = cb ∧ ca = 47 ∧ a = [] then true
        else if ca ≠ cb then false
        else ispath a b

/-- Seconds since 1970 as a decimal YYYYMMDDHHMMSS; 0 stands for a deleted file. -/
def decimal_time (tt : Int) : Int :=
  let t := if tt = -1 then 0 else tt
  let second := t.tmod 60
  let minute := (t.tdiv 60).tmod 60
  let hour := (t.tdiv 3600).tmod 24
  let t := t.tdiv 86400
  let term := (t.tdiv 1461).bmod 4294967296
  let t := t.tmod 1461
  let t := t + if 59 ≤ t then 1 else 0
  let t := t + if 425 ≤ t then 1 else 0
  let t := t + if 1157 ≤ t then 1 else 0
  let year := (term * 4 + t.tdiv 366 + 1970).bmod 4294967296
  let t := t.tmod 366
  let t := t + if 60 ≤ t then 2 else 0
  let t := t + if 123 ≤ t then 1 else 0
  let t := t + if 185 ≤ t then 1 else 0
  let t := t + if 278 ≤ t then 1 else 0
  let t := t + if 340 ≤ t then 1 else 0
  let month := t.tdiv 31 + 1
  let day := t.tmod 31 + 1
  (year * 10000000000 + month * 100000000 + day * 1000000 + hour * 10000 + minute * 100 +
    second).bmod 18446744073709551616

/-- Not empty and no folder. -/
def isFileName (name : Bytes) : Bool := name ≠ [] && name.getLast? ≠ some 47

/-! ## The archive -/

/-- An index entry; a deletion has the date 0 and nothing else. -/
structure Member where
  name : Bytes
  date : Int
  attr : Nat
  ptr : List Nat
deriving DecidableEq, Repr

def deletion (name : Bytes) : Member := ⟨name, 0, 0, []⟩

structure Update where
  blocks : List (List Bytes)
  index : List Member
deriving DecidableEq, Repr

abbrev Archive := List Update

structure Block where
  start : Nat
  frags : List Bytes
deriving DecidableEq, Repr

/-- The numbers of the block's fragments. -/
def Block.Has (b : Block) (j : Nat) : Prop := b.start ≤ j ∧ j < b.start + b.frags.length

instance (b : Block) (j : Nat) : Decidable (b.Has j) := inferInstanceAs (Decidable (_ ∧ _))

/-- Blocks one behind the other, numbered from `start`. -/
def layout (start : Nat) : List (List Bytes) → List Block
  | [] => []
  | frags :: rest => ⟨start, frags⟩ :: layout (start + frags.length) rest

/-- The fragments, of which number 0 is not used, the blocks and the files. -/
structure Contents where
  ht : List Bytes
  block : List Block
  dt : List Member

def read_archive (issel : Bytes → Bool) (archive : Archive) : Contents :=
  let stored := archive.flatMap Update.blocks
  { ht := [] :: stored.flatten
    block := layout 1 stored
    dt := putAll Member.name
      ((archive.flatMap Update.index).filter fun p => issel p.name) [] }

/-- What is read when no file is named. -/
abbrev contents (archive : Archive) : Contents := read_archive (fun _ => true) archive

namespace Contents

variable (c : Contents)

def frag (j : Nat) : Bytes := c.ht.getD j []

/-- The size of a file with these fragments; a number without a fragment adds nothing. -/
def size (ptr : List Nat) : Nat := (ptr.map fun j => (c.frag j).length).sum

/-- The files in the order of the map. -/
def files : List Member := c.dt.insertionSort fun p q => p.name ≤ q.name

end Contents

/-- The least number with this hash, or 0; an all-zero hash is not in the index. -/
def find (sha1 : Bytes → Bytes) (ht : List Bytes) (fragment : Bytes) : Nat :=
  match ht.tail.findIdx? fun f => sha1 f = sha1 fragment && sha1 f ≠ List.replicate 20 0 with
  | some i => i + 1
  | none => 0

/-! ## Facts about names -/

theorem ispath_self (a : Bytes) : ispath a a = true := by
  induction a with
  | nil => rfl
  | cons ca a ih =>
    rw [ispath]
    split
    · rw [List.any_eq_true]
      exact ⟨a, (List.mem_tails _ _).mpr (List.suffix_cons _ _), ih⟩
    · simp only [ih, ne_eq, not_true_eq_false, if_false, ite_self]

/-! ## Where the fragments are -/

@[simp] theorem layout_nil (start : Nat) : layout start [] = [] := rfl

theorem layout_append (start : Nat) (l m : List (List Bytes)) :
    layout start (l ++ m) = layout start l ++ layout (start + l.flatten.length) m := by
  induction l generalizing start with
  | nil => rfl
  | cons frags l ih =>
    simp only [List.cons_append, layout, ih, List.flatten_cons, List.length_append, Nat.add_assoc]

theorem mem_layout {start : Nat} {l : List (List Bytes)} {b : Block} (mem : b ∈ layout start l) :
    start ≤ b.start ∧ b.start + b.frags.length ≤ start + l.flatten.length := by
  induction l generalizing start with
  | nil => cases mem
  | cons frags l ih =>
    rw [List.flatten_cons, List.length_append]
    cases mem with
    | head => exact ⟨Nat.le_refl _, by rw [← Nat.add_assoc]; exact Nat.le_add_right _ _⟩
    | tail _ mem =>
      have inner := ih mem
      omega

theorem layout_ordered {start : Nat} {l : List (List Bytes)} {b b' : Block}
    (mem : b ∈ layout start l) (mem' : b' ∈ layout start l) :
    b = b' ∨ b.start + b.frags.length ≤ b'.start ∨ b'.start + b'.frags.length ≤ b.start := by
  induction l generalizing start with
  | nil => cases mem
  | cons frags l ih =>
    cases mem with
    | head =>
      cases mem' with
      | head => exact Or.inl rfl
      | tail _ mem' => exact Or.inr (Or.inl (mem_layout mem').1)
    | tail _ mem =>
      cases mem' with
      | head => exact Or.inr (Or.inr (mem_layout mem).1)
      | tail _ mem' => exact ih mem mem'

theorem exists_block {start j : Nat} {l : List (List Bytes)} (low : start ≤ j)
    (high : j < start + l.flatten.length) : ∃ b ∈ layout start l, b.Has j := by
  induction l generalizing start with
  | nil =>
    simp only [List.flatten_nil, List.length_nil] at high
    omega
  | cons frags l ih =>
    rw [List.flatten_cons, List.length_append] at high
    by_cases here : j < start + frags.length
    · exact ⟨⟨start, frags⟩, List.mem_cons_self, low, here⟩
    · obtain ⟨b, mem, has⟩ := ih (by omega : start + frags.length ≤ j) (by omega)
      exact ⟨b, List.mem_cons_of_mem _ mem, has⟩

theorem contents_exists_block {archive : Archive} {j : Nat} (low : 0 < j)
    (high : j < (contents archive).ht.length) : ∃ b ∈ (contents archive).block, b.Has j := by
  rw [contents, read_archive, List.length_cons, Nat.add_comm] at high
  exact exists_block low high

theorem layout_frags {start : Nat} {l : List (List Bytes)} {b : Block} (mem : b ∈ layout start l)
    {j : Nat} (has : b.Has j) : l.flatten[j - start]? = b.frags[j - b.start]? := by
  induction l generalizing start with
  | nil => cases mem
  | cons frags l ih =>
    rw [List.flatten_cons]
    cases mem with
    | head =>
      have inside : j - start < frags.length := by
        have high := has.2
        have low := has.1
        simp only at high low
        omega
      rw [List.getElem?_append_left inside]
    | tail _ mem =>
      have low := (mem_layout mem).1
      have inside := has.1
      rw [List.getElem?_append_right (by omega), ← ih mem]
      congr 1
      omega

/-! ## What a further update changes -/

section Read

variable (issel : Bytes → Bool) (archive : Archive)

theorem read_archive_concat (update : Update) :
    read_archive issel (archive ++ [update]) =
      { ht := (read_archive issel archive).ht ++ update.blocks.flatten
        block := (read_archive issel archive).block ++
          layout (read_archive issel archive).ht.length update.blocks
        dt := putAll Member.name (update.index.filter fun p => issel p.name)
          (read_archive issel archive).dt } := by
  simp [read_archive, layout_append, putAll_append, Nat.add_comm]

theorem nodup_dt : ((read_archive issel archive).dt.map Member.name).Nodup :=
  nodup_keys_putAll List.nodup_nil

theorem lookup_selected (name : Bytes) :
    lookup Member.name name (read_archive issel archive).dt =
      if issel name then lookup Member.name name (contents archive).dt
      else none := by
  simp [read_archive, lookup_putAll, lastWith_filter]

theorem mem_files {p : Member} :
    p ∈ (read_archive issel archive).files ↔ p ∈ (read_archive issel archive).dt :=
  (List.perm_insertionSort _ _).mem_iff

end Read

/-! ## Finding a fragment -/

/-- What is found is a stored fragment with the hash. -/
theorem find_cases (sha1 : Bytes → Bytes) (ht : List Bytes) (fragment : Bytes) :
    find sha1 ht fragment = 0 ∨
      0 < find sha1 ht fragment ∧ find sha1 ht fragment < ht.length ∧
        ∃ f ∈ ht.tail, ht.getD (find sha1 ht fragment) [] = f ∧ sha1 f = sha1 fragment := by
  rw [find]
  split
  · next i found =>
    right
    obtain ⟨inside, hash, -⟩ := List.findIdx?_eq_some_iff_getElem.mp found
    have bound : i + 1 < ht.length := by
      rw [List.length_tail] at inside
      omega
    refine ⟨Nat.succ_pos i, bound, ht.tail[i], List.getElem_mem inside, ?_, ?_⟩
    · rw [List.getD_eq_getElem?_getD, List.getElem?_eq_getElem bound, List.getElem_tail]
      rfl
    · simp only [Bool.and_eq_true, decide_eq_true_eq] at hash
      exact hash.1
  · exact Or.inl rfl

end BackupSuite.Zpaq
