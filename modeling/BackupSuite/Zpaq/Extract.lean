import BackupSuite.Library.SparseFile
import BackupSuite.Zpaq.Archive

/-! # The extract command

`zpaq x archive -to output -t1` into an empty location.  No file is named, so the
project's `rename` maps every file of the archive to `output`: all of them are written to
one file, block by block and, in a block, in the order of their names.
`writeFragments_spec` says what the loop over the pointers of one file writes of it.
-/

namespace BackupSuite.Zpaq

open BackupSuite.Library BackupSuite.CtrlCenter

/-- The output file. -/
structure Target where
  /-- how many fragments of a file have been written -/
  data : Bytes → Nat
  /-- the file that the output is open for -/
  lastdt : Option Bytes
  output : Option Bytes
  /-- the mode that the output has been given -/
  mode : Option Nat

def Target.start : Target := ⟨fun _ => 0, none, none, none⟩

/-- `opens` says which modes allow to open the output again; the first fragment of a file
empties it. -/
def openFor (opens : Nat → Bool) (p : Member) (t : Target) : Option Target :=
  if t.lastdt = some p.name then some t
  else if t.data p.name = 0 then
    if t.mode.all opens then some { t with lastdt := some p.name, output := some [] } else none
  else if t.output.isSome && t.mode.all opens then some { t with lastdt := some p.name }
  else none

/-- How many of the pointers behind `ptr` go into the same write. -/
def groupLength (c : Contents) (stop : Nat) (ptr usize : Nat) : List Nat → Nat
  | [] => 0
  | next :: rest =>
    if next = ptr + 1 ∧ next < stop ∧ usize + (c.frag next).length ≤ 2147483647 then
      groupLength c stop next (usize + (c.frag next).length) rest + 1
    else 0

/-- Zeros are left out unless they end the file; with its last fragment the file is closed. -/
def writeGroup (p : Member) (offset : Nat) (bytes : Bytes) (count : Nat) (last : Bool)
    (t : Target) : Target :=
  let data := t.data p.name + count
  let closed := data = p.ptr.length
  { data := fun name => if name = p.name then data else t.data name
    lastdt := if closed then none else t.lastdt
    output :=
      if bytes.any (· ≠ 0) || last then t.output.map fun file => writeAt 0 file offset bytes
      else t.output
    mode := if closed ∧ p.attr % 256 = 117 then some (p.attr / 256) else t.mode }

/-- The loop over the pointers of a file; those of a group behind its first are skipped. -/
def writeFragments (opens : Nat → Bool) (c : Contents) (b : Block) (size : Nat) (p : Member) :
    List Nat → (skip : Nat) → (offset : Nat) → Target → Target
  | [], _, _, t => t
  | _ :: rest, skip + 1, offset, t => writeFragments opens c b size p rest skip offset t
  | ptr :: rest, 0, offset, t =>
    if ptr < b.start ∨ b.start + size ≤ ptr then
      writeFragments opens c b size p rest 0 (offset + (c.frag ptr).length) t
    else
      match openFor opens p t with
      | none => { t with lastdt := none }
      | some t =>
        let more := groupLength c (b.start + size) ptr (c.frag ptr).length rest
        let bytes := ((b.frags.drop (ptr - b.start)).take (more + 1)).flatten
        writeFragments opens c b size p rest more (offset + bytes.length)
          (writeGroup p offset bytes (more + 1) (more = rest.length) t)

/-- The files to extract. -/
def labelled (c : Contents) : List Member :=
  if c.block = [] then []
  else c.files.filter fun p =>
    p.date ≠ 0 && isFileName p.name && p.ptr.all fun j => 0 < j && j < c.ht.length

/-- How many of the block's fragments are decompressed. -/
def blockSize (files : List Member) (b : Block) : Nat :=
  ((files.flatMap Member.ptr).filter fun j => b.Has j).foldl (fun size j => max size (j - b.start + 1)) 0

def extractMember (opens : Nat → Bool) (c : Contents) (b : Block) (size : Nat) (t : Target)
    (p : Member) : Target :=
  if p.ptr.length ≤ t.data p.name then t else writeFragments opens c b size p p.ptr 0 0 t

def extractBlock (opens : Nat → Bool) (c : Contents) (files : List Member) (t : Target)
    (b : Block) : Target :=
  (files.filter fun p => p.ptr.any fun j => b.Has j).foldl
    (extractMember opens c b (blockSize files b)) t

/-- `x archive -to output`: what is in the output file, if there is one. -/
def extract (opens : Nat → Bool) (archive : Archive) : Option Bytes :=
  let c := contents archive
  (c.block.foldl (extractBlock opens c (labelled c)) .start).output

/-! ## The groups of a file in a block -/

variable {opens : Nat → Bool} {c : Contents} {b : Block} {size : Nat} {q : Member}

theorem writeFragments_skip (ptrs : List Nat) (skip offset : Nat) (t : Target) :
    writeFragments opens c b size q ptrs skip offset t =
      writeFragments opens c b size q (ptrs.drop skip) 0 offset t := by
  induction ptrs generalizing skip with
  | nil => cases skip <;> rfl
  | cons ptr rest ih =>
    cases skip with
    | zero => rfl
    | succ skip =>
      rw [writeFragments, List.drop_succ_cons]
      exact ih skip

theorem groupLength_spec (stop ptr usize : Nat) (rest : List Nat) :
    groupLength c stop ptr usize rest ≤ rest.length ∧
      rest.take (groupLength c stop ptr usize rest) =
        List.range' (ptr + 1) (groupLength c stop ptr usize rest) ∧
      (groupLength c stop ptr usize rest ≠ 0 →
        ptr + groupLength c stop ptr usize rest < stop) := by
  induction rest generalizing ptr usize with
  | nil => exact ⟨Nat.le_refl _, rfl, fun some => (some rfl).elim⟩
  | cons next rest ih =>
    rw [groupLength]
    split
    · next continues =>
      obtain ⟨rfl, inside, -⟩ := continues
      obtain ⟨bound, run, stops⟩ := ih (ptr + 1) (usize + (c.frag (ptr + 1)).length)
      refine ⟨by simpa using bound, ?_, fun _ => ?_⟩
      · rw [List.take_succ_cons, run, List.range'_succ]
      · by_cases none : groupLength c stop (ptr + 1) (usize + (c.frag (ptr + 1)).length) rest = 0
        · omega
        · have high := stops none
          omega
    · exact ⟨Nat.zero_le _, rfl, fun some => (some rfl).elim⟩

/-- The block's fragments are the archive's. -/
def Block.Stored (b : Block) (c : Contents) : Prop :=
  ∀ j, b.Has j → b.frags[j - b.start]? = some (c.frag j)

theorem flatMap_range' (stored : b.Stored c) {ptr count : Nat} (low : b.start ≤ ptr)
    (high : ptr + count ≤ b.start + b.frags.length) :
    (List.range' ptr count).flatMap c.frag =
      ((b.frags.drop (ptr - b.start)).take count).flatten := by
  induction count generalizing ptr with
  | zero => simp
  | succ count ih =>
    have has : b.Has ptr := ⟨low, by omega⟩
    have here := stored ptr has
    obtain ⟨inside, frag⟩ := List.getElem?_eq_some_iff.mp here
    have next : ptr + 1 - b.start = ptr - b.start + 1 := by omega
    rw [List.range'_succ, List.flatMap_cons, ih (by omega) (by omega),
      List.drop_eq_getElem_cons inside, List.take_succ_cons, List.flatten_cons, frag, next]

theorem groupLength_group (stored : b.Stored c) (sizeLe : size ≤ b.frags.length) {ptr : Nat}
    (has : b.Has ptr) (inSize : ptr < b.start + size) {rest : List Nat} {more : Nat}
    (length : groupLength c (b.start + size) ptr (c.frag ptr).length rest = more) :
    more ≤ rest.length ∧ (∀ j ∈ (ptr :: rest).take (more + 1), b.Has j) ∧
      ((ptr :: rest).take (more + 1)).flatMap c.frag =
        ((b.frags.drop (ptr - b.start)).take (more + 1)).flatten := by
  obtain ⟨moreLe, run, stops⟩ := groupLength_spec (c := c) (b.start + size) ptr
    (c.frag ptr).length rest
  rw [length] at moreLe run stops
  have high : ptr + more < b.start + size := by
    by_cases none : more = 0
    · omega
    · exact stops none
  have group : (ptr :: rest).take (more + 1) = List.range' ptr (more + 1) := by
    rw [List.take_succ_cons, run, List.range'_succ]
  rw [group]
  refine ⟨moreLe, fun j mem => ?_, flatMap_range' stored has.1 (by omega)⟩
  rw [List.mem_range'_1] at mem
  have low := has.1
  exact ⟨by omega, by omega⟩

theorem read_archive_stored {issel : Bytes → Bool} (archive : Archive) :
    ∀ b ∈ (read_archive issel archive).block, b.Stored (read_archive issel archive) := by
  intro b mem j has
  have low := (mem_layout mem).1
  have high := (mem_layout mem).2
  obtain ⟨fromStart, toEnd⟩ := has
  obtain ⟨i, rfl⟩ : ∃ i, j = i + 1 := ⟨j - 1, by omega⟩
  have inside : i < (archive.flatMap Update.blocks).flatten.length := by omega
  rw [← layout_frags mem ⟨fromStart, toEnd⟩, Nat.add_sub_cancel, List.getElem?_eq_getElem inside,
    Contents.frag, read_archive, List.getD_cons_succ, List.getD_eq_getElem?_getD,
    List.getElem?_eq_getElem inside, Option.getD_some]

/-! ## The loop over the pointers -/

/-- The output is open for the file, or the file is complete. -/
def Active (q : Member) (t : Target) : Prop :=
  t.lastdt = some q.name ∨ t.data q.name = q.ptr.length

/-- What the loop knows when it comes to the pointers `ptrs`. -/
structure Reading (c : Contents) (b : Block) (size : Nat) (q : Member) (content : Bytes)
    (ptrs : List Nat) (offset : Nat) (file : Bytes) (t : Target) : Prop where
  sized : ∀ j ∈ ptrs, b.Has j → j < b.start + size
  rest : content.drop offset = ptrs.flatMap c.frag
  upto : offset + (ptrs.flatMap c.frag).length = content.length
  output : t.output = some file
  active : Active q t
  data : t.data q.name + (ptrs.countP fun j => b.Has j) ≤ q.ptr.length

/-- What the loop over `ptrs` has written of the content from `offset` on, in spans:
all of the block's fragments in it but zeros that are not the last. -/
structure Written (c : Contents) (b : Block) (q : Member) (content : Bytes) (ptrs : List Nat)
    (offset : Nat) (file : Bytes) (t t' : Target) (spans : List Span) : Prop where
  output : t'.output = some (writeSpans 0 content file spans)
  data : t'.data q.name = t.data q.name + ptrs.countP fun j => b.Has j
  active : Active q t'
  inside : ∀ s ∈ spans, s.offset + s.length ≤ content.length
  covered : ∀ i, (bound : i < ptrs.length) → b.Has ptrs[i] →
    ((∃ byte ∈ c.frag ptrs[i], byte ≠ 0) ∨ i + 1 = ptrs.length) →
    ∃ s ∈ spans, s.offset ≤ offset + ((ptrs.take i).flatMap c.frag).length ∧
      offset + ((ptrs.take (i + 1)).flatMap c.frag).length ≤ s.offset + s.length

theorem length_take_flatMap_le (c : Contents) (ptrs : List Nat) {i j : Nat} (le : i ≤ j) :
    ((ptrs.take i).flatMap c.frag).length ≤ ((ptrs.take j).flatMap c.frag).length := by
  have split : ptrs.take j = ptrs.take i ++ (ptrs.take j).drop i := by
    conv_lhs => rw [← List.take_append_drop i (ptrs.take j)]
    rw [List.take_take, Nat.min_eq_left le]
  rw [split, List.flatMap_append, List.length_append]
  exact Nat.le_add_right _ _

theorem writeGroup_data {offset : Nat} {bytes : Bytes} {count : Nat} {last : Bool} {t : Target} :
    (writeGroup q offset bytes count last t).data q.name = t.data q.name + count := by
  simp [writeGroup]

theorem writeGroup_active {offset : Nat} {bytes : Bytes} {count : Nat} {last : Bool} {t : Target}
    (isOpen : t.lastdt = some q.name) : Active q (writeGroup q offset bytes count last t) := by
  by_cases closed : t.data q.name + count = q.ptr.length
  · right
    rw [writeGroup_data, closed]
  · left
    simp [writeGroup, closed, isOpen]

theorem writeGroup_output (q : Member) (count : Nat) (last : Bool) {offset : Nat} {bytes : Bytes}
    {t : Target} {content file rest : Bytes} (output : t.output = some file)
    (following : content.drop offset = bytes ++ rest)
    (inside : offset + bytes.length ≤ content.length) :
    ∃ mine, (writeGroup q offset bytes count last t).output =
        some (writeSpans 0 content file mine) ∧
      (∀ s ∈ mine, s.offset + s.length ≤ content.length) ∧
      ((∃ byte ∈ bytes, byte ≠ 0) ∨ last = true →
        ∃ s ∈ mine, s.offset = offset ∧ s.offset + s.length = offset + bytes.length) := by
  have span : Span.bytes content ⟨offset, bytes.length⟩ = bytes := by
    rw [Span.bytes, following, List.take_left]
  by_cases writes : (bytes.any (· ≠ 0) || last) = true
  · refine ⟨[⟨offset, bytes.length⟩], ?_, ?_, fun _ => ⟨_, List.mem_singleton_self _, rfl, rfl⟩⟩
    · simp only [writeGroup, writes, if_true, output, Option.map_some]
      rw [writeSpans_cons, span]
      rfl
    · intro s mem
      rw [List.mem_singleton.mp mem]
      exact inside
  · refine ⟨[], ?_, fun _ mem => (by cases mem), fun which => (writes ?_).elim⟩
    · simp only [writeGroup, writes, output]
      rfl
    · rcases which with ⟨byte, mem, some⟩ | rfl
      · rw [List.any_eq_true.mpr ⟨byte, mem, by simpa using some⟩, Bool.true_or]
      · exact Bool.or_true _

/-! ### A pointer that is passed over -/

theorem Reading.pass {content file : Bytes} {ptr : Nat} {rest : List Nat} {offset : Nat}
    {t : Target} (reading : Reading c b size q content (ptr :: rest) offset file t)
    (outside : ¬ b.Has ptr) :
    Reading c b size q content rest (offset + (c.frag ptr).length) file t where
  sized := fun j mem => reading.sized j (List.mem_cons_of_mem _ mem)
  rest := by rw [← List.drop_drop, reading.rest, List.flatMap_cons, List.drop_left]
  upto := by
    have upto := reading.upto
    rw [List.flatMap_cons, List.length_append] at upto
    omega
  output := reading.output
  active := reading.active
  data := by
    have data := reading.data
    rwa [List.countP_cons_of_neg (by simpa using outside)] at data

theorem Written.pass {content file : Bytes} {ptr : Nat} {rest : List Nat} {offset : Nat}
    {t t' : Target} {spans : List Span} (outside : ¬ b.Has ptr)
    (written : Written c b q content rest (offset + (c.frag ptr).length) file t t' spans) :
    Written c b q content (ptr :: rest) offset file t t' spans where
  output := written.output
  data := by
    rw [List.countP_cons_of_neg (by simpa using outside)]
    exact written.data
  active := written.active
  inside := written.inside
  covered := fun i bound has which => by
    cases i with
    | zero => exact (outside has).elim
    | succ i =>
      have inner := written.covered i (by simpa using bound) has
        (which.imp id fun last => by simpa using last)
      simpa [List.flatMap_cons, Nat.add_assoc] using inner

/-! ### A group of the block -/

section Group

variable {content file : Bytes} {ptr more offset : Nat} {rest : List Nat} {t t' : Target}
  {bytes : Bytes} (all : ∀ j ∈ (ptr :: rest).take (more + 1), b.Has j)
  (fragments : ((ptr :: rest).take (more + 1)).flatMap c.frag = bytes)
  (moreLe : more ≤ rest.length)

include all moreLe in
theorem countP_group : (ptr :: rest).countP (fun j => b.Has j) =
    more + 1 + (rest.drop more).countP fun j => b.Has j := by
  have group : ((ptr :: rest).take (more + 1)).countP (fun j => b.Has j) = more + 1 := by
    rw [List.countP_eq_length.mpr fun j mem => by simpa using all j mem, List.length_take,
      List.length_cons]
    omega
  conv_lhs => rw [← List.take_append_drop (more + 1) (ptr :: rest)]
  rw [List.countP_append, group, List.drop_succ_cons]

include fragments in
theorem take_group (k : Nat) : ((ptr :: rest).take (more + 1 + k)).flatMap c.frag =
    bytes ++ ((rest.drop more).take k).flatMap c.frag := by
  rw [List.take_add, List.flatMap_append, fragments, List.drop_succ_cons]

include fragments in
theorem Reading.following (reading : Reading c b size q content (ptr :: rest) offset file t) :
    content.drop offset = bytes ++ (rest.drop more).flatMap c.frag := by
  rw [reading.rest, ← fragments, ← List.flatMap_append, ← List.drop_succ_cons,
    List.take_append_drop]

include all fragments moreLe in
theorem Reading.group (reading : Reading c b size q content (ptr :: rest) offset file t)
    (isOpen : t.lastdt = some q.name) {last : Bool} {grown : Bytes}
    (output : (writeGroup q offset bytes (more + 1) last t).output = some grown) :
    Reading c b size q content (rest.drop more) (offset + bytes.length) grown
      (writeGroup q offset bytes (more + 1) last t) where
  sized := fun j mem => reading.sized j (List.mem_cons_of_mem _ (List.mem_of_mem_drop mem))
  rest := by rw [← List.drop_drop, reading.following fragments, List.drop_left]
  upto := by
    have whole := reading.upto
    rw [← reading.rest, reading.following fragments, List.length_append] at whole
    omega
  output := output
  active := writeGroup_active isOpen
  data := by
    have data := reading.data
    rw [countP_group all moreLe] at data
    rw [writeGroup_data]
    omega

include all fragments moreLe in
/-- The spans of the group and those of the loop behind it. -/
theorem Written.group {mine spans : List Span}
    (mineInside : ∀ s ∈ mine, s.offset + s.length ≤ content.length)
    (mineCovers : (∃ byte ∈ bytes, byte ≠ 0) ∨ decide (more = rest.length) = true →
      ∃ s ∈ mine, s.offset = offset ∧ s.offset + s.length = offset + bytes.length)
    (written : Written c b q content (rest.drop more) (offset + bytes.length)
      (writeSpans 0 content file mine)
      (writeGroup q offset bytes (more + 1) (decide (more = rest.length)) t) t' spans) :
    Written c b q content (ptr :: rest) offset file t t' (mine ++ spans) where
  output := by
    rw [writeSpans_append]
    exact written.output
  data := by
    rw [written.data, writeGroup_data, countP_group all moreLe]
    omega
  active := written.active
  inside := by
    intro s mem
    cases List.mem_append.mp mem with
    | inl first => exact mineInside s first
    | inr later => exact written.inside s later
  covered := by
    intro i bound has which
    -- the span of the group covers its fragments, the spans of the rest the later ones
    by_cases inGroup : i ≤ more
    · have writes : (∃ byte ∈ bytes, byte ≠ 0) ∨ decide (more = rest.length) = true := by
        rcases which with ⟨byte, mem, some⟩ | last
        · left
          refine ⟨byte, ?_, some⟩
          rw [← fragments, List.mem_flatMap]
          exact ⟨_, List.mem_take_iff_getElem.mpr ⟨i, by simp; omega, rfl⟩, mem⟩
        · right
          rw [List.length_cons] at last
          exact decide_eq_true (by omega)
      obtain ⟨s, mem, low, high⟩ := mineCovers writes
      have le := length_take_flatMap_le c (ptr :: rest) (show i + 1 ≤ more + 1 by omega)
      rw [fragments] at le
      exact ⟨s, List.mem_append_left _ mem, by omega, by omega⟩
    · obtain ⟨k, rfl⟩ : ∃ k, i = more + 1 + k := ⟨i - (more + 1), by omega⟩
      have behind : k < (rest.drop more).length := by
        rw [List.length_cons] at bound
        rw [List.length_drop]
        omega
      have same : (ptr :: rest)[more + 1 + k] = (rest.drop more)[k] := by
        simp [Nat.add_right_comm more 1 k]
      rw [same] at has which
      obtain ⟨s, mem, low, high⟩ := written.covered k behind has (which.imp id fun last => by
        rw [List.length_cons] at last
        rw [List.length_drop]
        omega)
      refine ⟨s, List.mem_append_right _ mem, ?_, ?_⟩
      · rw [take_group fragments, List.length_append]
        omega
      · rw [Nat.add_assoc, take_group fragments, List.length_append]
        omega

end Group

/-- The loop over a file that the output is open for. -/
theorem writeFragments_spec (opens : Nat → Bool) (stored : b.Stored c)
    (sizeLe : size ≤ b.frags.length) {content : Bytes} (ptrs : List Nat) {offset : Nat}
    {file : Bytes} {t : Target} (reading : Reading c b size q content ptrs offset file t) :
    ∃ spans, Written c b q content ptrs offset file t
      (writeFragments opens c b size q ptrs 0 offset t) spans := by
  -- strong induction, since a group takes the next `more` fragments along
  induction bound : ptrs.length using Nat.strong_induction_on generalizing ptrs offset file t with
  | _ n ih =>
  subst bound
  cases ptrs with
  | nil =>
    exact ⟨[], reading.output, rfl, reading.active, (fun _ mem => by cases mem),
      fun i bound => absurd bound (Nat.not_lt_zero i)⟩
  | cons ptr rest =>
    by_cases has : b.Has ptr
    · have inSize := reading.sized ptr List.mem_cons_self has
      have inBlock : ¬ (ptr < b.start ∨ b.start + size ≤ ptr) := by
        have low := has.1
        omega
      have counted : 0 < (ptr :: rest).countP fun j => b.Has j :=
        List.countP_pos_iff.mpr ⟨ptr, List.mem_cons_self, by simpa using has⟩
      have isOpen : t.lastdt = some q.name := by
        cases reading.active with
        | inl isOpen => exact isOpen
        | inr complete =>
          have data := reading.data
          omega
      have opened : openFor opens q t = some t := by rw [openFor, if_pos isOpen]
      generalize groupIs : groupLength c (b.start + size) ptr (c.frag ptr).length rest = more
      obtain ⟨moreLe, all, fragments⟩ := groupLength_group stored sizeLe has inSize groupIs
      rw [writeFragments, if_neg inBlock, opened]
      simp only [groupIs]
      rw [writeFragments_skip]
      have following := reading.following fragments
      have inside := reading.upto
      rw [← reading.rest, following, List.length_append] at inside
      obtain ⟨mine, output, mineInside, mineCovers⟩ :=
        writeGroup_output q (more + 1) (decide (more = rest.length)) reading.output following
          (by omega)
      have shorter : (rest.drop more).length < (ptr :: rest).length := by
        rw [List.length_drop, List.length_cons]
        omega
      obtain ⟨spans, written⟩ := ih _ shorter (rest.drop more)
        (reading.group all fragments moreLe isOpen output) rfl
      exact ⟨mine ++ spans, written.group all fragments moreLe mineInside mineCovers⟩
    · have outside : ptr < b.start ∨ b.start + size ≤ ptr := by
        rw [Block.Has] at has
        omega
      rw [writeFragments, if_pos outside]
      obtain ⟨spans, written⟩ := ih rest.length (by simp) rest (reading.pass has) rfl
      exact ⟨spans, written.pass has⟩

end BackupSuite.Zpaq
