import BackupSuite.Zpaq.Extract
import BackupSuite.Zpaq.JournalRuns
import BackupSuite.Zpaq.Newest

/-! # Fragments out of the bytes

What a thread of the extract job does with a block: it decompresses as much of the block as
it needs, and takes the fragments off one by one, each with its size and hash.  A block that
fails is skipped.  Of an archive that adds have written no block fails
(`run_blocks`), and so a file that has been added comes back from the bytes (`run_restores`).
-/

namespace BackupSuite.Zpaq.Journal

open BackupSuite.Library BackupSuite.CtrlCenter

/-- What a block has been decompressed to when `needed` bytes were asked for: decompression goes on in pieces until
they are there, and from one segment to the next. -/
inductive Decompressed : (needed : Nat) → List Segment → (out : Bytes) → Prop where
  | enough {needed : Nat} {seg : Segment} {rest : List Segment} {data out : Bytes} (whole : seg.data = .ok data)
      (front : out <+: data) (enough : needed ≤ out.length) : Decompressed needed (seg :: rest) out
  | further {needed : Nat} {seg : Segment} {rest : List Segment} {data out : Bytes} (whole : seg.data = .ok data)
      (short : data.length < needed) (behind : Decompressed (needed - data.length) rest out) :
      Decompressed needed (seg :: rest) (data ++ out)

namespace ReadState

variable (lib : Libzpaq) (st : ReadState)

def usize (j : Nat) : Int := (st.ht.getD j .new).usize

/-- How many bytes the first `size` fragments of a block have, in 32 bits. -/
def output_size (b : Block) (size : Nat) : Nat :=
  (((List.range' b.start size).map fun j => st.usize j).sum % 4294967296).toNat

/-- The next `size` fragments, from number `j` on, or none if one of them does not have its size and hash. -/
def verifyFragments (out : Bytes) (j : Nat) : (size : Nat) → Option (List Bytes)
  | 0 => some []
  | size + 1 =>
    let n := (st.usize j).toNat
    if out.length < n then none
    else if lib.sha1 (out.take n) ≠ (st.ht.getD j .new).sha1 then none
    else (verifyFragments (out.drop n) (j + 1) size).map (out.take n :: ·)

/-- The fragments of a block that has been decompressed to `out`; the limit is the size of the block. -/
def extractFragments (b : Block) (size : Nat) (out : Bytes) : Option (List Bytes) :=
  if (out.length : Int) ≤ b.usize ∧ st.output_size b size ≤ out.length then st.verifyFragments lib out b.start size else none

end ReadState

/-! ## A block that is stored -/

section

variable {lib : Libzpaq} {options : Options} {bytes : Bytes} {done : List Addition} {st : ReadState}

theorem length_blockData (frags : List Bytes) : (Addition.blockData frags).length = frags.flatten.length + (4 * frags.length + 8) := by
  have sizes : (frags.flatMap fun f => puti f.length 4).length = 4 * frags.length := by
    induction frags with
    | nil => rfl
    | cons f frags ih =>
      rw [List.flatMap_cons, List.length_append, ih, length_puti, List.length_cons]
      omega
  simp only [Addition.blockData, List.length_append, sizes, length_puti]
  omega

/-- The fragments are in the table under their numbers. -/
def Tables (lib : Libzpaq) (st : ReadState) (j : Nat) (frags : List Bytes) : Prop :=
  ∀ i, (inside : i < frags.length) → st.ht.getD (j + i) .new = HT.of lib frags[i]

theorem Tables.tail {j : Nat} {f : Bytes} {frags : List Bytes} (tables : Tables lib st j (f :: frags)) :
    Tables lib st (j + 1) frags := by
  intro i inside
  have next := tables (i + 1) (Nat.succ_lt_succ inside)
  rwa [List.getElem_cons_succ, ← Nat.add_assoc, Nat.add_right_comm] at next

theorem Tables.head {j : Nat} {f : Bytes} {frags : List Bytes} (tables : Tables lib st j (f :: frags)) :
    st.ht.getD j .new = HT.of lib f := tables 0 (Nat.succ_pos _)

theorem sum_usize {j : Nat} {frags : List Bytes} (tables : Tables lib st j frags) {size : Nat} (few : size ≤ frags.length) :
    ((List.range' j size).map fun j => st.usize j).sum = ((frags.take size).flatten.length : Int) := by
  induction frags generalizing j size with
  | nil =>
    rw [Nat.le_zero.mp few]
    rfl
  | cons f frags ih =>
    cases size with
    | zero => rfl
    | succ size =>
      rw [List.range'_succ, List.map_cons, List.sum_cons, ih tables.tail (Nat.le_of_succ_le_succ few), ReadState.usize,
        tables.head, List.take_succ_cons, List.flatten_cons, List.length_append, Nat.cast_add]
      rfl

/-- The induction is on the fragments; what is in front of a fragment has been taken off. -/
theorem verifyFragments_eq {j : Nat} {frags : List Bytes} (tables : Tables lib st j frags) {size : Nat}
    (few : size ≤ frags.length) {out : Bytes} (front : (frags.take size).flatten <+: out) :
    st.verifyFragments lib out j size = some (frags.take size) := by
  induction frags generalizing j size out with
  | nil =>
    rw [Nat.le_zero.mp few]
    rfl
  | cons f frags ih =>
    cases size with
    | zero => rfl
    | succ size =>
      obtain ⟨rest, rfl⟩ := front
      have entry : st.usize j = (f.length : Int) := by
        rw [ReadState.usize, tables.head]
        rfl
      have later := ih tables.tail (Nat.le_of_succ_le_succ few) (List.prefix_append (frags.take size).flatten rest)
      rw [List.take_succ_cons, List.flatten_cons, List.append_assoc, ReadState.verifyFragments, entry, Int.toNat_natCast,
        List.take_left, List.drop_left, tables.head, later]
      rw [if_neg (by rw [List.length_append]; omega)]
      exact if_neg fun wrong => wrong rfl

theorem Decompressed.of_one {needed : Nat} {seg : Segment} {data out : Bytes} (whole : seg.data = .ok data)
    (decompressed : Decompressed needed [seg] out) : out <+: data ∧ needed ≤ out.length := by
  cases decompressed with
  | enough same front enough =>
    rw [whole] at same
    cases same
    exact ⟨front, enough⟩
  | further _ _ behind => cases behind

/-- The block is found, it can be decompressed to what is needed, and whatever it has been decompressed to, these
fragments come off. -/
def Extracts (lib : Libzpaq) (st : ReadState) (bytes : Bytes) (b : Block) (size : Nat) (frags : List Bytes) : Prop :=
  ∃ found, lib.findBlock (bytes.drop b.offset) = some found ∧
    (∃ out, Decompressed (st.output_size b size) found.segments out ∧ (out.length : Int) ≤ b.usize) ∧
    ∀ out, Decompressed (st.output_size b size) found.segments out → (out.length : Int) ≤ b.usize →
      st.extractFragments lib b size out = some frags

theorem Stored.extracts (stores : lib.Stores) {b : Block} {z : Zpaq.Block} (stored : Stored lib bytes b z)
    (tables : Tables lib st b.start z.frags) {size : Nat} (few : size ≤ b.frags) :
    Extracts lib st bytes b size (z.frags.take size) := by
  obtain ⟨method, fdate, rest, name, here, -⟩ := stored.data
  have small := stored.small
  obtain ⟨head, found⟩ := stores.findBlock_compressBlock method (blockName fdate 100 z.start) jDC (Addition.blockData z.frags)
    rest (not_mem_blockName (by decide) (by decide) (by decide)) (by decide) (by omega) (by decide) small
  rw [stored.frags] at few
  have front : (z.frags.take size).flatten <+: z.frags.flatten := by
    conv_rhs => rw [← List.take_append_drop size z.frags, List.flatten_append]
    exact List.prefix_append _ _
  have data : z.frags.flatten <+: Addition.blockData z.frags := by
    rw [Addition.blockData, List.append_assoc, List.append_assoc]
    exact List.prefix_append _ _
  have length := (front.trans data).length_le
  have needed : st.output_size b size = (z.frags.take size).flatten.length := by
    rw [ReadState.output_size, sum_usize tables few]
    omega
  refine ⟨_, by rw [here]; exact found, ⟨Addition.blockData z.frags, ?_, ?_⟩, fun out decompressed short => ?_⟩
  · exact .enough rfl List.prefix_rfl (by rw [needed]; exact length)
  · rw [stored.usize]
  · obtain ⟨prefixOut, enough⟩ := decompressed.of_one rfl
    rw [ReadState.extractFragments, if_pos ⟨short, enough⟩]
    refine verifyFragments_eq tables few (List.prefix_of_prefix_length_le (front.trans data) prefixOut ?_)
    rw [needed] at enough
    exact enough

/-! ## The blocks of an archive -/

theorem Reads.frag (reads : Reads lib options bytes done st) {j : Nat} (positive : 0 < j)
    (inside : j < (contents (done.map Addition.update)).ht.length) :
    st.ht.getD j .new = HT.of lib ((contents (done.map Addition.update)).frag j) := by
  obtain ⟨i, rfl⟩ : ∃ i, j = i + 1 := ⟨j - 1, by omega⟩
  rw [reads.ht, List.getD_cons_succ, Contents.frag]
  cases table : (contents (done.map Addition.update)).ht with
  | nil =>
    rw [table] at inside
    simp at inside
  | cons first rest =>
    rw [table, List.length_cons] at inside
    have bound : i < rest.length := by omega
    rw [List.tail_cons, List.getD_cons_succ, List.getD_eq_getElem?_getD, List.getD_eq_getElem?_getD, List.getElem?_map,
      List.getElem?_eq_getElem bound]
    rfl

/-- The fragments of a block are those under its numbers. -/
theorem frags_eq {z : Zpaq.Block} {archive : Archive} (mem : z ∈ (contents archive).block) {size : Nat}
    (few : size ≤ z.frags.length) : z.frags.take size = (List.range' z.start size).map (contents archive).frag := by
  have stored : z.Stored (contents archive) := read_archive_stored archive z mem
  apply List.ext_getElem?
  intro i
  by_cases inside : i < size
  · have here := stored (z.start + i) ⟨Nat.le_add_right _ _, by omega⟩
    rw [Nat.add_sub_cancel_left] at here
    rw [List.getElem?_take_of_lt inside, here, List.getElem?_map, List.getElem?_range' inside, Nat.one_mul]
    rfl
  · rw [List.getElem?_eq_none (by rw [List.length_take]; omega), List.getElem?_eq_none (by simp; omega)]

theorem Reads.tables (reads : Reads lib options bytes done st) {z : Zpaq.Block}
    (mem : z ∈ (contents (done.map Addition.update)).block) : Tables lib st z.start z.frags := by
  intro i inside
  have range := mem_layout mem
  have whole : z.Stored (contents (done.map Addition.update)) := read_archive_stored _ z mem
  have stored := whole (z.start + i) ⟨Nat.le_add_right _ _, by omega⟩
  rw [Nat.add_sub_cancel_left, List.getElem?_eq_getElem inside] at stored
  rw [reads.frag (by omega) (by rw [contents, Zpaq.read_archive, List.length_cons]; omega), Option.some.inj stored]

theorem exists_right {α β : Type} {R : α → β → Prop} {l : List α} {m : List β} (related : List.Forall₂ R l m) {a : α}
    (mem : a ∈ l) : ∃ b ∈ m, R a b := by
  induction related with
  | nil => cases mem
  | cons first _ ih =>
    cases mem with
    | head => exact ⟨_, List.mem_cons_self, first⟩
    | tail _ mem =>
      obtain ⟨b, inside, later⟩ := ih mem
      exact ⟨b, List.mem_cons_of_mem _ inside, later⟩

/-- Every fragment is in a block, and from every block its fragments come off. -/
theorem Reads.extracts (stores : lib.Stores) (reads : Reads lib options bytes done st) :
    (∀ b ∈ st.block, ∀ size ≤ b.frags,
      Extracts lib st bytes b size ((List.range' b.start size).map (contents (done.map Addition.update)).frag)) ∧
    ∀ j, 0 < j → j < st.ht.length → ∃ b ∈ st.block, b.start ≤ j ∧ j < b.start + b.frags := by
  constructor
  · intro b mem size few
    obtain ⟨z, inside, stored⟩ := exists_right reads.block mem
    have tables := reads.tables inside
    rw [← stored.start] at tables
    have extracts := stored.extracts stores tables few
    rw [stored.frags] at few
    rwa [frags_eq inside few, ← stored.start] at extracts
  · intro j positive high
    rw [reads.length_ht] at high
    obtain ⟨z, mem, has⟩ := contents_exists_block positive high
    obtain ⟨b, inside, stored⟩ := exists_right reads.block.flip mem
    exact ⟨b, inside, by rw [stored.start]; exact has.1, by rw [stored.start, stored.frags]; exact has.2⟩

end

/-! ## After any run -/

section

variable {lib : Libzpaq} {events : List Event} {disk : Bytes}

/-- Whatever the adds did and wherever they were killed, up to any number or date no fragment is lost. -/
theorem run_blocks (stores : lib.Stores) (runs : Runs lib events disk) :
    ∃ done, History events done ∧ ∀ options, ∃ st, read_archive lib options disk = some st ∧
      Reads lib options disk (upTo options.version done) st ∧
      (∀ b ∈ st.block, ∀ size ≤ b.frags, Extracts lib st disk b size
        ((List.range' b.start size).map (contents ((upTo options.version done).map Addition.update)).frag)) ∧
      ∀ j, 0 < j → j < st.ht.length → ∃ b ∈ st.block, b.start ≤ j ∧ j < b.start + b.frags := by
  obtain ⟨done, history, holds⟩ := runs.holds stores
  refine ⟨done, history, fun options => ?_⟩
  obtain ⟨st, read, reads⟩ := holds.reads stores options
  exact ⟨st, read, reads, reads.extracts stores⟩

theorem run_blocks_hello : ∃ disk, Runs Blocks.storing [helloEvent .unfinished, helloEvent .finished] disk ∧
    ∃ done, History [helloEvent .unfinished, helloEvent .finished] done ∧
      ∀ options, ∃ st, read_archive Blocks.storing options disk = some st ∧
        Reads Blocks.storing options disk (upTo options.version done) st ∧
        (∀ b ∈ st.block, ∀ size ≤ b.frags, Extracts Blocks.storing st disk b size
          ((List.range' b.start size).map (contents ((upTo options.version done).map Addition.update)).frag)) ∧
        ∀ j, 0 < j → j < st.ht.length → ∃ b ∈ st.block, b.start ≤ j ∧ j < b.start + b.frags := by
  obtain ⟨disk, runs⟩ := runs_hello
  exact ⟨disk, runs, run_blocks Blocks.storing_stores runs⟩

/-- A file that the last add took comes back from the bytes, whatever happened before. -/
theorem run_restores (stores : lib.Stores) {e : Event} (runs : Runs lib (events ++ [e]) disk)
    (whole : ∀ e' ∈ events ++ [e], e'.options.version = DEFAULT_VERSION) (finished : e.ending = .finished)
    {split : BlockSplit} {filename : Bytes} {file : ExternalFile}
    (added : append ((events.filter Event.complete).map Event.update) e.update =
      add lib.sha1 split filename file ((events.filter Event.complete).map Event.update))
    (wf : WellFormed ((events.filter Event.complete).map Event.update))
    (noticed : Noticed lib.sha1 filename file ((events.filter Event.complete).map Event.update))
    {options : Options} (newest : options.version = DEFAULT_VERSION) (selected : options.issel filename = true) :
    ∃ st q frag, read_archive lib options disk = some st ∧ q ∈ st.dt ∧ q.name = filename ∧
      q.ptr.flatMap frag = file.content ∧
      (∀ j ∈ q.ptr, ∃ b ∈ st.block, b.start ≤ j ∧ j < b.start + b.frags) ∧
      ∀ b ∈ st.block, ∀ size ≤ b.frags, Extracts lib st disk b size ((List.range' b.start size).map frag) := by
  obtain ⟨done, updates, read⟩ := run_updates stores runs whole
  obtain ⟨st, read, reads⟩ := read options newest
  have archive : done.map Addition.update = add lib.sha1 split filename file ((events.filter Event.complete).map Event.update) := by
    rw [updates, ← added, append, List.filter_append, List.map_append]
    by_cases empty : e.update = ⟨[], []⟩
    · rw [List.filter_cons_of_neg (by simp [Event.complete, finished, empty]), empty, if_pos ⟨rfl, rfl⟩]
      exact List.append_nil _
    · rw [List.filter_cons_of_pos (by simp [Event.complete, finished, empty]), if_neg]
      · rfl
      · rintro ⟨blocks, index⟩
        exact empty (by rw [← blocks, ← index])
  obtain ⟨new, q, result⟩ := add_added split wf noticed
  rw [← archive] at result
  obtain ⟨extracts, covered⟩ := reads.extracts stores
  refine ⟨st, q, (contents (done.map Addition.update)).frag, read, ?_, result.name, ?_, fun j mem => ?_, extracts⟩
  · have found := lookup_of_mem (nodup_dt _ _) result.mem
    have kept := lookup_selected options.issel (done.map Addition.update) filename
    rw [if_pos selected, ← result.name, found] at kept
    rw [reads.dt]
    exact mem_of_lookup kept
  · rw [List.flatMap_def, result.frags, flatten_fragments]
  · have range := result.inRange j mem
    exact covered j range.1 (by rw [reads.length_ht]; exact range.2)

end

/-! ### A file behind an add that was killed -/

/-- All new fragments in one block. -/
def joined (frags : List Bytes) : List (List Bytes) := if frags = [] then [] else [frags]

theorem flatten_joined (frags : List Bytes) : (joined frags).flatten = frags := by
  rw [joined]
  split
  next none => rw [none]; rfl
  next => exact List.flatten_singleton

theorem ne_nil_of_mem_joined (frags : List Bytes) : ∀ block ∈ joined frags, block ≠ [] := by
  intro block mem
  rw [joined] at mem
  split at mem
  next => cases mem
  next some => rwa [List.mem_singleton.mp mem]

def together : BlockSplit := ⟨joined, flatten_joined, ne_nil_of_mem_joined⟩

def helloFile : ExternalFile := ⟨text "hello", 1704067200, 33188, true⟩

def fileUpdate : Update := ⟨[[text "hello"]], [⟨text "a.txt", 20240101000000, 8496245, [1]⟩]⟩

def fileEvent : Event :=
  ⟨⟨DEFAULT_VERSION, 20240101000000, text "a.zpaq", fun _ => true⟩, 20240101000000, fileUpdate, fun _ => text "0", .finished⟩

theorem fileUpdate_eq : append [] fileUpdate = add Blocks.storing.sha1 together (text "a.txt") helloFile [] := by
  decide

theorem noticed_hello : Noticed Blocks.storing.sha1 (text "a.txt") helloFile [] where
  regular := rfl
  dated := by decide
  named := by decide
  noCollision f mem g mem' _ := by
    have short : fragments helloFile.content = [text "hello"] := fragments_of_short (by decide)
    rw [short] at mem mem'
    rw [List.mem_singleton.mp mem]
    exact List.mem_singleton.mp mem'
  changed _ mem := by cases mem

def fileAddition : Addition := ⟨20240101000000, fileUpdate, fun _ => text "0"⟩

theorem addition_file {st : ReadState} {disk : Bytes} (reads : Reads Blocks.storing fileEvent.options disk [] st) :
    fileEvent.addition st = fileAddition := by
  have lastdate : st.back.lastdate = 0 := reads.lastdate
  rw [Event.addition, lastdate]
  rfl

theorem possible_file {st : ReadState} {disk : Bytes} (reads : Reads Blocks.storing fileEvent.options disk [] st) :
    fileEvent.Possible Blocks.storing st disk := by
  have lastdate : st.back.lastdate = 0 := reads.lastdate
  have ht : st.ht.length = 1 := reads.length_ht
  have clock : (20240101000000 : Int) = decimal_time (1704067200 : Nat) := by decide
  refine ⟨⟨1704067200, by decide, clock⟩, ?_, ?_, fun closed => by cases closed⟩
  · rw [lastdate]
    decide
  · rw [addition_file reads, ht]
    exact fits_oneFile (by decide) (by decide) (by decide) (by decide) (by decide) (by decide) (by decide) (by decide)

theorem holds_file : ∃ disk, Runs Blocks.storing [helloEvent .unfinished, fileEvent] disk ∧
    Holds Blocks.storing disk [fileAddition] := by
  obtain ⟨disk, first, holds⟩ := holds_unfinished
  obtain ⟨st, read, reads⟩ := holds.reads Blocks.storing_stores fileEvent.options
  have possible := possible_file reads
  refine ⟨_, .add first read possible, ?_⟩
  have fits := possible.fits
  -- nothing is kept in front of the update
  have place : st.block_offset = ([] : Bytes).length := reads.block_offset
  have left : fileEvent.leave Blocks.storing st disk = fileAddition.written Blocks.storing st.ht.length := by
    rw [← addition_file reads]
    exact (truncated_eq Blocks.storing_stores place fits).trans (if_neg (by decide))
  rw [left]
  rw [addition_file reads] at fits
  have dated : (fileAddition.date : Int) = decimal_time (1704067200 : Nat) := by decide
  have nothing : ([] : List Addition).map (fun a => (a.date : Int)) = [].map fun t : Nat => decimal_time t := rfl
  have none : AllFit Blocks.storing 1 [] := trivial
  exact .add none nothing .nil (fun _ mem => by cases mem) reads fits (by decide) dated fun _ mem => by cases mem

/-! ### Its next version -/

def worldFile : ExternalFile := ⟨text "world", 1735689600, 33188, true⟩

def worldUpdate : Update := ⟨[[text "world"]], [⟨text "a.txt", 20250101000000, 8496245, [2]⟩]⟩

def worldEvent : Event :=
  ⟨⟨DEFAULT_VERSION, 20250101000000, text "a.zpaq", fun _ => true⟩, 20250101000000, worldUpdate, fun _ => text "0", .finished⟩

theorem worldUpdate_eq : append [fileUpdate] worldUpdate =
    add Blocks.storing.sha1 together (text "a.txt") worldFile [fileUpdate] := by
  decide +kernel

theorem wellFormed_file : WellFormed [fileUpdate] := by
  obtain ⟨new, q, added⟩ := add_added together wellFormed_nil noticed_hello
  rw [← fileUpdate_eq] at added
  exact added.wellFormed (by decide) wellFormed_nil

theorem noticed_world : Noticed Blocks.storing.sha1 (text "a.txt") worldFile [fileUpdate] where
  regular := rfl
  dated := by decide
  named := by decide
  noCollision f mem g mem' same := by
    have short : fragments worldFile.content = [text "world"] := fragments_of_short (by decide)
    rw [short] at mem mem'
    rw [List.mem_singleton.mp mem] at same ⊢
    rcases List.mem_pair.mp mem' with rfl | rfl
    · exact absurd same (by decide +kernel)
    · rfl
  changed a mem _ dated := by
    rw [List.mem_singleton.mp mem] at dated
    exact absurd dated (by decide)

theorem possible_world {st : ReadState} {disk : Bytes}
    (reads : Reads Blocks.storing worldEvent.options disk [fileAddition] st) :
    worldEvent.Possible Blocks.storing st disk := by
  have lastdate : st.back.lastdate = 20240101000000 := reads.lastdate
  have ht : st.ht.length = 2 := reads.length_ht
  have same : worldEvent.addition st = ⟨20250101000000, worldUpdate, fun _ => text "0"⟩ := by
    rw [Event.addition, lastdate]
    rfl
  have clock : (20250101000000 : Int) = decimal_time (1735689600 : Nat) := by decide
  refine ⟨⟨1735689600, by decide, clock⟩, ?_, ?_, fun closed => by cases closed⟩
  · rw [lastdate]
    decide
  · rw [same, ht]
    exact fits_oneFile (by decide) (by decide) (by decide) (by decide) (by decide) (by decide) (by decide) (by decide)

theorem runs_world : ∃ disk, Runs Blocks.storing [helloEvent .unfinished, fileEvent, worldEvent] disk := by
  obtain ⟨disk, runs, holds⟩ := holds_file
  obtain ⟨st, read, reads⟩ := holds.reads Blocks.storing_stores worldEvent.options
  exact ⟨_, .add runs read (possible_world reads)⟩

theorem run_restores_file : ∃ disk, Runs Blocks.storing ([helloEvent .unfinished, fileEvent] ++ [worldEvent]) disk ∧
    ∃ st q frag, read_archive Blocks.storing worldEvent.options disk = some st ∧ q ∈ st.dt ∧ q.name = text "a.txt" ∧
      q.ptr.flatMap frag = text "world" ∧
      (∀ j ∈ q.ptr, ∃ b ∈ st.block, b.start ≤ j ∧ j < b.start + b.frags) ∧
      ∀ b ∈ st.block, ∀ size ≤ b.frags,
        Extracts Blocks.storing st disk b size ((List.range' b.start size).map frag) := by
  obtain ⟨disk, runs⟩ := runs_world
  have before : ([helloEvent .unfinished, fileEvent].filter Event.complete).map Event.update = [fileUpdate] := rfl
  have added := worldUpdate_eq
  have wf := wellFormed_file
  have noticed := noticed_world
  rw [← before] at added wf noticed
  exact ⟨disk, runs, run_restores Blocks.storing_stores runs (by simp [helloEvent, fileEvent, worldEvent]) rfl added wf
    noticed rfl rfl⟩

end BackupSuite.Zpaq.Journal
