import BackupSuite.Zpaq.Blocks

/-! # The bytes of an archive and its contents

What `read_archive` finds in the bytes refines the abstract archive: the fragments with
their hashes and sizes, the index, and every block at the place where its data are.
`Reads` is kept by each update that is read (`Reads.update`), so that it holds of any sequence
of updates up to where `-until` stops (`read_archive_writeAll`).
-/

namespace BackupSuite.Zpaq.Journal

open BackupSuite.Library BackupSuite.CtrlCenter

variable {lib : Libzpaq} {options : Options}

/-- The fragments of the block are stored where the list of blocks says. -/
structure Stored (lib : Libzpaq) (bytes : Bytes) (b : Block) (z : Zpaq.Block) : Prop where
  start : b.start = z.start
  frags : b.frags = z.frags.length
  usize : b.usize = (Addition.blockData z.frags).length
  small : (Addition.blockData z.frags).length ≤ 2147479552
  data : ∃ method fdate rest, (blockName fdate 100 z.start).length = 28 ∧ bytes.drop b.offset =
      lib.compressBlock method (blockName fdate 100 z.start) jDC (Addition.blockData z.frags) ++ rest ∧
    b.bsize = (lib.compressBlock method (blockName fdate 100 z.start) jDC (Addition.blockData z.frags)).length

/-- What has been read of an archive with these updates. -/
structure Reads (lib : Libzpaq) (options : Options) (bytes : Bytes) (done : List Addition) (st : ReadState) : Prop where
  ht : st.ht = .new :: ((contents (done.map Addition.update)).ht.tail.map (HT.of lib))
  dt : st.dt = (Zpaq.read_archive options.issel (done.map Addition.update)).dt
  block : List.Forall₂ (Stored lib bytes) st.block (contents (done.map Addition.update)).block
  dates : (st.before ++ [st.back]).map VER.date = 0 :: done.map fun a => (a.date : Int)
  lastdate : st.back.lastdate = ((done.getLast?.map Addition.date).getD 0 : Nat)
  errors : st.errors = 0
  block_offset : st.block_offset = (writeAll lib 1 done).length

/-- The updates up to the first one that is behind `-until`, when some versions are there already. -/
def included (options : Options) (versions : Nat) : List Addition → List Addition
  | [] => []
  | a :: rest => if options.behind versions a.date then [] else a :: included options (versions + 1) rest

/-- Every update fits the format, with the numbers of its fragments. -/
def AllFit (lib : Libzpaq) (htsize : Nat) : List Addition → Prop
  | [] => True
  | a :: rest => a.Fits lib htsize ∧ AllFit lib (htsize + a.update.blocks.flatten.length) rest

/-! ## What an update adds -/

/-- Blocks of fragments one behind the other. -/
def placed (lib : Libzpaq) (a : Addition) (offset : Nat) : List Zpaq.Block → List Block
  | [] => []
  | b :: rest =>
    ⟨b.start, offset, (Addition.blockData b.frags).length, a.csize lib b, b.frags.length⟩ ::
      placed lib a (offset + a.csize lib b) rest

namespace ReadState

variable {a : Addition}

theorem addTables_eq (st : ReadState) (blocks : List Zpaq.Block) :
    addTables lib a st blocks =
      { st with
        ht := st.ht ++ (blocks.flatMap Zpaq.Block.frags).map (HT.of lib)
        block := st.block ++ placed lib a st.data_offset blocks
        dhsize := st.dhsize + (blocks.map (a.csize lib)).sum
        data_offset := st.data_offset + (blocks.map (a.csize lib)).sum } := by
  induction blocks generalizing st with
  | nil => simp [addTables, placed]
  | cons b blocks ih =>
    have step := ih (st.addTable lib b (a.csize lib b))
    rw [addTables, List.foldl_cons, ← addTables, step]
    simp [addTable, placed, Nat.add_assoc]

end ReadState

theorem flatMap_frags (start : Nat) (blocks : List (List Bytes)) :
    (layout start blocks).flatMap Zpaq.Block.frags = blocks.flatten := by
  induction blocks generalizing start with
  | nil => rfl
  | cons frags blocks ih => rw [layout, List.flatMap_cons, ih, List.flatten_cons]

/-- Each block is where the data of those before it end. -/
theorem forall_placed {a : Addition} (late : a.date < 30000000000000) {bytes : Bytes} {offset : Nat}
    {blocks : List Zpaq.Block} (fits : ∀ b ∈ blocks, Tabled b (a.csize lib b)) {rest : Bytes}
    (here : bytes.drop offset = (blocks.flatMap fun b => Addition.compress lib (a.task b)) ++ rest) :
    List.Forall₂ (Stored lib bytes) (placed lib a offset blocks) blocks := by
  induction blocks generalizing offset with
  | nil => exact .nil
  | cons b blocks ih =>
    rw [List.flatMap_cons, List.append_assoc] at here
    have fitsB := fits b List.mem_cons_self
    have numbered := fitsB.numbered
    have name : (blockName a.date 100 b.start).length = 28 := length_blockName 100 late (by omega)
    refine .cons ⟨rfl, rfl, rfl, fitsB.data, a.method b.start, a.date, _, name, here, rfl⟩
      (ih (fun b mem => fits b (List.mem_cons_of_mem _ mem)) ?_)
    rw [← List.drop_drop, here]
    exact List.drop_left

theorem writeAll_append (htsize : Nat) (front rest : List Addition) :
    writeAll lib htsize (front ++ rest) =
      writeAll lib htsize front ++
        writeAll lib (htsize + (front.flatMap fun a => a.update.blocks.flatten).length) rest := by
  induction front generalizing htsize with
  | nil => simp [writeAll]
  | cons a front ih => simp [writeAll, ih, Nat.add_assoc]

theorem flatMap_update (adds : List Addition) :
    (adds.map Addition.update).flatMap Update.blocks = adds.flatMap fun a => a.update.blocks := by
  rw [List.flatMap_map]

theorem length_contents (adds : List Addition) :
    (contents (adds.map Addition.update)).ht.length =
      1 + (adds.flatMap fun a => a.update.blocks.flatten).length := by
  have flat : (adds.flatMap fun a => a.update.blocks).flatten = adds.flatMap fun a => a.update.blocks.flatten := by
    induction adds with
    | nil => rfl
    | cons a adds ih => simp [ih]
  rw [contents, Zpaq.read_archive, flatMap_update, List.length_cons, flat, Nat.add_comm]

/-! ## One update after the other -/

section

variable {bytes : Bytes} {done : List Addition} {st : ReadState} {a : Addition}

theorem Reads.length_ht (reads : Reads lib options bytes done st) :
    st.ht.length = (contents (done.map Addition.update)).ht.length := by
  rw [reads.ht, List.length_cons, List.length_map, List.length_tail, length_contents]
  omega

theorem Reads.versions (reads : Reads lib options bytes done st) : st.versions = done.length + 1 := by
  have dates := congrArg List.length reads.dates
  simpa [ReadState.versions] using dates

/-- Nothing of it depends on where reading stands. -/
theorem Reads.found (reads : Reads lib options bytes done st) (name : Bytes) (data_offset : Nat) :
    Reads lib options bytes done { st.found name with data_offset := data_offset } :=
  ⟨reads.ht, reads.dt, reads.block, reads.dates, reads.lastdate, reads.errors, reads.block_offset⟩

theorem length_written (stores : lib.Stores) {htsize : Nat} (fits : a.Fits lib htsize) {bytes rest : Bytes} {pos : Nat}
    (here : bytes.drop pos = a.written lib htsize ++ rest) :
    ∃ more, bytes.drop (pos + 104) = a.data lib htsize ++ more := by
  have header : (writeJidacHeader lib a.date (a.data lib htsize).length htsize).length = 104 :=
    ReadState.length_writeJidacHeader stores fits.late fits.numbered _
  refine ⟨a.tables lib htsize ++ rest, ?_⟩
  rw [← List.drop_drop, here, Addition.written, Addition.bytes, List.append_assoc, List.append_assoc,
    List.drop_left' header]

theorem Reads.update (stores : lib.Stores) (reads : Reads lib options bytes done st) (fits : a.Fits lib st.ht.length)
    {rest : Bytes} (here : bytes.drop (writeAll lib 1 done).length = a.written lib st.ht.length ++ rest) (name : Bytes) :
    Reads lib options bytes (done ++ [a])
      ((ReadState.addUpdate lib options st (writeAll lib 1 done).length a).afterBlock
        ((writeAll lib 1 done).length + (a.written lib st.ht.length).length) name) := by
  have length := reads.length_ht
  obtain ⟨more, data⟩ := length_written stores fits here
  have placed := forall_placed fits.late fits.blocks data
  have grown := read_archive_concat (fun _ => true) (done.map Addition.update) a.update
  have split : (done ++ [a]).map Addition.update = done.map Addition.update ++ [a.update] := by simp
  rw [ReadState.addUpdate, ReadState.addTables_eq]
  constructor
  · have head : (contents (done.map Addition.update)).ht ≠ [] := List.cons_ne_nil _ _
    rw [split, contents, grown, List.tail_append_of_ne_nil head, List.map_append]
    simp only [ReadState.afterBlock, ReadState.addEntries, ReadState.addVersion, Addition.blocks, flatMap_frags]
    rw [reads.ht, List.cons_append]
  · rw [split, read_archive_concat]
    simp only [ReadState.afterBlock, ReadState.addEntries, ReadState.addVersion]
    rw [reads.dt]
  · rw [split, contents, grown]
    simp only [ReadState.afterBlock, ReadState.addEntries, ReadState.addVersion]
    refine List.rel_append reads.block ?_
    rw [← contents, ← length]
    exact placed
  · simp only [ReadState.afterBlock, ReadState.addEntries, ReadState.addVersion]
    rw [List.map_append, reads.dates]
    simp
  · simp [ReadState.afterBlock, ReadState.addEntries, ReadState.addVersion]
  · exact reads.errors
  · rw [writeAll_append, List.length_append, ← length_contents, ← length]
    simp [ReadState.afterBlock, writeAll]

end

/-! ## The whole archive -/

/-- Nothing is behind the updates, or else an update that is not complete. -/
def Ends (lib : Libzpaq) (rest : Bytes) : Prop :=
  rest = [] ∨ ∃ fdate htsize more, 19000000000000 ≤ fdate ∧ fdate < 30000000000000 ∧ htsize ≤ 0xffffffff ∧
    rest = writeJidacHeader lib fdate (-1) htsize ++ more

section

variable {bytes rest : Bytes} {done adds : List Addition} {st : ReadState}

theorem Reads.ends (stores : lib.Stores) (reads : Reads lib options bytes done st) (ends : Ends lib rest) (pos : Nat) :
    Reads lib options bytes done (ReadState.readBlocks lib options pos rest st) ∧
      (st.found_data = true ∨ rest ≠ [] → (ReadState.readBlocks lib options pos rest st).found_data = true) := by
  rcases ends with rfl | ⟨fdate, htsize, more, early, late, numbered, rfl⟩
  · rw [ReadState.readBlocks_nil stores]
    exact ⟨reads, fun found => found.elim id fun some => absurd rfl some⟩
  · rw [ReadState.readBlocks_header_stops stores early late numbered (Or.inl rfl)]
    exact ⟨reads.found _ _, fun _ => rfl⟩

/-- The induction is on the updates that are still to be read. -/
theorem Reads.all (stores : lib.Stores) (reads : Reads lib options bytes done st) (fits : AllFit lib st.ht.length adds)
    (here : bytes.drop (writeAll lib 1 done).length = writeAll lib st.ht.length adds ++ rest)
    (ends : Ends lib rest) :
    Reads lib options bytes (done ++ included options st.versions adds)
        (ReadState.readBlocks lib options (writeAll lib 1 done).length (writeAll lib st.ht.length adds ++ rest) st) ∧
      (st.found_data = true ∨ writeAll lib st.ht.length adds ++ rest ≠ [] →
        (ReadState.readBlocks lib options (writeAll lib 1 done).length
          (writeAll lib st.ht.length adds ++ rest) st).found_data = true) := by
  induction adds generalizing done st with
  | nil =>
    rw [included, List.append_nil, writeAll, List.nil_append]
    exact reads.ends stores ends _
  | cons a adds ih =>
    obtain ⟨fitsA, fits⟩ := fits
    rw [writeAll, List.append_assoc] at here ⊢
    rw [included]
    split
    next behind =>
      rw [Addition.written, Addition.bytes, List.append_assoc, List.append_assoc,
        ReadState.readBlocks_header_stops stores fitsA.early fitsA.late fitsA.numbered
          (Or.inr ⟨_, rfl, fitsA.data, behind⟩), List.append_nil]
      exact ⟨reads.found _ _, fun _ => rfl⟩
    next ahead =>
      have ahead : options.behind st.versions a.date = false := by simpa using ahead
      obtain ⟨name, step⟩ := ReadState.readBlocks_written stores fitsA ahead (writeAll lib 1 done).length
        (writeAll lib (st.ht.length + a.update.blocks.flatten.length) adds ++ rest)
      have next := reads.update stores fitsA here name
      have grown := next.length_ht
      have versions := next.versions
      have place := congrArg List.length (@writeAll_append lib 1 done [a])
      rw [List.length_append, ← length_contents, ← reads.length_ht, writeAll, writeAll, List.append_nil] at place
      rw [length_contents, List.flatMap_append, List.length_append, ← Nat.add_assoc, ← length_contents,
        ← reads.length_ht, List.flatMap_singleton] at grown
      rw [List.length_append, List.length_singleton, ← reads.versions] at versions
      rw [step]
      have tail := @ih _ _ next (by rw [grown]; exact fits)
        (by rw [place, ← List.drop_drop, here, List.drop_left, grown])
      rw [grown, versions, place, List.append_assoc, List.singleton_append] at tail
      exact ⟨tail.1, fun _ => tail.2 (Or.inl rfl)⟩

theorem tag_header (stores : lib.Stores) (fdate htsize : Nat) (cdata : Int) (more : Bytes) :
    (writeJidacHeader lib fdate cdata htsize ++ more).take 4 = text "7kSt" := by
  have tag := stores.tag (text "0") (blockName fdate 99 htsize) jDC (puti (cdata % 18446744073709551616).toNat 8)
  have length := congrArg List.length tag
  have four : (text "7kSt").length = 4 := rfl
  rw [List.length_take, four] at length
  rw [writeJidacHeader, List.take_append_of_le_length (by omega), tag]

theorem tag_archive (stores : lib.Stores) (ends : Ends lib rest) (some : writeAll lib 1 adds ++ rest ≠ []) :
    (writeAll lib 1 adds ++ rest).take 4 = text "7kSt" := by
  cases adds with
  | nil =>
    rcases ends with rfl | ⟨fdate, htsize, more, -, -, -, rfl⟩
    · exact absurd rfl some
    · exact tag_header stores fdate htsize (-1) more
  | cons a adds =>
    rw [writeAll, Addition.written, Addition.bytes, List.append_assoc, List.append_assoc, List.append_assoc]
    exact tag_header stores _ _ _ _

/-- Reading back what was written, up to where `-until` stops. -/
theorem read_archive_writeAll (stores : lib.Stores) (fits : AllFit lib 1 adds) (ends : Ends lib rest) :
    ∃ st, read_archive lib options (writeAll lib 1 adds ++ rest) = some st ∧
      Reads lib options (writeAll lib 1 adds ++ rest) (included options 1 adds) st := by
  have start : Reads lib options (writeAll lib 1 adds ++ rest) [] (.start options) :=
    ⟨rfl, rfl, .nil, rfl, rfl, rfl, rfl⟩
  obtain ⟨reads, found⟩ := start.all stores fits rfl ends
  refine ⟨_, ?_, reads⟩
  rw [read_archive, if_neg fun wrong => wrong.2.1 (tag_archive stores ends wrong.1)]
  have found : ¬(writeAll lib 1 adds ++ rest ≠ [] ∧
      !(ReadState.readBlocks lib options 0 (writeAll lib 1 adds ++ rest) (.start options)).found_data) := by
    rintro ⟨some, nothing⟩
    have found := found (Or.inr some)
    simp only [writeAll, List.length_nil] at found
    rw [Bool.not_eq_true', ← Bool.not_eq_true] at nothing
    exact nothing found
  simp only [if_neg found]
  rfl

end

/-! ## Updates of one fragment -/

def oneWord (date : Nat) (word : Bytes) (index : List Member) : Addition := ⟨date, ⟨[[word]], index⟩, fun _ => text "0"⟩

section

variable {date start : Nat} {word : Bytes} {index : List Member}

theorem length_blockData_word (five : word.length = 5) : (Addition.blockData [word]).length = 17 := by
  simp [Addition.blockData, five]

theorem csize_oneWord (late : date < 30000000000000) (numbered : start ≤ 0xffffffff) (five : word.length = 5) :
    (oneWord date word index).csize Blocks.storing ⟨start, [word]⟩ < 256 := by
  have data := length_blockData_word five
  have size := Blocks.length_storing (text "0") (blockName date 100 start) jDC (data.trans_lt (by decide) : _ < 65536)
  have name : (blockName date 100 start).length = 28 := length_blockName _ late numbered
  have digits : (itos 17 1).length = 2 := by simp [itos]
  have comment : jDC.length = 4 := by decide
  rw [name, data, digits, comment] at size
  exact Nat.lt_of_le_of_lt size (by decide)

theorem fits_oneWord (early : 19000000000000 ≤ date) (late : date < 30000000000000) (positive : 0 < start)
    (numbered : start + 1 ≤ 0xffffffff) (five : word.length = 5) (storable : ∀ p ∈ index, Storable p)
    (few : index.length < 0xffffffff) : (oneWord date word index).Fits Blocks.storing start where
  early := early
  late := late
  numbered := by omega
  blocks b mem := by
    rw [List.mem_singleton.mp mem]
    have size := @csize_oneWord date start word index late (by omega) five
    have data := length_blockData_word five
    exact ⟨List.cons_ne_nil _ _, positive, numbered, by simp [five], by simp, by omega, data.trans_le (by decide)⟩
  data := by
    have size := @csize_oneWord date start word index late (by omega) five
    have one : (oneWord date word index).data Blocks.storing start =
        Addition.compress Blocks.storing ((oneWord date word index).task ⟨start, [word]⟩) := List.append_nil _
    rw [one]
    exact Nat.lt_trans size (by decide)
  index := storable
  few := few

/-- An update of a file that is the one fragment. -/
theorem fits_oneFile {name : Bytes} {time : Int} (dated : date = time) (early : 19000000000000 ≤ date)
    (late : date < 30000000000000) (positive : 0 < start) (numbered : start + 1 ≤ 0xffffffff) (five : word.length = 5)
    (noNul : 0 ∉ name) (short : name.length ≤ 65535) :
    (oneWord date word [⟨name, time, 8496245, [start]⟩]).Fits Blocks.storing start := by
  refine fits_oneWord early late positive numbered five (fun p mem => ?_) (by simp)
  have nonneg : 0 ≤ time := by omega
  have small : time < 9223372036854775808 := by omega
  -- `'u'` and the mode of a regular file
  have attr : 8496245 % 256 = 117 ∧ 8496245 < 16777216 := by decide
  rw [List.mem_singleton.mp mem]
  refine ⟨noNul, short, fun zero => ?_, nonneg, small, Or.inr (Or.inl attr), fun j pointer => ?_, by simp⟩
  · have none : time = 0 := zero
    omega
  · rw [List.mem_singleton.mp pointer]
    omega

end

def hello : Addition := ⟨20240101000000, ⟨[[text "hello"]], []⟩, fun _ => text "0"⟩

theorem fits_hello : hello.Fits Blocks.storing 1 :=
  fits_oneWord (by decide) (by decide) (by decide) (by decide) (by decide) (by simp) (by decide)

/-- Two files, added one after the other. -/
def twoFiles : List Addition :=
  [oneWord 20240101000000 (text "hello") [⟨text "a.txt", 20240101000000, 8496245, [1]⟩],
    oneWord 20250101000000 (text "world") [⟨text "b.txt", 20250101000000, 8496245, [2]⟩]]

theorem fits_twoFiles : AllFit Blocks.storing 1 twoFiles :=
  ⟨fits_oneFile (by decide) (by decide) (by decide) (by decide) (by decide) (by decide) (by decide) (by decide),
    fits_oneFile (by decide) (by decide) (by decide) (by decide) (by decide) (by decide) (by decide) (by decide), trivial⟩

/-- `-until 1` in front of an update that was not completed. -/
theorem read_archive_writeAll_until :
    included ⟨1, 0, text "a.zpaq", fun _ => true⟩ 1 twoFiles = twoFiles.take 1 ∧
    ∃ st, read_archive Blocks.storing ⟨1, 0, text "a.zpaq", fun _ => true⟩
        (writeAll Blocks.storing 1 twoFiles ++ writeJidacHeader Blocks.storing 20260101000000 (-1) 3) = some st ∧
      Reads Blocks.storing ⟨1, 0, text "a.zpaq", fun _ => true⟩
        (writeAll Blocks.storing 1 twoFiles ++ writeJidacHeader Blocks.storing 20260101000000 (-1) 3)
        (included ⟨1, 0, text "a.zpaq", fun _ => true⟩ 1 twoFiles) st :=
  ⟨rfl, read_archive_writeAll Blocks.storing_stores fits_twoFiles
    (Or.inr ⟨20260101000000, 3, [], by decide, by decide, by decide, (List.append_nil _).symm⟩)⟩

end BackupSuite.Zpaq.Journal
