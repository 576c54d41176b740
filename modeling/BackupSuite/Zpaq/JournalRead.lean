import Mathlib.Algebra.Ring.Int.Defs
import Mathlib.Data.List.ModifyLast
import BackupSuite.Zpaq.Journal

/-! # Reading back what was written

`read_archive` finds in the bytes of an archive exactly the updates that were written, with
the place of each block of fragments (`read_archive_written`); `-until` cuts the sequence off
where it says.
-/

namespace BackupSuite.Zpaq.Journal

open BackupSuite.Library BackupSuite.CtrlCenter

/-! ## Numbers -/

theorem isdigit_itos {x n : Nat} : ∀ c ∈ itos x n, isdigit c = true := by
  induction x, n using itos.induct with
  | case1 x n nothing =>
    intro c mem
    rw [itos, if_pos nothing] at mem
    cases mem
  | case2 x n more ih =>
    intro c mem
    rw [itos, if_neg more, List.mem_append, List.mem_singleton] at mem
    rcases mem with front | rfl
    · exact ih c front
    · have digits : ∀ d < 10, isdigit (48 + d).toUInt8 = true := by decide
      exact digits _ (Nat.mod_lt x (by decide))

theorem decimal_concat (s : Bytes) (c : UInt8) : decimal (s ++ [c]) = decimal s * 10 + (c.toNat - 48) := by
  simp [decimal]

/-- Whatever zeros stand in front. -/
theorem decimal_itos (x n : Nat) : decimal (itos x n) = x := by
  induction x, n using itos.induct with
  | case1 x n nothing =>
    rw [itos, if_pos nothing, nothing.1]
    rfl
  | case2 x n more ih =>
    have digit : ((48 + x % 10).toUInt8).toNat - 48 = x % 10 := by
      rw [Nat.toUInt8_eq, UInt8.toNat_ofNat']
      omega
    rw [itos, if_neg more, decimal_concat, ih, digit]
    omega

theorem length_itos {x n : Nat} (fits : x < 10 ^ n) : (itos x n).length = n := by
  induction n generalizing x with
  | zero =>
    have zero : x = 0 := by simpa using fits
    rw [itos, if_pos ⟨zero, rfl⟩]
    rfl
  | succ n ih =>
    have front : x / 10 < 10 ^ n := Nat.div_lt_of_lt_mul (by rwa [Nat.pow_succ'] at fits)
    rw [itos, if_neg (by simp), List.length_append, Nat.add_sub_cancel, ih front]
    rfl

theorem btoi_puti {x : Nat} (fits : x < 4294967296) (rest : Bytes) : btoi (puti x 4 ++ rest) = x :=
  @ofLittleEndian_take 4 x (by omega) rest

theorem drop_puti (x n : Nat) (rest : Bytes) : (puti x n ++ rest).drop n = rest := drop_littleEndian n x rest

@[simp] theorem length_puti (x n : Nat) : (puti x n).length = n := length_littleEndian n x

/-- Eight bytes are two times four. -/
theorem puti_eight (x : Nat) : puti x 8 = puti x 4 ++ puti (x / 4294967296) 4 := by
  simp only [puti, littleEndian, List.cons_append, List.nil_append, Nat.div_div_eq_div_mul]

theorem btol_puti {x : Nat} (fits : x < 9223372036854775808) (rest : Bytes) : btol (puti x 8 ++ rest) = x := by
  have low : btoi (puti x 4 ++ (puti (x / 4294967296) 4 ++ rest)) = x % 4294967296 := by
    have four : 256 ^ 4 = 4294967296 := rfl
    rw [btoi, List.take_left' (length_puti x 4), puti, ofLittleEndian_littleEndian, four]
  have high : btoi (puti (x / 4294967296) 4 ++ rest) = x / 4294967296 := btoi_puti (by omega) rest
  have value : btoi (puti x 8 ++ rest) + 4294967296 * btoi ((puti x 8 ++ rest).drop 4) = x := by
    rw [puti_eight, List.append_assoc, low, drop_puti, high]
    omega
  unfold btol
  rw [value, Int.bmod_def]
  omega

theorem btol_zero (rest : Bytes) : btol (puti 0 8 ++ rest) = 0 := btol_puti (by decide) rest

/-- The size of a header that is not complete. -/
theorem btol_unfinished : btol (puti ((-1 : Int) % 18446744073709551616).toNat 8) = -1 := by decide

/-! ## Names -/

theorem length_blockName {fdate num : Nat} (kind : UInt8) (dated : fdate < 30000000000000) (numbered : num ≤ 0xffffffff) :
    (blockName fdate kind num).length = 28 := by
  simp only [blockName, List.length_append, length_itos (n := 14) (by omega : fdate < 10 ^ 14),
    length_itos (n := 10) (by omega : num < 10 ^ 10)]
  rfl

/-- The name in the comment is that of the block, and the size that of what is in it. -/
theorem readName_blockName {fdate num usize : Nat} (kind : UInt8) (early : 19000000000000 ≤ fdate)
    (late : fdate < 30000000000000) (numbered : num ≤ 0xffffffff) (small : usize ≤ 0xffffffff) :
    readName (blockName fdate kind num) (itos usize 1 ++ 32 :: jDC) = some ⟨usize, fdate, kind, num⟩ := by
  have size : (itos usize 1 ++ 32 :: jDC).takeWhile isdigit = itos usize 1 := by
    rw [List.takeWhile_append_of_pos isdigit_itos, List.takeWhile_cons_of_neg (by decide), List.append_nil]
  have date := length_itos (n := 14) (by omega : fdate < 10 ^ 14)
  have number := length_itos (n := 10) (by omega : num < 10 ^ 10)
  have head : (blockName fdate kind num).take 3 = text "jDC" := by
    rw [blockName, List.append_assoc, List.append_assoc]
    exact List.take_left' rfl
  have middle : ((blockName fdate kind num).drop 3).take 14 = itos fdate 14 := by
    rw [blockName, List.append_assoc, List.append_assoc]
    exact List.take_left' date
  have last : (blockName fdate kind num).drop 18 = itos num 10 := by
    rw [blockName]
    exact List.drop_left' (by simp only [List.length_append, date]; rfl)
  have letter : (blockName fdate kind num).getD 17 0 = kind := by
    have front : (text "jDC" ++ itos fdate 14).length = 17 := by
      rw [List.length_append, date]
      rfl
    rw [blockName, List.append_assoc, List.getD_eq_getElem?_getD, List.getElem?_append_right (Nat.le_of_eq front),
      front]
    rfl
  simp only [readName]
  rw [if_pos, size, middle, last, letter, decimal_itos, decimal_itos, decimal_itos]
  refine ⟨length_blockName kind late numbered, head, ?_, ?_, ?_, ?_, ?_, ?_⟩
  · rwa [size, decimal_itos]
  · rw [middle]
    exact List.all_eq_true.mpr isdigit_itos
  · rwa [middle, decimal_itos]
  · rwa [middle, decimal_itos]
  · rw [last]
    exact List.all_eq_true.mpr isdigit_itos
  · rwa [last, decimal_itos]

theorem mem_blockName {fdate num : Nat} {kind c : UInt8} (mem : c ∈ blockName fdate kind num) :
    c ∈ text "jDC" ∨ isdigit c = true ∨ c = kind := by
  simp only [blockName, List.mem_append, List.mem_singleton] at mem
  rcases mem with ((front | date) | letter) | number
  · exact Or.inl front
  · exact Or.inr (Or.inl (isdigit_itos c date))
  · exact Or.inr (Or.inr letter)
  · exact Or.inr (Or.inl (isdigit_itos c number))

theorem not_mem_blockName {fdate num : Nat} {kind c : UInt8} (letters : c ∉ text "jDC")
    (digits : isdigit c = false) (other : c ≠ kind) : c ∉ blockName fdate kind num := by
  intro mem
  rcases mem_blockName mem with front | digit | letter
  · exact letters front
  · rw [digits] at digit
    cases digit
  · exact other letter

theorem slashes_blockName {fdate num : Nat} {kind : UInt8} (other : 92 ≠ kind) :
    ReadState.slashes (blockName fdate kind num) = blockName fdate kind num := by
  rw [ReadState.slashes]
  conv => rhs; rw [← List.map_id (blockName fdate kind num)]
  apply List.map_congr_left
  intro c mem
  have ne : c ≠ 92 := fun same => not_mem_blockName (by decide) (by decide) other (same ▸ mem)
  rw [if_neg ne, id]

/-! ## One block -/

/-- What the blocks of libzpaq are: a block says what is in it and where it ends, and a stored
block of eight bytes always has the same size. -/
structure Libzpaq.Stores (lib : Libzpaq) : Prop where
  length_sha1 : ∀ data, (lib.sha1 data).length = 20
  tag : ∀ method filename comment data, (lib.compressBlock method filename comment data).take 4 = text "7kSt"
  findBlock_nil : lib.findBlock [] = none
  findBlock_compressBlock : ∀ method filename comment data rest, 0 ∉ filename → 0 ∉ comment →
    filename.length ≤ 65535 → comment.length ≤ 65000 → data.length ≤ 2147479552 →
    ∃ head, lib.findBlock (lib.compressBlock method filename comment data ++ rest) =
      some ⟨[⟨filename, itos data.length 1 ++ 32 :: comment, head, .ok data, some (lib.sha1 data),
          (lib.compressBlock method filename comment data).length - 1⟩],
        .ok (lib.compressBlock method filename comment data).length⟩
  length_header : ∀ filename data, 0 ∉ filename → filename.length = 28 → data.length = 8 →
    (lib.compressBlock (text "0") filename jDC data).length = 104

variable {lib : Libzpaq} {options : Options}

/-- The entry of a fragment. -/
def HT.of (lib : Libzpaq) (f : Bytes) : HT := ⟨lib.sha1 f, f.length⟩

theorem Libzpaq.Stores.length_pos (stores : lib.Stores) (method filename comment data : Bytes) :
    0 < (lib.compressBlock method filename comment data).length := by
  have tag := congrArg List.length (stores.tag method filename comment data)
  have four : (text "7kSt").length = 4 := rfl
  rw [List.length_take, four] at tag
  omega

/-- A name and number that `read_archive` takes, of a block that is not too big. -/
structure Readable (fdate num : Nat) (os : Bytes) : Prop where
  early : 19000000000000 ≤ fdate
  late : fdate < 30000000000000
  numbered : num ≤ 0xffffffff
  small : os.length ≤ 2147479552

/-- A block that the table can say: numbers and sizes fit their fields. -/
structure Tabled (b : Zpaq.Block) (csize : Nat) : Prop where
  nonempty : b.frags ≠ []
  positive : 0 < b.start
  numbered : b.start + b.frags.length ≤ 0xffffffff
  small : ∀ f ∈ b.frags, f.length ≤ 0x7fffffff
  few : 4 + 24 * b.frags.length ≤ 2147479552
  compressed : csize < 4294967296
  data : (Addition.blockData b.frags).length ≤ 2147479552

/-- An index entry that `putEntry` can say. -/
structure Storable (p : Member) : Prop where
  noNul : 0 ∉ p.name
  short : p.name.length ≤ 65535
  deleted : p.date = 0 → p.attr = 0 ∧ p.ptr = []
  early : 0 ≤ p.date
  late : p.date < 9223372036854775808
  attr : p.attr = 0 ∨ p.attr % 256 = 117 ∧ p.attr < 16777216 ∨ p.attr % 256 = 119 ∧ p.attr < 1099511627776
  ptr : ∀ j ∈ p.ptr, j < 4294967296
  few : p.ptr.length ≤ 500000000

namespace ReadState

/-- A block with this name has been found. -/
def found (st : ReadState) (name : Bytes) : ReadState := { st with found_data := true, lastfile := name }

theorem readBlocks_nil (stores : lib.Stores) (pos : Nat) (st : ReadState) :
    readBlocks lib options pos [] st = st := by
  rw [readBlocks, stores.findBlock_nil]

section

variable {pos fdate num : Nat} {kind : UInt8} {method os rest : Bytes} {st st' : ReadState}

theorem comment_suffix (front : Bytes) :
    (front ++ 32 :: jDC).length ≥ 4 ∧ (front ++ 32 :: jDC).drop ((front ++ 32 :: jDC).length - 4) = jDC := by
  have four : (32 :: jDC).length = 5 := rfl
  have split : front ++ 32 :: jDC = (front ++ [32]) ++ jDC := by simp
  rw [List.length_append, four]
  refine ⟨by omega, ?_⟩
  rw [split]
  apply List.drop_left'
  rw [List.length_append, List.length_singleton]
  omega

theorem readJournaling_block (fits : Readable fdate num os) (known : kind ∈ text "chi") (head stop : Nat) :
    st.readJournaling lib options pos false
        ⟨blockName fdate kind num, itos os.length 1 ++ 32 :: jDC, head, .ok os, some (lib.sha1 os), stop⟩ =
      st.readKind options pos stop ⟨os.length, fdate, kind, num⟩ os := by
  have small : os.length ≤ 0xffffffff := fits.small.trans (by decide)
  rw [readJournaling, readName_blockName kind fits.early fits.late fits.numbered small]
  simp [known]

theorem readSegment_block (fits : Readable fdate num os) (known : kind ∈ text "chi") {head stop : Nat}
    {outcome : Outcome}
    (read : (st.found (blockName fdate kind num)).readKind options pos stop ⟨os.length, fdate, kind, num⟩ os =
      (st', outcome)) :
    { st with found_data := true }.readSegment lib options pos true false
        ⟨blockName fdate kind num, itos os.length 1 ++ 32 :: jDC, head, .ok os, some (lib.sha1 os), stop⟩ =
      (st', false, outcome) := by
  have slash : 92 ≠ kind := by
    rintro rfl
    revert known
    decide
  have named : blockName fdate kind num ≠ [] := by
    rw [← List.length_pos_iff, length_blockName kind fits.late fits.numbered]
    decide
  obtain ⟨long, suffix⟩ := comment_suffix (itos os.length 1)
  rw [readSegment]
  simp only [slashes_blockName slash, if_pos named, if_pos (And.intro long suffix)]
  rw [readJournaling_block fits known]
  rw [found] at read
  rw [read]

theorem findBlock_block (stores : lib.Stores) (fits : Readable fdate num os) (known : kind ∈ text "chi") :
    ∃ head, lib.findBlock (lib.compressBlock method (blockName fdate kind num) jDC os ++ rest) =
      some ⟨[⟨blockName fdate kind num, itos os.length 1 ++ 32 :: jDC, head, .ok os, some (lib.sha1 os),
          (lib.compressBlock method (blockName fdate kind num) jDC os).length - 1⟩],
        .ok (lib.compressBlock method (blockName fdate kind num) jDC os).length⟩ := by
  have letter : 0 ≠ kind := by
    rintro rfl
    revert known
    decide
  refine stores.findBlock_compressBlock method _ jDC os rest (not_mem_blockName (by decide) (by decide) letter)
    (by decide) ?_ (by decide) fits.small
  rw [length_blockName kind fits.late fits.numbered]
  decide

theorem readBlocks_next (stores : lib.Stores) (fits : Readable fdate num os) (known : kind ∈ text "chi")
    (read : (st.found (blockName fdate kind num)).readKind options pos
      ((lib.compressBlock method (blockName fdate kind num) jDC os).length - 1) ⟨os.length, fdate, kind, num⟩ os =
        (st', .next)) (rest : Bytes) :
    readBlocks lib options pos (lib.compressBlock method (blockName fdate kind num) jDC os ++ rest) st =
      readBlocks lib options (pos + (lib.compressBlock method (blockName fdate kind num) jDC os).length) rest
        { st' with
          first := false
          block_offset := pos + (lib.compressBlock method (blockName fdate kind num) jDC os).length } := by
  obtain ⟨head, found⟩ := @findBlock_block lib fdate num kind method os rest stores fits known
  have positive := stores.length_pos method (blockName fdate kind num) jDC os
  rw [readBlocks, found]
  simp only [readSegments, readSegment_block fits known read]
  rw [if_pos ⟨positive, by rw [List.length_append]; omega⟩, List.drop_left]

theorem readBlocks_seek (stores : lib.Stores) (fits : Readable fdate num os) (known : kind ∈ text "chi") {jmp : Nat}
    (read : (st.found (blockName fdate kind num)).readKind options pos
      ((lib.compressBlock method (blockName fdate kind num) jDC os).length - 1) ⟨os.length, fdate, kind, num⟩ os =
        (st', .seek ((lib.compressBlock method (blockName fdate kind num) jDC os).length + jmp))) (rest : Bytes) :
    readBlocks lib options pos (lib.compressBlock method (blockName fdate kind num) jDC os ++ rest) st =
      readBlocks lib options (pos + (lib.compressBlock method (blockName fdate kind num) jDC os).length + jmp)
        (rest.drop jmp) st' := by
  obtain ⟨head, found⟩ := @findBlock_block lib fdate num kind method os rest stores fits known
  have positive := stores.length_pos method (blockName fdate kind num) jDC os
  rw [readBlocks, found]
  simp only [readSegments, readSegment_block fits known read]
  rw [if_pos ⟨by omega, by rw [List.length_append]; omega⟩, List.drop_append, List.drop_eq_nil_of_le (by omega),
    List.nil_append, Nat.add_sub_cancel_left, Nat.add_assoc]

theorem readBlocks_done (stores : lib.Stores) (fits : Readable fdate num os) (known : kind ∈ text "chi")
    (read : (st.found (blockName fdate kind num)).readKind options pos
      ((lib.compressBlock method (blockName fdate kind num) jDC os).length - 1) ⟨os.length, fdate, kind, num⟩ os =
        (st', .done)) (rest : Bytes) :
    readBlocks lib options pos (lib.compressBlock method (blockName fdate kind num) jDC os ++ rest) st = st' := by
  obtain ⟨head, found⟩ := @findBlock_block lib fdate num kind method os rest stores fits known
  rw [readBlocks, found]
  simp only [readSegments, readSegment_block fits known read]

end

/-! ## The header -/

/-- A further version, whose header is at `pos` and whose data have the size `csize`. -/
def addVersion (st : ReadState) (pos fdate csize : Nat) : ReadState :=
  { st with
    before := st.before ++ [st.back]
    back :=
      { VER.new with
        firstFragment := st.ht.length
        offset := st.block_offset
        data_offset := pos + 104
        date := fdate
        lastdate := fdate
        csize := csize }
    data_offset := pos + 104
    dcsize := st.dcsize + csize }

section

variable {pos fdate num csize : Nat} {rest : Bytes} {st : ReadState}

theorem readable_header {os : Bytes} (eight : os.length = 8) (early : 19000000000000 ≤ fdate)
    (late : fdate < 30000000000000) (numbered : num ≤ 0xffffffff) : Readable fdate num os :=
  ⟨early, late, numbered, by rw [eight]; decide⟩

theorem readHeader_complete (small : csize < 9223372036854775808) (included : options.behind st.versions fdate = false) :
    st.readHeader options pos 103 fdate (puti csize 8) =
      (st.addVersion pos fdate csize, if csize = 0 then .next else .seek (104 + csize)) := by
  have jmp : btol (puti csize 8) = csize := by
    have read := btol_puti small []
    rwa [List.append_nil] at read
  rw [readHeader, length_puti, if_neg (by decide)]
  simp only [jmp, included]
  rw [if_neg (by simp)]
  simp [addVersion]

theorem readHeader_stops {os : Bytes} (eight : os.length = 8)
    (stops : btol os < 0 ∨ options.behind st.versions fdate = true) :
    st.readHeader options pos 103 fdate os = ({ st with data_offset := pos + 104 }, .done) := by
  rw [readHeader, if_neg (by omega)]
  simp only [if_pos stops]

theorem known_header : (99 : UInt8) ∈ text "chi" := by decide

theorem readKind_header {stop usize : Nat} {os : Bytes} :
    st.readKind options pos stop ⟨usize, fdate, 99, num⟩ os = st.readHeader options pos stop fdate os :=
  if_pos rfl

theorem writeJidacHeader_eq (small : csize < 9223372036854775808) :
    writeJidacHeader lib fdate csize num =
      lib.compressBlock (text "0") (blockName fdate 99 num) jDC (puti csize 8) := by
  have same : ((csize : Int) % 18446744073709551616).toNat = csize := by omega
  rw [writeJidacHeader, same]

variable (stores : lib.Stores) (early : 19000000000000 ≤ fdate) (late : fdate < 30000000000000)
  (numbered : num ≤ 0xffffffff)

include stores late numbered

theorem length_writeJidacHeader (cdata : Int) : (writeJidacHeader lib fdate cdata num).length = 104 :=
  stores.length_header _ _ (not_mem_blockName (by decide) (by decide) (by decide)) (length_blockName 99 late numbered)
    (length_puti _ 8)

include early

/-- A header without data behind it. -/
theorem readBlocks_header_empty (included : options.behind st.versions fdate = false) (pos : Nat) (rest : Bytes) :
    readBlocks lib options pos (writeJidacHeader lib fdate (0 : Nat) num ++ rest) st =
      readBlocks lib options (pos + 104) rest
        { (st.found (blockName fdate 99 num)).addVersion pos fdate 0 with
          first := false
          block_offset := pos + 104 } := by
  have length := length_writeJidacHeader stores late numbered (0 : Nat)
  rw [writeJidacHeader_eq (by decide)] at length ⊢
  have read : (st.found (blockName fdate 99 num)).readHeader options pos 103 fdate (puti 0 8) =
      ((st.found (blockName fdate 99 num)).addVersion pos fdate 0, .next) :=
    readHeader_complete (by decide) included
  have step := readBlocks_next stores (readable_header (length_puti 0 8) early late numbered)
    known_header (by rw [length, readKind_header]; exact read) rest
  rwa [length] at step

theorem readBlocks_header_data (small : csize < 9223372036854775808) (some : csize ≠ 0)
    (included : options.behind st.versions fdate = false) (pos : Nat) (rest : Bytes) :
    readBlocks lib options pos (writeJidacHeader lib fdate csize num ++ rest) st =
      readBlocks lib options (pos + 104 + csize) (rest.drop csize)
        ((st.found (blockName fdate 99 num)).addVersion pos fdate csize) := by
  have length := length_writeJidacHeader stores late numbered (csize : Int)
  rw [writeJidacHeader_eq small] at length ⊢
  have read : (st.found (blockName fdate 99 num)).readHeader options pos 103 fdate (puti csize 8) =
      ((st.found (blockName fdate 99 num)).addVersion pos fdate csize, .seek (104 + csize)) := by
    have included : options.behind (st.found (blockName fdate 99 num)).versions fdate = false := included
    rw [readHeader_complete small included, if_neg some]
  have step := readBlocks_seek stores (readable_header (length_puti csize 8) early late numbered)
    known_header (by rw [length, readKind_header]; exact read) rest
  rwa [length] at step

/-- The header of an update that is not complete, or that is behind the last one to read. -/
theorem readBlocks_header_stops {cdata : Int}
    (stops : cdata = -1 ∨ ∃ csize : Nat, cdata = csize ∧ csize < 9223372036854775808 ∧ options.behind st.versions fdate = true)
    (pos : Nat) (rest : Bytes) :
    readBlocks lib options pos (writeJidacHeader lib fdate cdata num ++ rest) st =
      { st.found (blockName fdate 99 num) with data_offset := pos + 104 } := by
  have length := length_writeJidacHeader stores late numbered cdata
  have stops : btol (puti (cdata % 18446744073709551616).toNat 8) < 0 ∨
      options.behind (st.found (blockName fdate 99 num)).versions fdate = true := by
    rcases stops with rfl | ⟨csize, -, -, behind⟩
    · left
      rw [btol_unfinished]
      decide
    · exact Or.inr behind
  have read : (st.found (blockName fdate 99 num)).readHeader options pos 103 fdate
      (puti (cdata % 18446744073709551616).toNat 8) =
      ({ st.found (blockName fdate 99 num) with data_offset := pos + 104 }, .done) :=
    readHeader_stops (length_puti _ 8) stops
  rw [writeJidacHeader] at length ⊢
  exact readBlocks_done stores (readable_header (length_puti _ 8) early late numbered) known_header
    (by rw [length, readKind_header]; exact read) rest

end

/-! ## The fragment table -/

/-- A block of fragments with its entries, behind the data that have been read. -/
def addTable (lib : Libzpaq) (st : ReadState) (b : Zpaq.Block) (csize : Nat) : ReadState :=
  { st with
    ht := st.ht ++ b.frags.map (HT.of lib)
    block := st.block ++ [⟨b.start, st.data_offset, (Addition.blockData b.frags).length, csize, b.frags.length⟩]
    dhsize := st.dhsize + csize
    data_offset := st.data_offset + csize }

section

variable {st : ReadState}

/-- The next number is that of the first fragment behind those that are known. -/
theorem set_grow (ht : List HT) (entry : HT) : (grow ht ht.length).set ht.length entry = ht ++ [entry] := by
  have one : ht.length + 1 - ht.length = 1 := by omega
  rw [grow, one, List.set_append_right _ _ le_rfl, Nat.sub_self]
  rfl

/-- The induction is on the fragments, each of which gets the next number. -/
theorem readFragmentSizes_eq (st : ReadState) (stores : lib.Stores) {frags : List Bytes} (small : ∀ f ∈ frags, f.length ≤ 0x7fffffff)
    (ht : List HT) (blocks : List Block) (b : Block) :
    readFragmentSizes ht.length frags.length (frags.flatMap fun f => lib.sha1 f ++ puti f.length 4)
        { st with ht := ht, block := blocks ++ [b] } =
      ({ st with
        ht := ht ++ frags.map (HT.of lib)
        block := blocks ++ [{ b with usize := b.usize + (frags.map fun f => (f.length : Int) + 4).sum }] }, true) := by
  induction frags generalizing ht b with
  | nil => simp [readFragmentSizes]
  | cons f frags ih =>
    have fits := small f List.mem_cons_self
    have hash := stores.length_sha1 f
    have size : btoi ((lib.sha1 f ++ puti f.length 4 ++ frags.flatMap fun f => lib.sha1 f ++ puti f.length 4).drop 20) =
        f.length := by
      rw [List.append_assoc, List.drop_left' hash]
      exact btoi_puti (by omega) _
    have behind : (lib.sha1 f ++ puti f.length 4 ++ frags.flatMap fun f => lib.sha1 f ++ puti f.length 4).drop 24 =
        frags.flatMap fun f => lib.sha1 f ++ puti f.length 4 :=
      List.drop_left' (by rw [List.length_append, hash, length_puti])
    have front : (lib.sha1 f ++ puti f.length 4 ++ frags.flatMap fun f => lib.sha1 f ++ puti f.length 4).take 20 =
        lib.sha1 f := by
      rw [List.append_assoc, List.take_left' hash]
    rw [List.flatMap_cons, List.length_cons, readFragmentSizes]
    simp only [size, behind, front]
    rw [if_neg (by omega), set_grow, List.modifyLast_concat]
    have next := ih (fun g mem => small g (List.mem_cons_of_mem _ mem)) (ht ++ [⟨lib.sha1 f, f.length⟩])
      { b with usize := b.usize + (f.length + 4) }
    rw [List.length_append, List.length_singleton] at next
    rw [next]
    simp [HT.of, Int.add_assoc]

theorem length_table (stores : lib.Stores) (frags : List Bytes) :
    (frags.flatMap fun f => lib.sha1 f ++ puti f.length 4).length = 24 * frags.length := by
  induction frags with
  | nil => rfl
  | cons f frags ih =>
    rw [List.flatMap_cons, List.length_append, ih, List.length_append, stores.length_sha1, length_puti,
      List.length_cons]
    omega

/-- The uncompressed size that the table makes of the sizes. -/
theorem length_blockData (frags : List Bytes) :
    ((Addition.blockData frags).length : Int) = 8 + (frags.map fun f => (f.length : Int) + 4).sum := by
  have sizes : (frags.flatten.length : Int) + (frags.flatMap fun f => puti f.length 4).length =
      (frags.map fun f => (f.length : Int) + 4).sum := by
    induction frags with
    | nil => rfl
    | cons f frags ih =>
      rw [List.map_cons, List.sum_cons, ← ih]
      simp only [List.flatten_cons, List.flatMap_cons, List.length_append, length_puti]
      omega
  rw [← sizes, Addition.blockData]
  simp only [List.length_append, length_puti]
  omega

theorem readFragmentTable_eq (st : ReadState) (stores : lib.Stores) {b : Zpaq.Block} {csize : Nat} (fits : Tabled b csize)
    (here : b.start = st.ht.length) (fdate stop : Nat) :
    st.readFragmentTable stop fdate b.start
        (puti csize 4 ++ b.frags.flatMap fun f => lib.sha1 f ++ puti f.length 4) =
      ((st.seen fdate).addTable lib b csize, .next) := by
  have count := List.length_pos_iff.mpr fits.nonempty
  have numbered := fits.numbered
  have positive := fits.positive
  have length : (puti csize 4 ++ b.frags.flatMap fun f => lib.sha1 f ++ puti f.length 4).length =
      4 + 24 * b.frags.length := by
    rw [List.length_append, length_puti, length_table stores]
  have n : (4 + 24 * b.frags.length - 4) / 24 = b.frags.length := by omega
  have n' : (4 + 24 * b.frags.length) / 24 = b.frags.length := by omega
  have sizes := readFragmentSizes_eq { st.seen fdate with dhsize := st.dhsize + csize } stores fits.small st.ht st.block
    ⟨b.start, st.data_offset, 8, csize, b.frags.length⟩
  rw [readFragmentTable]
  simp only [length, n, n', btoi_puti fits.compressed, drop_puti, if_pos count]
  rw [if_neg (by omega), here]
  simp only [seen] at sizes ⊢
  rw [← here] at sizes ⊢
  rw [sizes]
  simp only [addTable, length_blockData]

theorem seen_of_dated {fdate : Nat} (dated : st.back.lastdate = fdate) : st.seen fdate = st := by
  rw [seen, dated, max_self, ← dated]

theorem readKind_table {pos stop usize fdate num : Nat} {os : Bytes} :
    st.readKind options pos stop ⟨usize, fdate, 104, num⟩ os = st.readFragmentTable stop fdate num os := by
  simp [readKind]

theorem readBlocks_table (stores : lib.Stores) {a : Addition} {b : Zpaq.Block} {csize : Nat} (fits : Tabled b csize)
    (early : 19000000000000 ≤ a.date) (late : a.date < 30000000000000) (here : b.start = st.ht.length)
    (dated : st.back.lastdate = a.date) (pos : Nat) (rest : Bytes) :
    ∃ name, readBlocks lib options pos (a.fragmentTable lib b csize ++ rest) st =
      readBlocks lib options (pos + (a.fragmentTable lib b csize).length) rest
        { (st.found name).addTable lib b csize with
          first := false
          block_offset := pos + (a.fragmentTable lib b csize).length } := by
  have numbered := fits.numbered
  have few := fits.few
  have known : (104 : UInt8) ∈ text "chi" := by decide
  have readable : Readable a.date b.start (puti csize 4 ++ b.frags.flatMap fun f => lib.sha1 f ++ puti f.length 4) :=
    ⟨early, late, by omega, by rw [List.length_append, length_puti, length_table stores]; exact few⟩
  refine ⟨blockName a.date 104 b.start, readBlocks_next stores readable known ?_ rest⟩
  have read := readFragmentTable_eq (st.found (blockName a.date 104 b.start)) stores fits here a.date
    ((a.fragmentTable lib b csize).length - 1)
  have dated : (st.found (blockName a.date 104 b.start)).back.lastdate = a.date := dated
  rw [seen_of_dated dated] at read
  rw [readKind_table]
  exact read

end

/-! ## The index -/

/-- The index entries one after the other. -/
def addEntries (options : Options) (st : ReadState) (entries : List Member) : ReadState :=
  { st with
    back := { st.back with
      updates := st.back.updates + entries.countP fun p => p.date ≠ 0
      deletes := st.back.deletes + entries.countP fun p => p.date = 0 }
    dt := putAll Member.name (entries.filter fun p => options.issel p.name) st.dt }

section

variable {st : ReadState} {p : Member}

theorem takeWhile_name {name : Bytes} (noNul : 0 ∉ name) (rest : Bytes) :
    (name ++ 0 :: rest).takeWhile (fun c => decide (c ≠ 0)) = name := by
  rw [List.takeWhile_append_of_pos, List.takeWhile_cons_of_neg (by simp), List.append_nil]
  intro c mem
  have ne : c ≠ 0 := fun same => noNul (same ▸ mem)
  simpa using ne

theorem readEntry_front (date : Nat) (dated : date < 9223372036854775808) {name : Bytes} (noNul : 0 ∉ name)
    (short : name.length ≤ 65535) (rest : Bytes) :
    readEntry (puti date 8 ++ (name ++ 0 :: rest)) =
      if date = 0 then some (deletion name, rest) else readFile name date rest := by
  have behind : (puti date 8 ++ (name ++ 0 :: rest)).drop (8 + name.length) = 0 :: rest := by
    rw [← List.append_assoc]
    exact List.drop_left' (by rw [List.length_append, length_puti])
  rw [readEntry]
  simp only [btol_puti dated, drop_puti, takeWhile_name noNul, behind]
  rw [if_neg (by simpa using short), List.drop_one, List.tail_cons]
  by_cases zero : date = 0
  · simp [zero, deletion]
  · simp [zero]

theorem putAttr_cases (attr : Nat) (known : attr = 0 ∨ attr % 256 = 117 ∧ attr < 16777216 ∨
      attr % 256 = 119 ∧ attr < 1099511627776) :
    ∃ na ≤ 5, ∃ field : Bytes, Addition.putAttr attr = puti na 4 ++ field ∧ field.length = na ∧
      ofLittleEndian field = attr := by
  rcases known with rfl | ⟨unix, small⟩ | ⟨windows, small⟩
  · exact ⟨0, by decide, [], rfl, rfl, rfl⟩
  · refine ⟨3, by decide, puti attr 3, if_pos unix, length_puti attr 3, ofLittleEndian_of_lt ?_⟩
    omega
  · refine ⟨5, by decide, puti attr 5, ?_, length_puti attr 5, ofLittleEndian_of_lt ?_⟩
    · rw [Addition.putAttr, if_neg (by omega), if_pos windows]
    · omega

theorem length_ptr (ptr : List Nat) : (ptr.flatMap fun j => puti j 4).length = 4 * ptr.length := by
  induction ptr with
  | nil => rfl
  | cons j ptr ih =>
    rw [List.flatMap_cons, List.length_append, ih, length_puti, List.length_cons]
    omega

theorem read_ptr {ptr : List Nat} (small : ∀ j ∈ ptr, j < 4294967296) (rest : Bytes) :
    ((List.range ptr.length).map fun i => btoi (((ptr.flatMap fun j => puti j 4) ++ rest).drop (4 * i))) = ptr := by
  induction ptr with
  | nil => rfl
  | cons j ptr ih =>
    rw [List.length_cons, List.range_succ_eq_map, List.map_cons, List.map_map, List.flatMap_cons, List.append_assoc,
      Nat.mul_zero, List.drop_zero, btoi_puti (small j List.mem_cons_self)]
    congr 1
    refine Eq.trans (List.map_congr_left ?_) (ih fun k mem => small k (List.mem_cons_of_mem _ mem))
    intro i _
    have next : 4 * (i + 1) = 4 + 4 * i := by omega
    rw [Function.comp_apply, Nat.succ_eq_add_one, next, ← List.drop_drop, drop_puti]

theorem readFile_putEntry {attr : Nat} {ptr : List Nat} (known : attr = 0 ∨ attr % 256 = 117 ∧ attr < 16777216 ∨
      attr % 256 = 119 ∧ attr < 1099511627776) (small : ∀ j ∈ ptr, j < 4294967296) (few : ptr.length ≤ 500000000)
    (name : Bytes) (date : Int) (rest : Bytes) :
    readFile name date (Addition.putAttr attr ++ (puti ptr.length 4 ++ ((ptr.flatMap fun j => puti j 4) ++ rest))) =
      some (⟨name, date, attr, ptr⟩, rest) := by
  obtain ⟨na, short, field, put, length, value⟩ := putAttr_cases attr known
  have size := length_ptr ptr
  have taken : (field ++ (puti ptr.length 4 ++ ((ptr.flatMap fun j => puti j 4) ++ rest))).take na = field :=
    List.take_left' length
  have behind : (puti na 4 ++ (field ++ (puti ptr.length 4 ++ ((ptr.flatMap fun j => puti j 4) ++ rest)))).drop
      (4 + na) = puti ptr.length 4 ++ ((ptr.flatMap fun j => puti j 4) ++ rest) := by
    rw [← List.drop_drop, drop_puti, List.drop_left' length]
  have ends : (puti ptr.length 4 ++ ((ptr.flatMap fun j => puti j 4) ++ rest)).drop (4 + 4 * ptr.length) = rest := by
    rw [← List.drop_drop, drop_puti, List.drop_left' size]
  rw [readFile, put, List.append_assoc]
  simp only [btoi_puti (by omega : na < 4294967296), btoi_puti (by omega : ptr.length < 4294967296), drop_puti, taken,
    behind, ends, List.take_of_length_le (by omega : field.length ≤ 8), value]
  rw [if_neg, if_neg]
  · simp only [← List.drop_drop, drop_puti, read_ptr small]
  · simp only [List.length_append, length_puti, size]
    omega
  · simp only [List.length_append, length_puti, size, length]
    omega

theorem readEntry_putEntry (fits : Storable p) (rest : Bytes) :
    readEntry (Addition.putEntry p ++ rest) = some (p, rest) := by
  have early := fits.early
  have late := fits.late
  have date : ((p.date % 18446744073709551616).toNat : Int) = p.date := by omega
  rw [Addition.putEntry]
  split
  next deleted =>
    have front := readEntry_front 0 (by decide) fits.noNul fits.short rest
    obtain ⟨attr, ptr⟩ := fits.deleted deleted
    rw [if_pos rfl] at front
    rw [List.append_assoc, List.append_assoc, List.singleton_append, front, deletion, ← deleted, ← attr, ← ptr]
  next kept =>
    have front := readEntry_front (p.date % 18446744073709551616).toNat (by omega) fits.noNul fits.short
      (Addition.putAttr p.attr ++ (puti p.ptr.length 4 ++ ((p.ptr.flatMap fun j => puti j 4) ++ rest)))
    rw [if_neg (by omega), readFile_putEntry fits.attr fits.ptr fits.few, date] at front
    simpa using front

theorem btol_putEntry (fits : Storable p) (rest : Bytes) : btol (Addition.putEntry p ++ rest) = p.date := by
  have early := fits.early
  have late := fits.late
  rw [Addition.putEntry]
  split
  next deleted =>
    rw [List.append_assoc, List.append_assoc, btol_zero, deleted]
  next kept =>
    simp only [List.append_assoc]
    rw [btol_puti (by omega)]
    omega

theorem length_putEntry (p : Member) : 9 ≤ (Addition.putEntry p).length := by
  rw [Addition.putEntry]
  split
  · simp only [List.length_append, length_puti, List.length_singleton]
    omega
  · simp only [List.length_append, length_puti, List.length_singleton]
    omega

theorem addEntries_cons (p : Member) (entries : List Member) :
    addEntries options (addEntries options st [p]) entries = addEntries options st (p :: entries) := by
  by_cases selected : options.issel p.name = true
  · by_cases deleted : p.date = 0
    · simp [addEntries, deleted, selected, putAll, Nat.add_comm, Nat.add_assoc]
    · simp [addEntries, deleted, selected, putAll, Nat.add_comm, Nat.add_assoc]
  · by_cases deleted : p.date = 0
    · simp [addEntries, deleted, selected, putAll, Nat.add_comm, Nat.add_assoc]
    · simp [addEntries, deleted, selected, putAll, Nat.add_comm, Nat.add_assoc]

/-- The induction is on the entries, each of which is read in front of the rest. -/
theorem readEntries_eq {entries : List Member} (fits : ∀ p ∈ entries, Storable p) :
    readEntries options (entries.flatMap Addition.putEntry) st = (addEntries options st entries, true) := by
  induction entries generalizing st with
  | nil =>
    rw [List.flatMap_nil, readEntries, if_pos (by decide)]
    simp [addEntries, putAll]
  | cons p entries ih =>
    have fitsP := fits p List.mem_cons_self
    have long := length_putEntry p
    rw [List.flatMap_cons, readEntries, if_neg (by rw [List.length_append]; omega), readEntry_putEntry fitsP,
      btol_putEntry fitsP]
    simp only
    rw [if_pos (by rw [List.length_append]; omega), ih fun q mem => fits q (List.mem_cons_of_mem _ mem),
      ← addEntries_cons]
    congr 2
    by_cases deleted : p.date = 0
    · by_cases selected : options.issel p.name = true
      · simp [addEntries, deleted, selected, putAll]
      · simp [addEntries, deleted, selected, putAll]
    · by_cases selected : options.issel p.name = true
      · simp [addEntries, deleted, selected, putAll]
      · simp [addEntries, deleted, selected, putAll]

end

/-! ## One update -/

/-- The place after a block, with the name that was found last. -/
def afterBlock (st : ReadState) (pos : Nat) (name : Bytes) : ReadState :=
  { st with
    found_data := true
    first := false
    block_offset := pos
    lastfile := name }

/-- Nothing but a name has changed since the last block. -/
structure After (st : ReadState) (pos : Nat) : Prop where
  found_data : st.found_data = true
  first : st.first = false
  block_offset : st.block_offset = pos

theorem After.eq {st : ReadState} {pos : Nat} (after : st.After pos) : st.afterBlock pos st.lastfile = st := by
  rw [afterBlock, ← after.found_data, ← after.first, ← after.block_offset]

theorem After.afterBlock (st : ReadState) (pos : Nat) (name : Bytes) : (st.afterBlock pos name).After pos :=
  ⟨rfl, rfl, rfl⟩

section

variable {a : Addition} {st : ReadState}

def addTables (lib : Libzpaq) (a : Addition) (st : ReadState) (blocks : List Zpaq.Block) : ReadState :=
  blocks.foldl (fun st b => st.addTable lib b (a.csize lib b)) st

theorem addTables_afterBlock (blocks : List Zpaq.Block) (pos : Nat) (name : Bytes) :
    addTables lib a (st.afterBlock pos name) blocks = (addTables lib a st blocks).afterBlock pos name := by
  induction blocks generalizing st with
  | nil => rfl
  | cons b blocks ih => exact @ih (st.addTable lib b (a.csize lib b))

theorem addTables_found (blocks : List Zpaq.Block) (name : Bytes) :
    addTables lib a (st.found name) blocks = (addTables lib a st blocks).found name := by
  induction blocks generalizing st with
  | nil => rfl
  | cons b blocks ih => exact @ih (st.addTable lib b (a.csize lib b))

theorem lastdate_addTables (blocks : List Zpaq.Block) :
    (addTables lib a st blocks).back.lastdate = st.back.lastdate := by
  induction blocks generalizing st with
  | nil => rfl
  | cons b blocks ih => exact @ih (st.addTable lib b (a.csize lib b))

/-- The induction is on the blocks; each adds its entries behind those of the ones before. -/
theorem readBlocks_tables (stores : lib.Stores) (early : 19000000000000 ≤ a.date) (late : a.date < 30000000000000)
    {blocks : List (List Bytes)} (fits : ∀ b ∈ layout st.ht.length blocks, Tabled b (a.csize lib b))
    (dated : st.back.lastdate = a.date) {pos : Nat} (after : st.After pos ∨ blocks ≠ []) (rest : Bytes) :
    ∃ name, readBlocks lib options pos
        (((layout st.ht.length blocks).flatMap fun b => a.fragmentTable lib b (a.csize lib b)) ++ rest) st =
      readBlocks lib options
        (pos + ((layout st.ht.length blocks).flatMap fun b => a.fragmentTable lib b (a.csize lib b)).length) rest
        ((addTables lib a st (layout st.ht.length blocks)).afterBlock
          (pos + ((layout st.ht.length blocks).flatMap fun b => a.fragmentTable lib b (a.csize lib b)).length) name) := by
  induction blocks generalizing st pos with
  | nil =>
    rcases after with after | nonempty
    · exact ⟨st.lastfile, by simp [addTables, after.eq]⟩
    · exact absurd rfl nonempty
  | cons frags blocks ih =>
    rw [layout] at fits ⊢
    obtain ⟨name, step⟩ := @readBlocks_table lib options st stores a ⟨st.ht.length, frags⟩ _
      (fits _ List.mem_cons_self) early late rfl dated pos
      (((layout (st.ht.length + frags.length) blocks).flatMap fun b => a.fragmentTable lib b (a.csize lib b)) ++ rest)
    let b : Zpaq.Block := ⟨st.ht.length, frags⟩
    let next := (st.addTable lib b (a.csize lib b)).afterBlock
      (pos + (a.fragmentTable lib b (a.csize lib b)).length) name
    have grown : next.ht.length = st.ht.length + frags.length := by
      simp [next, afterBlock, addTable, b]
    obtain ⟨last, tail⟩ := @ih next (by rw [grown]; exact fun b mem => fits b (List.mem_cons_of_mem _ mem)) dated _
      (Or.inl (After.afterBlock _ _ name))
    rw [grown] at tail
    refine ⟨last, ?_⟩
    rw [List.flatMap_cons, List.append_assoc, List.length_append, ← Nat.add_assoc]
    refine step.trans (tail.trans ?_)
    simp only [next, addTables_afterBlock]
    rfl

theorem itos_of_ne {x : Nat} (some : x ≠ 0) (n : Nat) : itos x n = itos (x / 10) (n - 1) ++ [(48 + x % 10).toUInt8] := by
  rw [itos, if_neg (by simp [some])]

/-- The name of an i block has as many digits as the others, as dates have 14. -/
theorem itos_date {fdate : Nat} (early : 19000000000000 ≤ fdate) : itos fdate 1 = itos fdate 14 := by
  have widths : ∀ n x m k, 10 ^ n ≤ x → m ≤ n + 1 → k ≤ n + 1 → itos x m = itos x k := by
    intro n
    induction n with
    | zero =>
      intro x m k big hm hk
      have positive : x ≠ 0 := by omega
      rw [itos_of_ne positive m, itos_of_ne positive k]
      have hm : m - 1 = 0 := by omega
      have hk : k - 1 = 0 := by omega
      rw [hm, hk]
    | succ n ih =>
      intro x m k big hm hk
      have positive : x ≠ 0 := by
        have := Nat.pow_pos (n := n + 1) (by decide : 0 < 10)
        omega
      have front : 10 ^ n ≤ x / 10 := by
        rw [Nat.pow_succ] at big
        omega
      rw [itos_of_ne positive m, itos_of_ne positive k, ih (x / 10) (m - 1) (k - 1) front (by omega) (by omega)]
  exact widths 13 fdate 1 14 (by omega) (by decide) (by decide)

theorem indexBlock_eq (early : 19000000000000 ≤ a.date) (k : Nat) (entries : Bytes) :
    a.indexBlock lib k entries = lib.compressBlock (text "1") (blockName a.date 105 k) jDC entries := by
  rw [Addition.indexBlock, itos_date early, blockName]

theorem readKind_index {pos stop usize fdate num : Nat} {os : Bytes} :
    st.readKind options pos stop ⟨usize, fdate, 105, num⟩ os = st.readIndex options stop fdate os := by
  simp [readKind]

theorem readBlocks_indexBlock (stores : lib.Stores) (early : 19000000000000 ≤ a.date) (late : a.date < 30000000000000)
    {entries : List Member} (fits : ∀ p ∈ entries, Storable p) {k : Nat} (numbered : k ≤ 0xffffffff)
    (small : (entries.flatMap Addition.putEntry).length ≤ 2147479552) (dated : st.back.lastdate = a.date) (pos : Nat)
    (rest : Bytes) :
    ∃ name, readBlocks lib options pos (a.indexBlock lib k (entries.flatMap Addition.putEntry) ++ rest) st =
      readBlocks lib options (pos + (a.indexBlock lib k (entries.flatMap Addition.putEntry)).length) rest
        ((addEntries options st entries).afterBlock
          (pos + (a.indexBlock lib k (entries.flatMap Addition.putEntry)).length) name) := by
  have known : (105 : UInt8) ∈ text "chi" := by decide
  have readable : Readable a.date k (entries.flatMap Addition.putEntry) := ⟨early, late, numbered, small⟩
  have dated : (st.found (blockName a.date 105 k)).back.lastdate = a.date := dated
  have read (stop : Nat) : (st.found (blockName a.date 105 k)).readKind options pos stop
      ⟨(entries.flatMap Addition.putEntry).length, a.date, 105, k⟩ (entries.flatMap Addition.putEntry) =
        (addEntries options (st.found (blockName a.date 105 k)) entries, .next) := by
    rw [readKind_index, readIndex, seen_of_dated dated, readEntries_eq fits]
  rw [indexBlock_eq early]
  exact ⟨blockName a.date 105 k, readBlocks_next stores readable known (read _) rest⟩

theorem length_putEntry_le {p : Member} (fits : Storable p) : (Addition.putEntry p).length ≤ 2000065557 := by
  obtain ⟨na, short, field, put, length, -⟩ := putAttr_cases p.attr fits.attr
  have name := fits.short
  have few := fits.few
  rw [Addition.putEntry]
  split
  · simp only [List.length_append, length_puti, List.length_singleton]
    omega
  · simp only [List.length_append, length_puti, List.length_singleton, put, length_ptr]
    omega

theorem addEntries_append (held entries : List Member) :
    addEntries options (addEntries options st held) entries = addEntries options st (held ++ entries) := by
  simp [addEntries, putAll, Nat.add_assoc]

/-- The induction is on the entries that are still to come; those before are in the buffer. -/
theorem readBlocks_indexBlocks (stores : lib.Stores) (early : 19000000000000 ≤ a.date) (late : a.date < 30000000000000)
    {held entries : List Member} (fitsHeld : ∀ p ∈ held, Storable p) (fits : ∀ p ∈ entries, Storable p)
    (small : (held.flatMap Addition.putEntry).length ≤ 16000) {k : Nat} (numbered : k + entries.length < 0xffffffff)
    (dated : st.back.lastdate = a.date) {pos : Nat} (after : st.After pos) (rest : Bytes) :
    ∃ name, readBlocks lib options pos
        (a.indexBlocks lib (held.flatMap Addition.putEntry) k entries ++ rest) st =
      readBlocks lib options (pos + (a.indexBlocks lib (held.flatMap Addition.putEntry) k entries).length) rest
        ((addEntries options st (held ++ entries)).afterBlock
          (pos + (a.indexBlocks lib (held.flatMap Addition.putEntry) k entries).length) name) := by
  induction entries generalizing held k st pos with
  | nil =>
    rw [Addition.indexBlocks, List.append_nil]
    split
    next some =>
      exact readBlocks_indexBlock stores early late fitsHeld (by simp at numbered; omega) (by omega) dated pos rest
    next none =>
      have nothing : held = [] := by
        cases held with
        | nil => rfl
        | cons p held =>
          have long := length_putEntry p
          rw [List.flatMap_cons, List.length_append] at none
          omega
      refine ⟨st.lastfile, ?_⟩
      rw [nothing]
      simp [addEntries, putAll, after.eq]
  | cons p entries ih =>
    have fitsP := fits p List.mem_cons_self
    have long := length_putEntry_le fitsP
    have more : held.flatMap Addition.putEntry ++ Addition.putEntry p = (held ++ [p]).flatMap Addition.putEntry := by
      simp
    have fitsMore : ∀ q ∈ held ++ [p], Storable q := by
      intro q mem
      rcases List.mem_append.mp mem with old | new
      · exact fitsHeld q old
      · rwa [List.mem_singleton.mp new]
    have fitsRest : ∀ q ∈ entries, Storable q := fun q mem => fits q (List.mem_cons_of_mem _ mem)
    have split : held ++ p :: entries = (held ++ [p]) ++ entries := by simp
    rw [List.length_cons] at numbered
    rw [Addition.indexBlocks]
    simp only [more]
    split
    next full =>
      have fitsSize : ((held ++ [p]).flatMap Addition.putEntry).length ≤ 2147479552 := by
        rw [← more, List.length_append]
        omega
      obtain ⟨name, step⟩ := @readBlocks_indexBlock lib options a st stores early late (held ++ [p]) fitsMore (k + 1)
        (by omega) fitsSize dated pos (a.indexBlocks lib [] (k + 1) entries ++ rest)
      obtain ⟨last, tail⟩ := @ih ((addEntries options st (held ++ [p])).afterBlock
        (pos + (a.indexBlock lib (k + 1) ((held ++ [p]).flatMap Addition.putEntry)).length) name) [] (by simp) fitsRest
        (by simp) (k + 1) (by omega) dated _ (After.afterBlock _ _ name)
      refine ⟨last, ?_⟩
      rw [List.append_assoc, List.length_append, ← Nat.add_assoc]
      rw [List.flatMap_nil, List.nil_append] at tail
      refine step.trans (tail.trans ?_)
      rw [split, ← addEntries_append (held ++ [p]) entries]
      rfl
    next room =>
      rw [split]
      exact ih fitsMore fitsRest (by omega) (by omega) dated after

/-- What an update adds: its version, its blocks and its index entries. -/
def addUpdate (lib : Libzpaq) (options : Options) (st : ReadState) (pos : Nat) (a : Addition) : ReadState :=
  addEntries options
    (addTables lib a (st.addVersion pos a.date (a.data lib st.ht.length).length) (a.blocks st.ht.length))
    a.update.index

end

end ReadState

/-- An update whose numbers fit the fields of the format. -/
structure Addition.Fits (lib : Libzpaq) (a : Addition) (htsize : Nat) : Prop where
  early : 19000000000000 ≤ a.date
  late : a.date < 30000000000000
  numbered : htsize ≤ 0xffffffff
  blocks : ∀ b ∈ a.blocks htsize, Tabled b (a.csize lib b)
  data : (a.data lib htsize).length < 9223372036854775808
  index : ∀ p ∈ a.update.index, Storable p
  few : a.update.index.length < 0xffffffff

namespace ReadState

section

variable {a : Addition} {st : ReadState}

theorem fragmentTables_eq {htsize : Nat} (nonempty : ∀ b ∈ a.blocks htsize, b.frags ≠ []) :
    a.fragmentTables lib htsize ((a.blocks htsize).map (a.csize lib)) =
      (a.blocks htsize).flatMap fun b => a.fragmentTable lib b (a.csize lib b) := by
  rw [Addition.fragmentTables, List.zipWith_map_right, List.zipWith_self, List.flatMap_def]
  congr 1
  apply List.map_congr_left
  intro b mem
  rw [if_pos (nonempty b mem)]

theorem data_pos (stores : lib.Stores) {htsize : Nat} (some : a.update.blocks ≠ []) :
    (a.data lib htsize).length ≠ 0 := by
  cases blocks : a.update.blocks with
  | nil => exact absurd blocks some
  | cons frags rest =>
    have positive := stores.length_pos (a.method htsize) (blockName a.date 100 htsize) jDC (Addition.blockData frags)
    rw [Addition.data, Addition.blocks, blocks, layout, List.flatMap_cons, List.length_append]
    exact Nat.ne_of_gt (Nat.add_pos_left positive _)

/-- The h and i blocks, when the header and the data have been read. -/
theorem readBlocks_tail (stores : lib.Stores) (fits : a.Fits lib st.ht.length) (dated : st.back.lastdate = a.date)
    {pos : Nat} (after : st.After pos ∨ a.update.blocks ≠ []) (rest : Bytes) :
    ∃ name, readBlocks lib options pos (a.tables lib st.ht.length ++ rest) st =
      readBlocks lib options (pos + (a.tables lib st.ht.length).length) rest
        ((addEntries options (addTables lib a st (a.blocks st.ht.length)) a.update.index).afterBlock
          (pos + (a.tables lib st.ht.length).length) name) := by
  obtain ⟨name, tables⟩ := @readBlocks_tables lib options a st stores fits.early fits.late a.update.blocks fits.blocks
    dated pos after (a.indexBlocks lib [] 0 a.update.index ++ rest)
  have nonempty : ∀ b ∈ a.blocks st.ht.length, b.frags ≠ [] := fun b mem => (fits.blocks b mem).nonempty
  obtain ⟨last, index⟩ := @readBlocks_indexBlocks lib options a
    ((addTables lib a st (a.blocks st.ht.length)).afterBlock
      (pos + ((a.blocks st.ht.length).flatMap fun b => a.fragmentTable lib b (a.csize lib b)).length) name)
    stores fits.early fits.late [] a.update.index (by simp) fits.index (by simp) 0
    (by rw [Nat.zero_add]; exact fits.few) (by rw [← dated]; exact lastdate_addTables _) _ (After.afterBlock _ _ name) rest
  rw [List.flatMap_nil, List.nil_append] at index
  refine ⟨last, ?_⟩
  rw [Addition.tables, fragmentTables_eq nonempty, List.append_assoc, List.length_append, ← Nat.add_assoc]
  exact tables.trans index

/-- A complete update is read as what it adds. -/
theorem readBlocks_written (stores : lib.Stores) (fits : a.Fits lib st.ht.length)
    (included : options.behind st.versions a.date = false) (pos : Nat) (rest : Bytes) :
    ∃ name, readBlocks lib options pos (a.written lib st.ht.length ++ rest) st =
      readBlocks lib options (pos + (a.written lib st.ht.length).length) rest
        ((addUpdate lib options st pos a).afterBlock (pos + (a.written lib st.ht.length).length) name) := by
  have header : (writeJidacHeader lib a.date (a.data lib st.ht.length).length st.ht.length).length = 104 :=
    length_writeJidacHeader stores fits.late fits.numbered _
  have length : (a.written lib st.ht.length).length =
      104 + (a.data lib st.ht.length).length + (a.tables lib st.ht.length).length := by
    rw [Addition.written, Addition.bytes, List.length_append, List.length_append, header]
  rw [length, ← Nat.add_assoc, ← Nat.add_assoc, Addition.written, Addition.bytes, List.append_assoc,
    List.append_assoc]
  by_cases blocks : a.update.blocks = []
  · -- there is nothing behind the header but the index
    have nothing : a.data lib st.ht.length = [] := by
      rw [Addition.data, Addition.blocks, blocks]
      rfl
    have step := readBlocks_header_empty stores fits.early fits.late fits.numbered included pos
      (a.tables lib st.ht.length ++ rest)
    obtain ⟨last, tail⟩ := @readBlocks_tail lib options a ((st.addVersion pos a.date 0).afterBlock (pos + 104)
      (blockName a.date 99 st.ht.length)) stores fits rfl (pos + 104) (Or.inl (After.afterBlock _ _ _)) rest
    refine ⟨last, ?_⟩
    rw [nothing, List.length_nil, List.nil_append, Nat.add_zero]
    refine step.trans (tail.trans ?_)
    rw [addUpdate, nothing, addTables_afterBlock]
    rfl
  · have step := readBlocks_header_data stores fits.early fits.late fits.numbered fits.data (data_pos stores blocks)
      included pos (a.data lib st.ht.length ++ (a.tables lib st.ht.length ++ rest))
    rw [List.drop_left] at step
    obtain ⟨last, tail⟩ := @readBlocks_tail lib options a
      ((st.found (blockName a.date 99 st.ht.length)).addVersion pos a.date (a.data lib st.ht.length).length) stores fits
      rfl (pos + 104 + (a.data lib st.ht.length).length) (Or.inr blocks) rest
    refine ⟨last, step.trans (tail.trans ?_)⟩
    have same : (st.found (blockName a.date 99 st.ht.length)).addVersion pos a.date (a.data lib st.ht.length).length =
        (st.addVersion pos a.date (a.data lib st.ht.length).length).found (blockName a.date 99 st.ht.length) := rfl
    rw [addUpdate, same, addTables_found]
    rfl

end

end ReadState

end BackupSuite.Zpaq.Journal
