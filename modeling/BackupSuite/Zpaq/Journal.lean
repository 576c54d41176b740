import BackupSuite.Library.LittleEndian
import BackupSuite.Zpaq.Add
import BackupSuite.Zpaq.CompressJob

/-! # The journaling format

What `add` appends to the bytes of an archive, and what `read_archive` makes of the bytes.
An update is a transaction header with the size of the compressed data behind it, the
data (d), the sizes and hashes of the fragments (h) and the index (i).  Each is a block of
libzpaq, whose compression stands here as the parameter `Libzpaq`.  While the header has
the size -1, the update does not count.
-/

namespace BackupSuite.Zpaq.Journal

open BackupSuite.Library BackupSuite.CtrlCenter

/-! ## Blocks of libzpaq -/

/-- A segment of a block.  Places are counted from where the search for the block starts. -/
structure Segment where
  filename : Bytes
  comment : Bytes
  /-- behind the comment -/
  head : Nat
  /-- what it decompresses to, or where that breaks off -/
  data : Except Nat Bytes
  sha1 : Option Bytes
  stop : Nat

/-- The next block: its segments, and its end or where reading it breaks off. -/
structure Found where
  segments : List Segment
  stop : Except Nat Nat

structure Libzpaq where
  sha1 : Bytes → Bytes
  compressBlock : (method filename comment data : Bytes) → Bytes
  findBlock : Bytes → Option Found

/-! ## Numbers and names -/

/-- Appends `n` bytes of `x`. -/
def puti (x n : Nat) : Bytes := littleEndian n x

def btoi (s : Bytes) : Nat := ofLittleEndian (s.take 4)

/-- An `int64_t` -/
def btol (s : Bytes) : Int := ((btoi s + 4294967296 * btoi (s.drop 4) : Nat) : Int).bmod 18446744073709551616

/-- Decimal, of at least `n` digits. -/
def itos (x n : Nat) : Bytes :=
  if x = 0 ∧ n = 0 then [] else itos (x / 10) (n - 1) ++ [(48 + x % 10).toUInt8]
termination_by x + n
decreasing_by omega

def isdigit (c : UInt8) : Bool := 48 ≤ c && c ≤ 57

def decimal (s : Bytes) : Nat := s.foldl (fun n c => n * 10 + (c.toNat - 48)) 0

def jDC : Bytes := text "jDC\x01"

/-- `jDC<fdate>[cdhi]<num>` -/
def blockName (fdate : Nat) (kind : UInt8) (num : Nat) : Bytes :=
  text "jDC" ++ itos fdate 14 ++ [kind] ++ itos num 10

structure Name where
  usize : Nat
  fdate : Nat
  kind : UInt8
  num : Nat

def readName (filename comment : Bytes) : Option Name :=
  let usize := decimal (comment.takeWhile isdigit)
  let fdate := decimal ((filename.drop 3).take 14)
  let num := decimal (filename.drop 18)
  if filename.length = 28 ∧ filename.take 3 = text "jDC" ∧ usize ≤ 0xffffffff ∧
      ((filename.drop 3).take 14).all isdigit ∧ 19000000000000 ≤ fdate ∧ fdate < 30000000000000 ∧
      (filename.drop 18).all isdigit ∧ num ≤ 0xffffffff then
    some ⟨usize, fdate, filename.getD 17 0, num⟩
  else none

/-! ## What is read -/

/-- The size is -1 if it is unknown and -2 where nothing has been read. -/
structure HT where
  sha1 : Bytes
  usize : Int
deriving DecidableEq, Repr

def HT.new : HT := ⟨List.replicate 20 0, -2⟩

/-- A block of fragments in the archive; the size is -1 in the streaming format. -/
structure Block where
  start : Nat
  offset : Nat
  usize : Int
  bsize : Nat
  frags : Nat
deriving DecidableEq, Repr

structure VER where
  date : Int
  lastdate : Int
  offset : Nat
  data_offset : Nat
  csize : Int
  updates : Nat
  deletes : Nat
  firstFragment : Nat
deriving DecidableEq, Repr

def VER.new : VER := ⟨0, 0, 0, 0, 0, 0, 0, 0⟩

/-- The versions are those before the last one, and `back`. -/
structure ReadState where
  before : List VER
  back : VER
  ht : List HT
  block : List Block
  dt : List Member
  block_offset : Nat
  data_offset : Nat
  dcsize : Int
  dhsize : Nat
  errors : Nat
  found_data : Bool
  first : Bool
  lastfile : Bytes

structure Options where
  version : Int
  date : Int
  archive : Bytes
  issel : Bytes → Bool

def DEFAULT_VERSION : Int := 99999999999999

/-- The next version is behind the one that `-until` says, by its number or its date. -/
def Options.behind (options : Options) (versions fdate : Nat) : Bool :=
  (options.version < 19000000000000 && options.version < versions) ||
    (19000000000000 ≤ options.version && options.version < fdate)

/-- What comes after a segment; places as in `Segment`. -/
inductive Outcome where
  | next
  | seek (target : Nat)
  | done
  | error (place : Nat)

variable (lib : Libzpaq) (options : Options)

namespace ReadState

variable (st : ReadState)

/-- `ver.size()` -/
def versions : Nat := st.before.length + 1

/-- `if (fdate>ver.back().lastdate) ver.back().lastdate=fdate` -/
def seen (fdate : Nat) : ReadState :=
  { st with back := { st.back with lastdate := max st.back.lastdate fdate } }

/-! ## The four kinds of blocks -/

/-- Transaction header (type c), which ends at `stop`. -/
def readHeader (pos stop fdate : Nat) (os : Bytes) : ReadState × Outcome :=
  if os.length < 8 then (st, .error stop)
  else
    let data_offset := pos + stop + 1
    let jmp := btol os
    if jmp < 0 ∨ options.behind st.versions fdate then ({ st with data_offset := data_offset }, .done)
    else
      ({ st with
        before := st.before ++ [st.back]
        back :=
          { VER.new with
            firstFragment := st.ht.length
            offset := st.block_offset
            data_offset := data_offset
            date := fdate
            lastdate := fdate
            csize := jmp }
        data_offset := data_offset
        dcsize := st.dcsize + jmp }, if jmp = 0 then .next else .seek (stop + 1 + jmp.toNat))

/-- `while (int64_t(ht.size())<=n) ht.push_back(HT())` -/
def grow (ht : List HT) (n : Nat) : List HT := ht ++ List.replicate (n + 1 - ht.length) .new

/-- The fragments of an h block from number `num` on; a size over 31 bits ends them. -/
def readFragmentSizes (num : Nat) : (n : Nat) → Bytes → ReadState → ReadState × Bool
  | 0, _, st => (st, true)
  | n + 1, s, st =>
    let ht := grow st.ht num
    let sha1 := s.take 20
    let f := btoi (s.drop 20)
    if 0x7fffffff < f then
      ({ st with ht := ht.modify num fun entry => { entry with sha1 := sha1 } }, false)
    else
      readFragmentSizes (num + 1) n (s.drop 24)
        { st with
          ht := ht.set num ⟨sha1, f⟩
          block := st.block.modifyLast fun b => { b with usize := b.usize + (f + 4) } }

/-- Fragment table (type h). -/
def readFragmentTable (stop fdate num : Nat) (os : Bytes) : ReadState × Outcome :=
  let st := st.seen fdate
  let n := (os.length - 4) / 24
  if os.length % 24 ≠ 4 ∨ num < 1 ∨ 0xffffffff < num + n then (st, .error stop)
  else
    let bsize := btoi os
    let st := { st with
      dhsize := st.dhsize + bsize
      block := st.block ++ if 0 < n then [⟨num, st.data_offset, 8, bsize, os.length / 24⟩] else [] }
    match readFragmentSizes num n (os.drop 4) st with
    | (st, true) => ({ st with data_offset := st.data_offset + bsize }, .next)
    | (st, false) => (st, .error stop)

/-- What follows the name of a file: its attributes, of which eight bytes count, and its
fragments. -/
def readFile (fn : Bytes) (date : Int) (s : Bytes) : Option (Member × Bytes) :=
  let na := btoi s
  let attr := ofLittleEndian (((s.drop 4).take na).take 8)
  if s.length < 4 ∨ (s.drop 4).length < na ∨ 65535 < na then none
  else
    let s := s.drop (4 + na)
    let ni := btoi s
    if s.length < 4 ∨ (s.drop 4).length / 4 < ni then none
    else
      let ptr := (List.range ni).map fun i => btoi (s.drop (4 + 4 * i))
      some (⟨fn, date, attr, ptr⟩, s.drop (4 + 4 * ni))

/-- An entry of the index: its name goes to the next NUL, and nothing follows the name in a
deletion. -/
def readEntry (s : Bytes) : Option (Member × Bytes) :=
  let date := btol s
  let fn := (s.drop 8).takeWhile (· ≠ 0)
  let s := s.drop (8 + fn.length)
  if s = [] ∨ 65535 < fn.length then none
  else if date = 0 then some (⟨fn, date, 0, []⟩, s.drop 1)
  else readFile fn date (s.drop 1)

/-- The entries of an i block; what comes before a damaged one is kept. -/
def readEntries (s : Bytes) (st : ReadState) : ReadState × Bool :=
  if s.length < 9 then (st, true)
  else
    let back := if btol s = 0 then { st.back with deletes := st.back.deletes + 1 }
      else { st.back with updates := st.back.updates + 1 }
    match readEntry s with
    | none => ({ st with back := back }, false)
    | some (dtr, rest) =>
      let st := { st with
        back := back
        dt := if options.issel dtr.name then put Member.name dtr st.dt else st.dt }
      -- always so
      if rest.length < s.length then readEntries rest st else (st, false)
termination_by s.length

/-- Index (type i). -/
def readIndex (stop fdate : Nat) (os : Bytes) : ReadState × Outcome :=
  match readEntries options os (st.seen fdate) with
  | (st, true) => (st, .next)
  | (st, false) => (st, .error stop)

/-! ## Segments and blocks -/

def readKind (pos stop : Nat) (name : Name) (os : Bytes) : ReadState × Outcome :=
  if name.kind = 99 then st.readHeader options pos stop name.fdate os
  else if name.kind = 104 then st.readFragmentTable stop name.fdate name.num os
  else st.readIndex options stop name.fdate os

/-- A segment whose comment ends in `jDC\x01`. -/
def readJournaling (pos : Nat) (skip : Bool) (seg : Segment) : ReadState × Outcome :=
  match readName seg.filename seg.comment with
  | none => (st, .error seg.head)
  | some name =>
    if skip then (st, .error seg.head)
    -- d blocks are not read, and there is no other kind
    else if name.kind ∉ text "chi" then (st, .error seg.stop)
    else
      match seg.data with
      | .error place => (st, .error place)
      | .ok os =>
        if os.length ≠ name.usize ∨ seg.sha1.any (· ≠ lib.sha1 os) then (st, .error seg.stop)
        else st.readKind options pos seg.stop name os

/-- A segment in the older format, which starts version 1 if there is none.  The first segment
of a block starts a block of the list. -/
def readStreaming (firstSegment : Bool) (seg : Segment) : ReadState × Outcome :=
  if st.versions = 1 ∧ options.version < 1 then (st, .done)
  else
    let st := if st.versions = 1 then
      { st with
        before := st.before ++ [st.back]
        back := { VER.new with firstFragment := st.ht.length, offset := st.block_offset, csize := -1 } }
      else st
    let starts := seg.filename ≠ [] ∨ st.first
    let st := if options.issel st.lastfile then
      let dtr := (lookup Member.name st.lastfile st.dt).getD (deletion st.lastfile)
      let dtr := if starts then ⟨st.lastfile, options.date, 0, []⟩ else dtr
      { st with
        back := if starts then { st.back with updates := st.back.updates + 1 } else st.back
        dt := put Member.name { dtr with ptr := dtr.ptr ++ [st.ht.length] } st.dt }
      else st
    ({ st with
      block := st.block ++
        if firstSegment ∨ st.block = [] then [⟨st.ht.length, st.block_offset, -1, 0, 0⟩] else []
      ht := st.ht ++ [⟨seg.sha1.getD (List.replicate 20 0), -1⟩] }, .next)

/-- `filename.s[i]=='\\'` becomes a slash. -/
def slashes (filename : Bytes) : Bytes := filename.map fun c => if c = 92 then 47 else c

def readSegment (pos : Nat) (firstSegment skip : Bool) (seg : Segment) : ReadState × Bool × Outcome :=
  let seg := { seg with filename := slashes seg.filename }
  let st := if seg.filename ≠ [] then { st with lastfile := seg.filename } else st
  if seg.comment.length ≥ 4 ∧ seg.comment.drop (seg.comment.length - 4) = jDC then
    let (st, outcome) := st.readJournaling lib options pos skip seg
    (st, skip, outcome)
  else
    let (st, outcome) := st.readStreaming options firstSegment seg
    (st, true, outcome)

def readSegments (pos : Nat) (firstSegment skip : Bool) : List Segment → ReadState → ReadState × Outcome
  | [], st => (st, .next)
  | seg :: rest, st =>
    match st.readSegment lib options pos firstSegment skip seg with
    | (st, skip, .next) => readSegments pos false skip rest { st with first := false }
    | (st, _, outcome) => (st, outcome)

/-- The blocks in what is left of the archive, which is at `pos`. -/
def readBlocks (pos : Nat) (input : Bytes) (st : ReadState) : ReadState :=
  let goOn (n : Nat) (st : ReadState) : ReadState :=
    -- always so, as a block has its tag at least
    if 0 < n ∧ 0 < input.length then readBlocks (pos + n) (input.drop n) st else st
  match lib.findBlock input with
  | none => st
  | some found =>
    match readSegments lib options pos true false found.segments { st with found_data := true } with
    | (st, .done) => st
    | (st, .seek target) => goOn target st
    | (st, .error place) => goOn place { st with errors := st.errors + 1 }
    | (st, .next) =>
      match found.stop with
      | .ok stop => goOn stop { st with block_offset := pos + stop }
      | .error place => goOn place { st with errors := st.errors + 1 }
termination_by input.length
decreasing_by
  all_goals
    rw [List.length_drop]
    omega

end ReadState

/-- The archive's name without `.zpaq`. -/
def withoutSuffix (archive : Bytes) : Bytes :=
  if archive.length > 5 ∧ archive.drop (archive.length - 5) = text ".zpaq" then
    archive.take (archive.length - 5)
  else archive

def ReadState.start : ReadState where
  before := []
  back := .new
  ht := [.new]
  block := []
  dt := []
  block_offset := 0
  data_offset := 0
  dcsize := 0
  dhsize := 0
  errors := 0
  found_data := false
  first := true
  lastfile := withoutSuffix options.archive

/-- Reads an archive in one part that is not encrypted; `none` is an error that ends zpaq. -/
def read_archive (archive : Bytes) : Option ReadState :=
  if archive ≠ [] ∧ archive.take 4 ≠ text "7kSt" ∧ (archive.take 3 ≠ text "zPQ" ∨ (archive.getD 3 0).toInt8 < 1) then none
  else
    let st := ReadState.readBlocks lib options 0 archive (.start options)
    if archive ≠ [] ∧ !st.found_data then none else some st

/-- The size of a file; a number without a fragment adds nothing. -/
def ReadState.size (st : ReadState) (ptr : List Nat) : Int :=
  ptr.foldl (fun size j =>
    if 0 < j ∧ j < st.ht.length ∧ 0 ≤ size then
      if 0 ≤ (st.ht.getD j .new).usize then size + (st.ht.getD j .new).usize else -1
    else size) 0

/-! ## What is written -/

/-- Size -1 as long as the update is not complete. -/
def writeJidacHeader (date : Nat) (cdata : Int) (htsize : Nat) : Bytes :=
  lib.compressBlock (text "0") (blockName date 99 htsize) jDC (puti (cdata % 18446744073709551616).toNat 8)

/-- What `add` puts in: an update, and the method of the block that starts with a fragment. -/
structure Addition where
  date : Nat
  update : Update
  method : Nat → Bytes

namespace Addition

variable (a : Addition) (htsize : Nat)

def blocks : List Zpaq.Block := layout htsize a.update.blocks

/-- Behind the fragments are their sizes, 0 in place of the first number, and how many they are. -/
def blockData (frags : List Bytes) : Bytes :=
  frags.flatten ++ frags.flatMap (fun f => puti f.length 4) ++ puti 0 4 ++ puti frags.length 4

def task (b : Zpaq.Block) : Task where
  input := blockData b.frags
  filename := blockName a.date 100 b.start
  comment := jDC
  method := a.method b.start

def compress (task : Task) : Bytes := lib.compressBlock task.method task.filename task.comment task.input

def csize (b : Zpaq.Block) : Nat := (compress lib (a.task b)).length

/-- The d blocks. -/
def data : Bytes := (a.blocks htsize).flatMap fun b => compress lib (a.task b)

def fragmentTable (b : Zpaq.Block) (csize : Nat) : Bytes :=
  lib.compressBlock (text "0") (blockName a.date 104 b.start) jDC
    (puti csize 4 ++ b.frags.flatMap fun f => lib.sha1 f ++ puti f.length 4)

/-- The h blocks. -/
def fragmentTables (csize : List Nat) : Bytes :=
  (List.zipWith (fun b csize => if b.frags ≠ [] then a.fragmentTable lib b csize else [])
    (a.blocks htsize) csize).flatten

def putAttr (attr : Nat) : Bytes :=
  if attr % 256 = 117 then puti 3 4 ++ puti attr 3
  else if attr % 256 = 119 then puti 5 4 ++ puti attr 5
  else puti 0 4

def putEntry (p : Member) : Bytes :=
  if p.date = 0 then puti 0 8 ++ p.name ++ [0]
  else
    puti (p.date % 18446744073709551616).toNat 8 ++ p.name ++ [0] ++ putAttr p.attr ++
      puti p.ptr.length 4 ++ p.ptr.flatMap fun j => puti j 4

def indexBlock (dtcount : Nat) (entries : Bytes) : Bytes :=
  lib.compressBlock (text "1") (text "jDC" ++ itos a.date 1 ++ [105] ++ itos dtcount 10) jDC entries

/-- The i blocks of what is in the buffer and of the entries to come. -/
def indexBlocks (buffer : Bytes) (dtcount : Nat) : List Member → Bytes
  | [] => if 0 < buffer.length then a.indexBlock lib (dtcount + 1) buffer else []
  | p :: rest =>
    let buffer := buffer ++ putEntry p
    if 16000 < buffer.length then
      a.indexBlock lib (dtcount + 1) buffer ++ indexBlocks [] (dtcount + 1) rest
    else indexBlocks buffer dtcount rest

/-- The h and i blocks. -/
def tables : Bytes :=
  a.fragmentTables lib htsize ((a.blocks htsize).map (a.csize lib)) ++
    a.indexBlocks lib [] 0 a.update.index

/-- The update as it is written, with the size that the header says. -/
def bytes (cdata : Int) : Bytes :=
  writeJidacHeader lib a.date cdata htsize ++ a.data lib htsize ++ a.tables lib htsize

/-- The update once it is complete. -/
def written : Bytes := a.bytes lib htsize (a.data lib htsize).length

end Addition

/-- One update behind the other, the first one with the fragment number `htsize`. -/
def writeAll (htsize : Nat) : List Addition → Bytes
  | [] => []
  | a :: rest => a.written lib htsize ++ writeAll (htsize + a.update.blocks.flatten.length) rest

end BackupSuite.Zpaq.Journal
