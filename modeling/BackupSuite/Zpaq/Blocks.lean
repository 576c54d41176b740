import BackupSuite.Zpaq.CoderSegments
import BackupSuite.Zpaq.JournalRead
import BackupSuite.Zpaq.SHA1

/-! # Blocks of libzpaq

What `compressBlock` writes for methods without a preprocessor, and how `Decompresser` takes
it apart: the tag that is found by four hashes, the header with the model, and segments with
a name, a comment, coded data and a checksum.  Whatever the model predicts, such a block is
read as what was written (`libzpaq_stores`).  The model and the programs that postprocess
are parameters.
-/

namespace BackupSuite.Zpaq.Blocks

open BackupSuite.Library BackupSuite.CtrlCenter BackupSuite.Zpaq.Coder BackupSuite.Zpaq.Journal

/-! ## The header of a block -/

structure Component where
  type : UInt8
  args : Bytes
deriving DecidableEq, Repr

/-- The two programs COMP and HCOMP, without their ENDs. -/
structure Header where
  hh : UInt8
  hm : UInt8
  ph : UInt8
  pm : UInt8
  comp : List Component
  hcomp : Bytes
deriving DecidableEq, Repr

/-- The size of a component, which is 0 if there is none of this type. -/
def compsize (type : UInt8) : Nat := [0, 2, 3, 2, 3, 4, 6, 6, 3, 5].getD type.toNat 0

namespace Header

variable (h : Header)

def compBytes : Bytes := h.comp.flatMap fun c => c.type :: c.args

/-- `cend-2+hend-hbegin` -/
def hsize : Nat := h.compBytes.length + h.hcomp.length + 7

def write : Bytes :=
  littleEndian 2 h.hsize ++ [h.hh, h.hm, h.ph, h.pm, h.comp.length.toUInt8] ++ h.compBytes ++ [0] ++ h.hcomp ++ [0]

/-- `comp 0 0 0 0 0 hcomp end` -/
def stored : Header := ⟨0, 0, 0, 0, [], []⟩

/-- A header that `read` takes: known components, and a program if there are any. -/
structure Valid : Prop where
  sizes : ∀ c ∈ h.comp, c.args.length + 1 = compsize c.type
  few : h.comp.length < 256
  program : h.comp = [] ∨ h.hcomp ≠ []
  small : h.hsize < 65536

end Header

/-- `n` components from `cend` on.  Arguments that the input does not have are -1. -/
def readComponents (hsize : Nat) : (n cend : Nat) → Bytes → Except Failure (List Component × Nat × Bytes)
  | 0, cend, input => .ok ([], cend, input)
  | _ + 1, _, [] => .error ⟨"unexpected end of file", []⟩
  | n + 1, cend, type :: rest =>
    let size := compsize type
    if size < 1 then .error ⟨"Invalid component type", rest⟩
    else if cend + 1 + size > hsize then .error ⟨"COMP overflows header", rest⟩
    else do
      let args := (rest ++ List.replicate size 255).take (size - 1)
      let (comp, cend, rest) ← readComponents hsize n (cend + size) (rest.drop (size - 1))
      return (⟨type, args⟩ :: comp, cend, rest)

/-- `ZPAQL::read`; an END that is missing may be any other byte. -/
def readHeader : Bytes → Except Failure (Header × Bytes)
  | b0 :: b1 :: hh :: hm :: ph :: pm :: n :: input => do
    let hsize := b0.toNat + 256 * b1.toNat
    let (comp, cend, input) ← readComponents hsize n.toNat 7 input
    if input.head? ≠ some 0 then .error ⟨"missing COMP END", input.tail⟩
    else if cend > hsize then .error ⟨"missing HCOMP", input.tail⟩
    else if input.tail.length < hsize - cend then .error ⟨"unexpected end of file", []⟩
    else
      let behind := input.tail.drop (hsize - cend)
      if behind.head? ≠ some 0 then .error ⟨"missing HCOMP END", behind.tail⟩
      else return (⟨hh, hm, ph, pm, comp, input.tail.take (hsize - cend)⟩, behind.tail)
  | _ => .error ⟨"unexpected end of file", []⟩

/-! ## Programs -/

/-- The machine that runs the programs: the predictor of a model, which is modeled if it has components, and what
a postprocessor makes of a byte or of the end of a segment. -/
structure ZPAQL where
  predictor : Header → Predictor
  State : Type
  initp : (ph pm : UInt8) → (pcomp : Bytes) → State
  run : State → Option UInt8 → Bytes × State

variable (z : ZPAQL)

def ZPAQL.model (h : Header) : Predictor := { z.predictor h with isModeled := h.comp ≠ [] }

inductive PostProcessor where
  | pass
  | prog (state : z.State)

variable {z} {pr : Predictor}

/-- `n` bytes of a program. -/
def loadBytes : (n : Nat) → Decoder pr → Except Failure (Bytes × Decoder pr)
  | 0, d => .ok ([], d)
  | n + 1, d => do
    match ← d.decompress with
    | (none, d) => .error ⟨"Unexpected EOS", d.input⟩
    | (some c, d) => do
      let (s, d) ← loadBytes n d
      return (c :: s, d)

/-- Decompresses and loads PCOMP into the postprocessor. -/
def load (h : Header) (d : Decoder pr) : Except Failure (PostProcessor z × Decoder pr) := do
  let (s, d) ← loadBytes 1 d
  if s = [0] then return (.pass, d)
  else if s ≠ [1] then .error ⟨"unknown post processing type", d.input⟩
  else do
    let (size, d) ← loadBytes 2 d
    if ofLittleEndian size = 0 then .error ⟨"Empty PCOMP", d.input⟩
    else do
      let (pcomp, d) ← loadBytes (ofLittleEndian size) d
      return (.prog (z.initp h.ph h.pm pcomp), d)

/-- What comes out of a segment. -/
def PostProcessor.write : PostProcessor z → Bytes → Bytes × PostProcessor z
  | .pass, data => (data, .pass)
  | .prog state, data =>
    let (s, state) := (data.map some ++ [none]).foldl (fun (s, state) c => (s ++ (z.run state c).1, (z.run state c).2))
      ([], state)
    (s, .prog state)

/-! ## Segments -/

/-- The decoder and the postprocessor, once the first segment has been decompressed. -/
abbrev Loaded (pr : Predictor) (z : ZPAQL) := Option (Decoder pr × PostProcessor z)

/-- Decompresses a segment. -/
def decompress (h : Header) (loaded : Loaded pr z) (input : Bytes) :
    Except Failure (Bytes × Loaded pr z × Bytes) := do
  let (pp, d) ← match loaded with
    | none => load h (Decoder.init input)
    | some (d, pp) => .ok (pp, { d with input := input })
  let (data, d) ← d.decompressAll
  let (s, pp) := pp.write data
  return (s, some (d, pp), d.input)

/-- The checksum if there is one; bytes that the input does not have are -1. -/
def readSegmentEnd (c : Option UInt8) (input : Bytes) : Except Failure (Option Bytes × Bytes) :=
  if c = some 254 then .ok (none, input)
  else if c = some 253 then .ok (some ((input ++ List.replicate 20 255).take 20), input.drop 20)
  else .error ⟨"missing end of segment marker", input⟩

/-- The checksum and the end of a segment that is skipped. -/
def skipSegment (loaded : Loaded pr z) (input : Bytes) : Except Failure (Option Bytes × Bytes) := do
  let d := match loaded with
    | none => Decoder.init input
    | some (d, _) => { d with input := input }
  let (c, input) ← d.skip
  readSegmentEnd c input

/-- A name or comment, up to the NUL. -/
def readText (input : Bytes) : Except Failure (Bytes × Bytes) :=
  if 0 ∈ input then .ok (cStr input, (input.drop (cStr input).length).tail)
  else .error ⟨"unexpected EOF", []⟩

/-- The name and the comment of a segment. -/
def readStart (input : Bytes) : Except Failure ((Bytes × Bytes) × Bytes) := do
  let (filename, input) ← readText input
  let (comment, input) ← readText input
  if input.head? ≠ some 0 then .error ⟨"missing reserved byte", input.tail⟩
  else return ((filename, comment), input.tail)

/-- The segments up to the end of the block, `total` bytes being what the search for the block began with.  The end
of a segment is where decompressing it comes to, and where it breaks off, where skipping comes to. -/
def readSegments (h : Header) (total : Nat) (loaded : Loaded pr z) (input : Bytes) : List Segment × Except Nat Nat :=
  let place (rest : Bytes) := total - rest.length
  match input with
  | 255 :: rest => ([], .ok (place rest))
  | 1 :: rest =>
    match readStart rest with
    | .error failure => ([], .error (place failure.rest))
    | .ok ((filename, comment), body) =>
      let segment (data : Except Nat Bytes) (loaded : Loaded pr z) (ends : Except Failure (Option Bytes × Bytes)) :=
        match ends with
        | .error failure => ([⟨filename, comment, place body, data, none, place failure.rest⟩], .error (place failure.rest))
        | .ok (sha1, behind) =>
          -- always so
          if behind.length ≤ rest.length then
            let (rest, stop) := readSegments h total loaded behind
            (⟨filename, comment, place body, data, sha1, place behind⟩ :: rest, stop)
          else ([], .error (place behind))
      match decompress h loaded body with
      | .ok (s, loaded, behind) => segment (.ok s) loaded (readSegmentEnd behind.head? behind.tail)
      | .error failure => segment (.error (place failure.rest)) loaded (skipSegment loaded body)
  | _ => ([], .error (place input.tail))
termination_by input.length

/-! ## Finding a block -/

/-- What is behind the 16 bytes that have these four hashes. -/
def findTag (h1 h2 h3 h4 : UInt32) : Bytes → Option Bytes
  | [] => none
  | c :: rest =>
    let h1 := h1 * 12 + c.toUInt32
    let h2 := h2 * 20 + c.toUInt32
    let h3 := h3 * 28 + c.toUInt32
    let h4 := h4 * 44 + c.toUInt32
    if h1 = 0xB16B88F1 ∧ h2 = 0xFF5376F1 ∧ h3 = 0x72AC5BF1 ∧ h4 = 0x2F909AF1 then some rest
    else findTag h1 h2 h3 h4 rest

/-- The level, the type and the header. -/
def readLevel (input : Bytes) : Except Failure (Header × Bytes) := do
  let level := input.head?
  if level ≠ some 1 ∧ level ≠ some 2 then .error ⟨"unsupported ZPAQ level", input.tail⟩
  else if input.tail.head? ≠ some 1 then .error ⟨"unsupported ZPAQL type", input.tail.tail⟩
  else do
    let (h, rest) ← readHeader input.tail.tail
    if level = some 1 ∧ h.comp = [] then .error ⟨"ZPAQ level 1 requires at least 1 component", rest⟩
    else return (h, rest)

variable (z)

/-- The next block; the hashes start as if the tag had been there. -/
def findBlock (input : Bytes) : Option Found :=
  match findTag 0x3D49B113 0x29EB7F93 0x2614BE13 0x3828EB13 input with
  | none => none
  | some rest =>
    match readLevel rest with
    | .error failure => some ⟨[], .error (input.length - failure.rest.length)⟩
    | .ok (h, body) =>
      let (segments, stop) := readSegments h input.length (none : Loaded (z.model h) z) body
      some ⟨segments, stop⟩

/-! ## Writing a block -/

def tag : Bytes := [0x37, 0x6b, 0x53, 0x74, 0xa0, 0x31, 0x83, 0xd3, 0x8c, 0xb2, 0x28, 0xb0, 0xd3]

def startBlock (h : Header) : Bytes := text "zPQ" ++ [if h.comp = [] then 2 else 1, 1] ++ h.write

def startSegment (filename comment : Bytes) : Bytes := [1] ++ cStr filename ++ [0] ++ cStr comment ++ [0, 0]

/-- No postprocessor, the data, the end of the stream and the checksum. -/
def endSegment (pr : Predictor) (data sha1 : Bytes) : Bytes := coded pr (0 :: data) ++ [0, 0, 0, 0] ++ [253] ++ sha1

/-- `config` stands for the models that `compressBlock` makes of its methods, which have no preprocessor. -/
def compressBlock (sha1 : Bytes → Bytes) (config : (method data : Bytes) → Header) (method filename comment data : Bytes) :
    Bytes :=
  let h := config method data
  tag ++ startBlock h ++ startSegment filename (itos data.length 1 ++ 32 :: comment) ++
    endSegment (z.model h) data (sha1 data) ++ [255]

def libzpaq (sha1 : Bytes → Bytes) (config : (method data : Bytes) → Header) : Libzpaq where
  sha1 := sha1
  compressBlock := compressBlock z sha1 config
  findBlock := findBlock z

/-! ## Reading a block back -/

section

variable {z} {h : Header}

theorem length_compBytes_cons (c : Component) (comp : List Component) :
    ((c :: comp).flatMap fun c => c.type :: c.args).length =
      c.args.length + 1 + (comp.flatMap fun c => c.type :: c.args).length := by
  rw [List.flatMap_cons, List.length_append, List.length_cons]

theorem readComponents_write {hsize : Nat} {comp : List Component}
    (sizes : ∀ c ∈ comp, c.args.length + 1 = compsize c.type) {cend : Nat}
    (room : comp = [] ∨ cend + (comp.flatMap fun c => c.type :: c.args).length + 1 ≤ hsize) (rest : Bytes) :
    readComponents hsize comp.length cend ((comp.flatMap fun c => c.type :: c.args) ++ rest) =
      .ok (comp, cend + (comp.flatMap fun c => c.type :: c.args).length, rest) := by
  induction comp generalizing cend with
  | nil => rfl
  | cons c comp ih =>
    have size := sizes c List.mem_cons_self
    have room := room.resolve_left (List.cons_ne_nil c comp)
    rw [length_compBytes_cons] at room
    have later := @ih (fun c mem => sizes c (List.mem_cons_of_mem _ mem)) (cend + compsize c.type) (Or.inr (by omega))
    have args : c.args.length = compsize c.type - 1 := by omega
    rw [length_compBytes_cons, List.flatMap_cons, List.length_cons, List.append_assoc, List.cons_append, readComponents]
    simp only
    rw [if_neg (by omega), if_neg (by omega), List.append_assoc, ← args, List.take_left, List.drop_left, later]
    simp only [bind, Except.bind, pure, Except.pure]
    rw [size, Nat.add_assoc]

theorem write_append (rest : Bytes) :
    h.write ++ rest = (h.hsize % 256).toUInt8 :: (h.hsize / 256 % 256).toUInt8 :: h.hh :: h.hm :: h.ph :: h.pm ::
      h.comp.length.toUInt8 :: (h.compBytes ++ 0 :: (h.hcomp ++ 0 :: rest)) := by
  simp [Header.write, littleEndian]

theorem readHeader_write (valid : h.Valid) (rest : Bytes) : readHeader (h.write ++ rest) = .ok (h, rest) := by
  have few := valid.few
  have small := valid.small
  have byte (n : Nat) : (n % 256).toUInt8.toNat = n % 256 := by
    rw [Nat.toUInt8_eq, UInt8.toNat_ofNat']
    omega
  have size : (h.hsize % 256).toUInt8.toNat + 256 * (h.hsize / 256 % 256).toUInt8.toNat = h.hsize := by
    rw [byte, byte]
    omega
  have count : h.comp.length.toUInt8.toNat = h.comp.length := by
    rw [Nat.toUInt8_eq, UInt8.toNat_ofNat']
    omega
  have whole : h.hsize = h.compBytes.length + h.hcomp.length + 7 := rfl
  have room : h.comp = [] ∨ 7 + (h.comp.flatMap fun c => c.type :: c.args).length + 1 ≤ h.hsize := by
    refine valid.program.imp_right fun program => ?_
    have positive := List.length_pos_iff.mpr program
    rw [whole, Header.compBytes]
    omega
  have comps := readComponents_write valid.sizes room (0 :: (h.hcomp ++ 0 :: rest))
  have ops : h.hsize - (7 + (h.comp.flatMap fun c => c.type :: c.args).length) = h.hcomp.length := by
    rw [whole, Header.compBytes]
    omega
  rw [write_append, readHeader, size, count, Header.compBytes, comps]
  simp only [bind, Except.bind, ops]
  rw [if_neg (by simp), if_neg (by rw [whole, Header.compBytes]; omega),
    if_neg (by rw [List.tail_cons, List.length_append]; omega), List.tail_cons, List.drop_left, List.take_left]
  rfl

theorem cStr_whole {s : Bytes} (noNul : 0 ∉ s) : cStr s = s := by
  have front := cStr_append noNul []
  simpa [cStr] using front

theorem readText_append {s : Bytes} (noNul : 0 ∉ s) (rest : Bytes) : readText (s ++ 0 :: rest) = .ok (s, rest) := by
  have front : cStr (s ++ 0 :: rest) = s := by
    rw [cStr_append noNul]
    simp [cStr]
  rw [readText, if_pos (by simp), front, List.drop_left]
  rfl

theorem readStart_append {filename comment : Bytes} (name : 0 ∉ filename) (about : 0 ∉ comment) (rest : Bytes) :
    readStart (filename ++ 0 :: (comment ++ 0 :: 0 :: rest)) = .ok ((filename, comment), rest) := by
  rw [readStart, readText_append name]
  simp only [bind, Except.bind]
  rw [readText_append about]
  rfl

/-- The first byte of what is decoded. -/
theorem decompress_of_all {d d' : Decoder pr} {c : UInt8} {data : Bytes} (all : d.decompressAll = .ok (c :: data, d')) :
    ∃ next, d.decompress = .ok (some c, next) ∧ next.decompressAll = .ok (data, d') := by
  rw [Decoder.decompressAll] at all
  cases first : d.decompress with
  | error failure =>
    rw [first] at all
    cases all
  | ok byte =>
    rw [first] at all
    obtain ⟨b, next⟩ := byte
    cases b with
    | none => cases all
    | some b =>
      simp only at all
      split at all
      next =>
        cases rest : next.decompressAll with
        | error failure =>
          rw [rest] at all
          cases all
        | ok result =>
          rw [rest] at all
          cases all
          exact ⟨next, rfl, rest⟩
      next => cases all

/-- A segment without a program is decompressed as it was compressed. -/
theorem decompress_coded (h : Header) (data rest : Bytes) :
    ∃ loaded, decompress h (none : Loaded (z.model h) z) (coded (z.model h) (0 :: data) ++ [0, 0, 0, 0] ++ rest) =
      .ok (data, loaded, rest) := by
  obtain ⟨d, all, input⟩ := decompressAll_coded (z.model h) (0 :: data) rest
  obtain ⟨next, first, all⟩ := decompress_of_all all
  have program : load h (Decoder.init (coded (z.model h) (0 :: data) ++ [0, 0, 0, 0] ++ rest)) =
      .ok ((.pass : PostProcessor z), next) := by
    rw [load, loadBytes, first]
    rfl
  refine ⟨some (d, .pass), ?_⟩
  rw [decompress, program]
  simp only [bind, Except.bind, all]
  rw [← input]
  rfl

theorem readSegmentEnd_sha1 {sha1 : Bytes} (twenty : sha1.length = 20) (rest : Bytes) :
    readSegmentEnd (some 253) (sha1 ++ rest) = .ok (some sha1, rest) := by
  have front : (sha1 ++ rest ++ List.replicate 20 255).take 20 = sha1 := by
    rw [List.append_assoc, List.take_left' twenty]
  rw [readSegmentEnd, if_neg (by decide), if_pos rfl, front, List.drop_left' twenty]

/-- One segment, and the end of the block. -/
theorem readSegments_one (h : Header) {filename comment sha1 : Bytes} (name : 0 ∉ filename) (about : 0 ∉ comment)
    (twenty : sha1.length = 20) (data rest : Bytes) (total : Nat) :
    ∃ head, readSegments h total (none : Loaded (z.model h) z)
        (startSegment filename comment ++ (endSegment (z.model h) data sha1 ++ 255 :: rest)) =
      ([⟨filename, comment, head, .ok data, some sha1, total - (rest.length + 1)⟩], .ok (total - rest.length)) := by
  obtain ⟨loaded, body⟩ := @decompress_coded z h data (253 :: (sha1 ++ 255 :: rest))
  have start : startSegment filename comment ++ (endSegment (z.model h) data sha1 ++ 255 :: rest) =
      1 :: (filename ++ 0 :: (comment ++ 0 :: 0 ::
        (coded (z.model h) (0 :: data) ++ [0, 0, 0, 0] ++ 253 :: (sha1 ++ 255 :: rest)))) := by
    rw [startSegment, endSegment, cStr_whole name, cStr_whole about]
    simp
  have ends : readSegments h total loaded (255 :: rest) = ([], .ok (total - rest.length)) := by
    rw [readSegments]
  refine ⟨total - (coded (z.model h) (0 :: data) ++ [0, 0, 0, 0] ++ 253 :: (sha1 ++ 255 :: rest)).length, ?_⟩
  rw [start, readSegments.eq_def]
  simp only [readStart_append name about, body, List.head?_cons, List.tail_cons, readSegmentEnd_sha1 twenty]
  rw [if_pos (by simp only [List.length_append, List.length_cons]; omega), ends]
  rfl

/-- The tag is found where it is, and not before. -/
theorem findTag_tag (rest : Bytes) :
    findTag 0x3D49B113 0x29EB7F93 0x2614BE13 0x3828EB13 (tag ++ (text "zPQ" ++ rest)) = some rest := by
  rfl

theorem readLevel_startBlock {h : Header} (valid : h.Valid) (rest : Bytes) :
    readLevel ((if h.comp = [] then 2 else 1) :: 1 :: (h.write ++ rest)) = .ok (h, rest) := by
  rw [readLevel]
  by_cases none : h.comp = []
  · rw [if_pos none]
    simp only [List.head?_cons, List.tail_cons, readHeader_write valid]
    rfl
  · rw [if_neg none]
    simp only [List.head?_cons, List.tail_cons, readHeader_write valid]
    rw [if_neg (by decide), if_neg (by decide)]
    simp only [bind, Except.bind]
    exact if_neg fun level => none level.2

/-- A block is found as it was written, wherever the input goes on. -/
theorem findBlock_compressBlock {sha1 : Bytes → Bytes} (twenty : ∀ data, (sha1 data).length = 20)
    {config : (method data : Bytes) → Header} (valid : ∀ method data, (config method data).Valid)
    (method : Bytes) {filename comment : Bytes} (data rest : Bytes) (name : 0 ∉ filename) (about : 0 ∉ comment) :
    ∃ head, findBlock z (compressBlock z sha1 config method filename comment data ++ rest) =
      some ⟨[⟨filename, itos data.length 1 ++ 32 :: comment, head, .ok data, some (sha1 data),
          (compressBlock z sha1 config method filename comment data).length - 1⟩],
        .ok (compressBlock z sha1 config method filename comment data).length⟩ := by
  have about : 0 ∉ itos data.length 1 ++ 32 :: comment := by
    intro mem
    rcases List.mem_append.mp mem with digit | mem
    · exact absurd (isdigit_itos 0 digit) (by decide)
    · exact about ((List.mem_cons.mp mem).resolve_left (by decide))
  obtain ⟨head, segments⟩ := @readSegments_one z (config method data) _ _ _ name about (twenty data) data rest
    ((compressBlock z sha1 config method filename comment data).length + rest.length)
  have split : compressBlock z sha1 config method filename comment data ++ rest =
      tag ++ (text "zPQ" ++ ((if (config method data).comp = [] then 2 else 1) :: 1 ::
        ((config method data).write ++ (startSegment filename (itos data.length 1 ++ 32 :: comment) ++
          (endSegment (z.model (config method data)) data (sha1 data) ++ 255 :: rest))))) := by
    rw [compressBlock, startBlock]
    simp only [List.append_assoc, List.cons_append, List.nil_append]
  refine ⟨head, ?_⟩
  rw [findBlock, List.length_append, split, findTag_tag]
  simp only [readLevel_startBlock (valid method data), segments]
  rw [Nat.add_sub_cancel, Nat.sub_add_eq, Nat.add_sub_cancel]

theorem valid_stored : Header.stored.Valid := ⟨by simp [Header.stored], by decide, Or.inl rfl, by decide⟩

theorem foldl_short (stored : pr.isModeled = false) {data : Bytes} {e : Encoder pr} (room : e.low + data.length ≤ 65536) :
    data.foldl (fun e c => e.compress (some c)) e =
      { e with low := e.low + data.length, buf := e.buf ++ data } := by
  induction data generalizing e with
  | nil => simp
  | cons c data ih =>
    rw [List.length_cons] at room
    have full : ¬(e.low ≠ 0 ∧ (some c = none ∨ e.low = 65536)) := by
      rintro ⟨-, ends | full⟩
      · cases ends
      · omega
    have step : e.compress (some c) = { e with low := e.low + 1, buf := e.buf ++ [c] } := by
      rw [Encoder.compress, if_neg (by rw [stored]; decide)]
      simp only [if_neg full]
    rw [List.foldl_cons, step, ih (by simp only; omega), List.length_cons, List.append_assoc, List.singleton_append,
      Nat.add_assoc, Nat.add_comm 1]

/-- What fits the buffer is one piece. -/
theorem coded_short (stored : pr.isModeled = false) {data : Bytes} (some : data ≠ []) (short : data.length ≤ 65536) :
    coded pr data = piece data := by
  have start : (Encoder.init : Encoder pr) = ⟨0, 0xFFFFFFFF, pr.init, [], []⟩ := by
    rw [Encoder.init, if_neg (by rw [stored]; decide)]
  have positive : data.length ≠ 0 := fun none => some (List.eq_nil_of_length_eq_zero none)
  rw [coded, start, foldl_short stored (by simpa using short), Encoder.compress, if_neg (by rw [stored]; decide)]
  simp only [Nat.zero_add, List.nil_append]
  rw [if_pos ⟨positive, Or.inl trivial⟩]
  rfl

variable (z)

/-- The blocks are what the archive needs them to be. -/
theorem libzpaq_stores {sha1 : Bytes → Bytes} (twenty : ∀ data, (sha1 data).length = 20)
    {config : (method data : Bytes) → Header} (valid : ∀ method data, (config method data).Valid)
    (zero : ∀ data, config (text "0") data = .stored) : (libzpaq z sha1 config).Stores where
  length_sha1 := twenty
  tag _ _ _ _ := rfl
  findBlock_nil := rfl
  findBlock_compressBlock method filename comment data rest name about _ _ _ :=
    findBlock_compressBlock twenty valid method data rest name about
  length_header filename data name long eight := by
    have size : (coded (z.model .stored) (0 :: data)).length = 13 := by
      rw [coded_short rfl (List.cons_ne_nil _ _) (by rw [List.length_cons, eight]; decide), piece, List.length_append,
        length_bigEndian, List.length_cons, eight]
    have digits : itos data.length 1 = [56] := by
      rw [eight]
      simp [itos]
    have comment : cStr ([56] ++ 32 :: jDC) = [56, 32, 106, 68, 67, 1] := by decide
    have whole := cStr_whole name
    have header : (startBlock .stored).length = 14 := by decide
    have tag : tag.length = 13 := rfl
    simp only [libzpaq, compressBlock, zero, startSegment, endSegment, digits, comment, whole, List.length_append, size,
      header, tag, long, twenty, List.length_cons, List.length_nil]

end

/-! ## Blocks that are only stored -/

/-- Nothing is predicted, and no program runs. -/
def ZPAQL.idle : ZPAQL where
  predictor _ := ⟨Unit, false, (), fun _ => ⟨0, by decide⟩, fun _ _ => ()⟩
  State := Unit
  initp _ _ _ := ()
  run _ _ := ([], ())

/-- Method 0 -/
def storing : Libzpaq := libzpaq .idle SHA1.sha1 fun _ _ => .stored

theorem findBlock_compressBlock_storing :
    ∃ head, findBlock .idle (compressBlock .idle SHA1.sha1 (fun _ _ => .stored) (text "0") (text "a") jDC (text "hello") ++ [0]) =
      some ⟨[⟨text "a", itos 5 1 ++ 32 :: jDC, head, .ok (text "hello"), some (SHA1.sha1 (text "hello")),
          (compressBlock .idle SHA1.sha1 (fun _ _ => .stored) (text "0") (text "a") jDC (text "hello")).length - 1⟩],
        .ok (compressBlock .idle SHA1.sha1 (fun _ _ => .stored) (text "0") (text "a") jDC (text "hello")).length⟩ :=
  findBlock_compressBlock (fun _ => SHA1.length_result _) (fun _ _ => valid_stored) (text "0") (text "hello") [0] (by decide)
    (by decide)

theorem storing_stores : storing.Stores :=
  libzpaq_stores .idle (fun _ => SHA1.length_result _) (fun _ _ => valid_stored) fun _ => rfl

theorem length_cStr_le (s : Bytes) : (cStr s).length ≤ s.length := List.Sublist.length_le (List.takeWhile_sublist _)

/-- A stored block is as long as what is in it, and a little longer. -/
theorem length_storing (method filename comment : Bytes) {data : Bytes} (short : data.length < 65536) :
    (storing.compressBlock method filename comment data).length ≤
      data.length + filename.length + comment.length + (itos data.length 1).length + 63 := by
  have size : (coded (ZPAQL.idle.model .stored) (0 :: data)).length = data.length + 5 := by
    rw [coded_short rfl (List.cons_ne_nil _ _) (by rw [List.length_cons]; omega), piece, List.length_append,
      length_bigEndian, List.length_cons]
    omega
  have twenty : (SHA1.sha1 data).length = 20 := SHA1.length_result _
  have header : (startBlock .stored).length = 14 := by decide
  have tag : tag.length = 13 := rfl
  have name := length_cStr_le filename
  have about := length_cStr_le (itos data.length 1 ++ 32 :: comment)
  rw [List.length_append, List.length_cons] at about
  simp only [storing, libzpaq, compressBlock, startSegment, endSegment, List.length_append, size, header, tag, twenty,
    List.length_cons, List.length_nil]
  omega

end BackupSuite.Zpaq.Blocks
