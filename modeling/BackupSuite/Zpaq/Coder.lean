import Mathlib.Data.Nat.Bitwise
import BackupSuite.Library.BigEndian
import BackupSuite.CtrlCenter.ParseBuffer

/-! # The arithmetic coder of libzpaq

`Encoder` narrows a range of 32 bits with the predicted probability of each bit and puts out
the bytes that the ends have in common; `Decoder` follows it.  Without components in the model
the bytes are stored in pieces behind their sizes.  The predictor is a parameter.
-/

namespace BackupSuite.Zpaq.Coder

open BackupSuite.Library BackupSuite.CtrlCenter

/-- `n>0 components?` says whether it is modeled; a prediction has 15 bits. -/
structure Predictor where
  State : Type
  isModeled : Bool
  init : State
  predict : State → Fin 32768
  update : State → Bool → State

/-- Ends with an error, where the input stands. -/
structure Failure where
  text : String
  rest : Bytes
deriving DecidableEq, Repr

variable (pr : Predictor)

/-! ## Encoder -/

/-- The ends have the leading byte in common. -/
theorem xor_lt_iff (high low : Nat) : high ^^^ low < 0x1000000 ↔ high / 16777216 = low / 16777216 := by
  have top : (high ^^^ low) / 16777216 = high / 16777216 ^^^ low / 16777216 := by
    have split := @Nat.shiftRight_xor_distrib 24 high low
    simp only [Nat.shiftRight_eq_div_pow] at split
    exact split
  constructor
  · intro small
    have zero : (high ^^^ low) / 16777216 = 0 := Nat.div_eq_of_lt small
    rw [top, ← Nat.xor_self (low / 16777216)] at zero
    exact Nat.xor_left_inj.mp zero
  · intro same
    have zero : (high ^^^ low) / 16777216 = 0 := by rw [top, same, Nat.xor_self]
    omega

theorem or_255 (high : Nat) : high * 256 % 4294967296 ||| 255 = high * 256 % 4294967296 + 255 := by
  have low : high * 256 % 4294967296 = (high % 16777216) <<< 8 := by
    rw [Nat.shiftLeft_eq]
    omega
  rw [low, Nat.shiftLeft_add_eq_or_of_lt (by decide)]

/-- Writes identical leading bytes.  The lower end is not 0, so that there are no four 0 bytes in a row. -/
def shift (low high : Nat) : Bytes × Nat × Nat :=
  -- always low ≤ high < 2^32
  if same : high ^^^ low < 0x1000000 ∧ low ≤ high ∧ high < 4294967296 then
    let low' := low * 256 % 4294967296
    let low' := low' + if low' = 0 then 1 else 0
    let shifted := shift low' (high * 256 % 4294967296 ||| 255)
    ((high / 16777216).toUInt8 :: shifted.1, shifted.2)
  else ([], low, high)
termination_by 4294967296 - (high - low)
decreasing_by
  have top := (xor_lt_iff high low).mp same.1
  rw [or_255]
  split <;> omega

structure Encoder where
  low : Nat
  high : Nat
  state : pr.State
  /-- unmodeled input, which `low` counts -/
  buf : Bytes
  out : Bytes

namespace Encoder

variable {pr} (e : Encoder pr)

def init : Encoder pr :=
  if pr.isModeled then ⟨1, 0xFFFFFFFF, pr.init, [], []⟩ else ⟨0, 0xFFFFFFFF, pr.init, [], []⟩

/-- Compresses bit `y` of probability `p`/64K. -/
def encode (y : Bool) (p : Nat) : Encoder pr :=
  let mid := e.low + (e.high - e.low) * p / 65536
  let shifted := if y then shift e.low mid else shift (mid + 1) e.high
  { e with low := shifted.2.1, high := shifted.2.2, out := e.out ++ shifted.1 }

/-- The lowest `n` bits of a byte, the highest first. -/
def compressBits (c : UInt8) : (n : Nat) → Encoder pr → Encoder pr
  | 0, e => e
  | i + 1, e =>
    let y := c.toNat.testBit i
    let e := e.encode y ((pr.predict e.state).val * 2 + 1)
    compressBits c i { e with state := pr.update e.state y }

/-- Writes the piece behind its size. -/
def flush : Encoder pr := { e with low := 0, buf := [], out := e.out ++ bigEndian 4 e.low ++ e.buf }

/-- Compresses a byte, or the end of the stream. -/
def compress (c : Option UInt8) : Encoder pr :=
  if pr.isModeled then
    match c with
    | none => e.encode true 0
    | some c => compressBits c 8 (e.encode false 0)
  else
    let e := if e.low ≠ 0 ∧ (c = none ∨ e.low = 65536) then e.flush else e
    match c with
    | none => e
    | some c => { e with low := e.low + 1, buf := e.buf ++ [c] }

end Encoder

/-- The bytes, and the end of the stream. -/
def coded (data : Bytes) : Bytes :=
  ((data.foldl (fun e c => e.compress (some c)) (Encoder.init : Encoder pr)).compress none).out

/-! ## Decoder -/

structure Decoder where
  low : Nat
  high : Nat
  /-- last 4 bytes of the archive, or remaining bytes of the piece -/
  curr : Nat
  state : pr.State
  input : Bytes

namespace Decoder

variable {pr} (d : Decoder pr)

def init (input : Bytes) : Decoder pr :=
  if pr.isModeled then ⟨1, 0xFFFFFFFF, 0, pr.init, input⟩ else ⟨0, 0, 0, pr.init, input⟩

/-- `curr=curr<<8|get()`, where `get` is -1 at the end of the input. -/
def fill : (n : Nat) → Decoder pr → Decoder pr
  | 0, d => d
  | n + 1, d =>
    match d.input with
    | [] => fill n { d with curr := 0xFFFFFFFF }
    | c :: rest => fill n { d with curr := d.curr * 256 % 4294967296 + c.toNat, input := rest }

/-- Shifts out identical leading bytes. -/
def shift (low high curr : Nat) (state : pr.State) (input : Bytes) : Except Failure (Decoder pr) :=
  if high ^^^ low < 0x1000000 then
    let low' := low * 256 % 4294967296
    match input with
    | [] => .error ⟨"unexpected end of file", []⟩
    | c :: rest =>
      shift (low' + if low' = 0 then 1 else 0) (high * 256 % 4294967296 ||| 255)
        (curr * 256 % 4294967296 + c.toNat) state rest
  else .ok ⟨low, high, curr, state, input⟩
termination_by input

/-- The next bit, which has the probability `p`/64K of being 1. -/
def decode (p : Nat) : Except Failure (Bool × Decoder pr) :=
  if d.curr < d.low ∨ d.high < d.curr then .error ⟨"archive corrupted", d.input⟩
  else
    let mid := d.low + (d.high - d.low) * p / 65536
    if d.curr ≤ mid then do return (true, ← shift d.low mid d.curr d.state d.input)
    else do return (false, ← shift (mid + 1) d.high d.curr d.state d.input)

/-- Gets `n` more bits of `c`. -/
def decompressBits : (n c : Nat) → Decoder pr → Except Failure (Nat × Decoder pr)
  | 0, c, d => .ok (c, d)
  | n + 1, c, d => do
    let (y, d) ← d.decode ((pr.predict d.state).val * 2 + 1)
    decompressBits n (c + c + y.toNat) { d with state := pr.update d.state y }

/-- A byte, or `none` at the end of the stream. -/
def decompress : Except Failure (Option UInt8 × Decoder pr) :=
  if pr.isModeled then do
    -- segment initialization
    let d := if d.curr = 0 then d.fill 4 else d
    let (y, d) ← d.decode 0
    if y then
      if d.curr ≠ 0 then .error ⟨"decoding end of stream", d.input⟩ else return (none, d)
    else do
      let (c, d) ← d.decompressBits 8 1
      return (some (c - 256).toUInt8, d)
  else
    let d := if d.curr = 0 then d.fill 4 else d
    if d.curr = 0 then .ok (none, d)
    else .ok (d.input.head?, { d with curr := d.curr - 1, input := d.input.tail })

/-- To the end of the stream. -/
def decompressAll (d : Decoder pr) : Except Failure (Bytes × Decoder pr) :=
  match d.decompress with
  | .error failure => .error failure
  | .ok (none, d') => .ok ([], d')
  | .ok (some c, d') =>
    -- always so: a byte narrows the range, or else takes input
    if d'.input.length < d.input.length ∨
        d'.input.length = d.input.length ∧ d'.high - d'.low < d.high - d.low then
      match decompressAll d' with
      | .error failure => .error failure
      | .ok (s, d'') => .ok (c :: s, d'')
    else .error ⟨"", d'.input⟩
termination_by (d.input.length, d.high - d.low)
decreasing_by
  rename_i smaller
  rcases smaller with less | ⟨same, less⟩
  · exact .left _ _ less
  · rw [same]
    exact .right _ less

/-! ## Skipping a segment -/

/-- `while (curr==0) curr=get()` -/
def skipZeros : Bytes → Nat × Bytes
  | [] => (0xFFFFFFFF, [])
  | c :: rest => if c = 0 then skipZeros rest else (c.toNat, rest)

/-- Finds 4 zeros. -/
def findZeros (curr : Nat) : Bytes → Bytes
  | [] => []
  | c :: rest =>
    let curr := curr * 256 % 4294967296 + c.toNat
    if curr = 0 then rest else findZeros curr rest

/-- `for (int i=0; i<4 && (c=get())>=0; ++i) curr=curr<<8|c`, and whether there were four bytes. -/
def readSize (input : Bytes) : Bool × Nat × Bytes := (4 ≤ input.length, window input, input.drop 4)

/-- Skips pieces, of which the first one has `curr` bytes left, up to one of size 0. -/
def skipPieces (c : Bool) (curr : Nat) (input : Bytes) : Except Failure (Bool × Bytes) :=
  if curr = 0 then .ok (c, input)
  else if input.length < curr then .error ⟨"skipped to EOF", []⟩
  else
    let next := readSize (input.drop curr)
    skipPieces next.1 next.2.1 next.2.2
termination_by input.length
decreasing_by
  simp only [readSize, List.length_drop]
  omega

/-- Finds the end of the compressed data, and returns the next byte. -/
def skip : Except Failure (Option UInt8 × Bytes) :=
  if pr.isModeled then
    let (curr, input) := if d.curr = 0 then skipZeros d.input else (d.curr, d.input)
    -- might be more than 4
    let behind := (findZeros curr input).dropWhile (· = 0)
    .ok (behind.head?, behind.tail)
  else do
    let (c, curr, input) := if d.curr = 0 then readSize d.input else (true, d.curr, d.input)
    let (c, input) ← skipPieces c curr input
    return if c then (input.head?, input.tail) else (none, input)

end Decoder

end BackupSuite.Zpaq.Coder
