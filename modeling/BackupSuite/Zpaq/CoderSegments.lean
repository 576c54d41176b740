import Mathlib.Data.List.Induction
import BackupSuite.Zpaq.CoderModeled

/-! # The end of a segment

The lower end of the range is never 0, so that four zero bytes in a row are in no coded data
(`coded_calm`), and a segment that is skipped ends at the first four.  With the pieces of
data that are only stored, what was encoded is decoded whatever the model is
(`decompressAll_coded`), and skipping it comes to the same place (`skip_coded`).
-/

namespace BackupSuite.Zpaq.Coder

open BackupSuite.Library BackupSuite.CtrlCenter

section

variable {pr : Predictor} {e : Encoder pr}

/-! ## Four zeros -/

/-- There are no four zeros in what is out, and zeros at its end keep the lower end away from 0. -/
structure Calm (out : Bytes) (low : Nat) : Prop where
  free : ¬List.replicate 4 0 <:+: out
  ends : ∀ k, List.replicate k 0 <:+ out → 256 ^ k ≤ low

theorem Calm.mono {out : Bytes} {low low' : Nat} (calm : Calm out low) (le : low ≤ low') : Calm out low' :=
  ⟨calm.free, fun k zeros => Nat.le_trans (calm.ends k zeros) le⟩

/-- A leading byte that is zero moves the lower end up. -/
theorem Calm.concat {out : Bytes} {low high : Nat} (calm : Calm out low) (range : Between low high)
    (same : high / 16777216 = low / 16777216) : Calm (out ++ [(high / 16777216).toUInt8]) (lower low) := by
  have next := range.next same
  have least := (lower_le low).1
  have ends : ∀ k, List.replicate k 0 <:+ out ++ [(high / 16777216).toUInt8] → 256 ^ k ≤ lower low := by
    intro k zeros
    rcases List.suffix_concat_iff.mp zeros with none | ⟨front, split, zeros⟩
    · have zero : k = 0 := by simpa using none
      rw [zero]
      exact next.positive
    · cases k with
      | zero => exact next.positive
      | succ k =>
        rw [List.replicate_succ'] at split
        obtain ⟨rfl, byte⟩ := List.append_inj' split rfl
        have before := calm.ends k zeros
        have small := range.small
        have zero : high / 16777216 = 0 := by
          have value := congrArg UInt8.toNat (List.cons.inj byte).1
          rw [Nat.toUInt8_eq, UInt8.toNat_ofNat', UInt8.toNat_zero] at value
          omega
        rw [Nat.pow_succ]
        omega
  refine ⟨fun zeros => ?_, ends⟩
  rcases List.infix_concat_iff.mp zeros with last | before
  · have big := ends 4 last
    have small := next.small
    have ordered := next.ordered
    omega
  · exact calm.free before

theorem Calm.shift {out : Bytes} {low high : Nat} (calm : Calm out low) (range : Between low high) :
    Calm (out ++ (Coder.shift low high).1) (Coder.shift low high).2.1 := by
  revert calm
  refine range_induction (motive := fun low high => ∀ out, Calm out low →
    Calm (out ++ (Coder.shift low high).1) (Coder.shift low high).2.1)
    (fun low high apart out calm => ?_) (fun low high range same ih out calm => ?_) range out
  · rw [shift_of_apart apart.apart, List.append_nil]
    exact calm
  · have next := ih _ (calm.concat range same)
    rw [shift_of_same range same]
    rwa [List.append_assoc] at next

/-- The range is apart, and what is out is calm. -/
structure Encoder.Calm (e : Encoder pr) : Prop where
  apart : Apart e.low e.high
  calm : Coder.Calm e.out e.low

theorem Encoder.Calm.encode (calm : e.Calm) (y : Bool) {p : Nat} (probability : p < 65536) : (e.encode y p).Calm := by
  have middle := mid_lt calm.apart.lt probability
  have small := calm.apart.small
  have positive := calm.apart.positive
  cases y with
  | true =>
    have range : Between e.low (e.low + (e.high - e.low) * p / 65536) := ⟨positive, by omega, by omega⟩
    exact ⟨range.shifted, calm.calm.shift range⟩
  | false =>
    have range : Between (e.low + (e.high - e.low) * p / 65536 + 1) e.high := ⟨by omega, by omega, small⟩
    exact ⟨range.shifted, (calm.calm.mono (by omega)).shift range⟩

theorem Encoder.Calm.compressBits (c : UInt8) (n : Nat) (calm : e.Calm) : (Encoder.compressBits c n e).Calm := by
  induction n generalizing e with
  | zero => exact calm
  | succ n ih =>
    rw [Encoder.compressBits]
    have bit := calm.encode (c.toNat.testBit n) (probability_lt e.state)
    exact ih ⟨bit.apart, bit.calm⟩

theorem Encoder.Calm.compress (modeled : pr.isModeled = true) (calm : e.Calm) (c : UInt8) :
    (e.compress (some c)).Calm := by
  rw [Encoder.compress, if_pos modeled]
  exact (calm.encode false (by decide)).compressBits c 8

theorem Encoder.Calm.foldl (modeled : pr.isModeled = true) (calm : e.Calm) (data : Bytes) :
    (data.foldl (fun e c => e.compress (some c)) e).Calm := by
  induction data generalizing e with
  | nil => exact calm
  | cons c data ih => exact ih (calm.compress modeled c)

theorem calm_start (modeled : pr.isModeled = true) : (Encoder.init : Encoder pr).Calm := by
  rw [init_modeled modeled]
  refine ⟨apart_start, by simp, fun k zeros => ?_⟩
  have none : k = 0 := by simpa using zeros
  rw [none]
  exact Nat.le_refl _

/-- There are never four zero bytes in a row in coded data. -/
theorem coded_calm (modeled : pr.isModeled = true) (data : Bytes) : ¬List.replicate 4 0 <:+: coded pr data := by
  have start := calm_start modeled
  have whole := start.foldl modeled data
  have positive := whole.apart.positive
  have last : Between (data.foldl (fun e c => e.compress (some c)) (Encoder.init : Encoder pr)).low
      (data.foldl (fun e c => e.compress (some c)) (Encoder.init : Encoder pr)).low :=
    ⟨positive, Nat.le_refl _, Nat.lt_of_le_of_lt whole.apart.ordered whole.apart.small⟩
  have free := (whole.calm.shift last).free
  have out := (decompress_end modeled whole.apart).1
  rw [shift_point positive last.small, ← out] at free
  exact free

/-- Every bit is as probable as the other. -/
def even : Predictor := ⟨Unit, true, (), fun _ => 16384, fun _ _ => ()⟩

theorem coded_calm_even : ¬List.replicate 4 0 <:+: coded even [0, 0, 0, 0, 0, 0] := coded_calm rfl _

theorem four_le_length_coded (modeled : pr.isModeled = true) (data : Bytes) : 4 ≤ (coded pr data).length := by
  have start := calm_start modeled
  have out := (decompress_end modeled (start.foldl modeled data).apart).1
  rw [coded, out, List.length_append, length_bigEndian]
  exact Nat.le_add_left _ _

/-! ## Skipping -/

theorem zeros_of_ofBigEndian {s : Bytes} (zero : ofBigEndian s = 0) : s = List.replicate s.length 0 := by
  induction s with
  | nil => rfl
  | cons b s ih =>
    rw [ofBigEndian_cons] at zero
    obtain ⟨first, rest⟩ := Nat.add_eq_zero_iff.mp zero
    have byte : b = 0 := by
      rcases Nat.mul_eq_zero.mp first with value | power
      · exact UInt8.toNat_inj.mp value
      · exact absurd power (Nat.ne_of_gt (Nat.pow_pos (by decide)))
    rw [byte, List.length_cons, List.replicate_succ, ← ih rest]

/-- Four zeros have been seen, or the last four bytes are not zero. -/
theorem zeros_of_mod {c : UInt8} (some : c ≠ 0) {s : Bytes} (zero : ofBigEndian (c :: s) % 4294967296 = 0) :
    List.replicate 4 0 <:+: s := by
  have positive : 0 < c.toNat := Nat.pos_of_ne_zero fun value => some (UInt8.toNat_inj.mp value)
  by_cases long : 4 ≤ s.length
  · have split : s.take (s.length - 4) ++ s.drop (s.length - 4) = s := List.take_append_drop _ s
    have four : (s.drop (s.length - 4)).length = 4 := by
      rw [List.length_drop]
      omega
    have bound := ofBigEndian_lt (s.drop (s.length - 4))
    rw [four] at bound
    have value : ofBigEndian (c :: s) =
        ofBigEndian (c :: s.take (s.length - 4)) * 4294967296 + ofBigEndian (s.drop (s.length - 4)) := by
      conv_lhs => rw [← split]
      rw [← List.cons_append, ofBigEndian_append, four]
      rfl
    have last : ofBigEndian (s.drop (s.length - 4)) = 0 := by omega
    have zeros := zeros_of_ofBigEndian last
    rw [four] at zeros
    rw [← zeros]
    exact (List.drop_suffix _ s).isInfix
  · -- the first byte still counts
    exfalso
    have bound := ofBigEndian_lt s
    have lower : 256 ^ s.length ≤ c.toNat * 256 ^ s.length := Nat.le_mul_of_pos_left _ positive
    have upper : (c.toNat + 1) * 256 ^ s.length ≤ 256 * 256 ^ s.length := Nat.mul_le_mul_right _ c.toNat_lt
    have power : 256 ^ s.length ≤ 256 ^ 3 := Nat.pow_le_pow_right (by decide) (by omega)
    have least : 0 < 256 ^ s.length := Nat.pow_pos (by decide)
    rw [ofBigEndian_cons] at zero
    rw [Nat.add_mul, Nat.one_mul] at upper
    omega

/-- Nothing is found in bytes without four zeros. -/
theorem findZeros_append {c : UInt8} (some : c ≠ 0) {s : Bytes} (free : ¬List.replicate 4 0 <:+: s) (rest : Bytes) :
    Decoder.findZeros c.toNat (s ++ rest) = Decoder.findZeros (ofBigEndian (c :: s) % 4294967296) rest := by
  induction s using List.reverseRecOn generalizing rest with
  | nil =>
    have value : ofBigEndian [c] % 4294967296 = c.toNat := by
      have small := c.toNat_lt
      have none : ofBigEndian [] = 0 := rfl
      rw [ofBigEndian_cons, none, List.length_nil, Nat.pow_zero, Nat.mul_one, Nat.add_zero]
      omega
    rw [value, List.nil_append]
  | append_singleton s b ih =>
    have before : ¬List.replicate 4 0 <:+: s := fun zeros => free (zeros.trans (List.prefix_append s [b]).isInfix)
    have value : ofBigEndian (c :: s) % 4294967296 * 256 % 4294967296 + b.toNat =
        ofBigEndian (c :: (s ++ [b])) % 4294967296 := by
      have last : ofBigEndian [b] = b.toNat := by simp [ofBigEndian]
      have small := b.toNat_lt
      rw [← List.cons_append, ofBigEndian_append, last, List.length_singleton, Nat.pow_one]
      omega
    rw [List.append_assoc, ih before, List.singleton_append, Decoder.findZeros, value]
    exact if_neg fun zero => free (zeros_of_mod some zero)

/-- The zeros at the end are found, and some of them may be left. -/
theorem findZeros_zeros (curr : Nat) (rest : Bytes) :
    ∃ k, Decoder.findZeros curr (0 :: 0 :: 0 :: 0 :: rest) = List.replicate k 0 ++ rest := by
  simp only [Decoder.findZeros, UInt8.toNat_zero, Nat.add_zero]
  split
  · exact ⟨3, rfl⟩
  split
  · exact ⟨2, rfl⟩
  split
  · exact ⟨1, rfl⟩
  split
  · exact ⟨0, rfl⟩
  · omega

theorem skipZeros_replicate (k : Nat) {c : UInt8} (some : c ≠ 0) (rest : Bytes) :
    Decoder.skipZeros (List.replicate k 0 ++ c :: rest) = (c.toNat, rest) := by
  induction k with
  | zero => simp [Decoder.skipZeros, some]
  | succ k ih => rw [List.replicate_succ, List.cons_append, Decoder.skipZeros, if_pos rfl, ih]

/-- Bytes that are not all zeros, at the first other one. -/
theorem exists_replicate {s : Bytes} (free : ¬List.replicate 4 0 <:+: s) (long : 4 ≤ s.length) :
    ∃ k c rest, c ≠ 0 ∧ s = List.replicate k 0 ++ c :: rest := by
  have split : s.takeWhile (· = 0) ++ s.dropWhile (· = 0) = s := List.takeWhile_append_dropWhile
  have zeros : s.takeWhile (· = 0) = List.replicate (s.takeWhile (· = 0)).length 0 :=
    List.eq_replicate_of_mem fun b mem => by simpa using List.mem_takeWhile_imp mem
  cases behind : s.dropWhile (· = 0) with
  | nil =>
    rw [behind, List.append_nil] at split
    rw [split] at zeros
    refine absurd ?_ free
    rw [zeros]
    exact ⟨List.replicate (s.length - 4) 0, [], by rw [List.append_nil, List.replicate_append_replicate]; congr; omega⟩
  | cons c rest =>
    have head := List.head_dropWhile_not (fun b : UInt8 => decide (b = 0)) (l := s) (by rw [behind]; simp)
    simp only [behind, List.head_cons, decide_eq_false_iff_not] at head
    exact ⟨_, c, rest, head, by rw [← zeros, ← behind, split]⟩

/-- A segment that is skipped ends behind the four zeros, at the first byte that is not 0. -/
theorem skip_modeled (modeled : pr.isModeled = true) (data rest : Bytes) {marker : UInt8} (positive : marker ≠ 0) :
    (Decoder.init (coded pr data ++ [0, 0, 0, 0] ++ marker :: rest) : Decoder pr).skip = .ok (some marker, rest) := by
  obtain ⟨k, c, tail, other, split⟩ := exists_replicate (coded_calm modeled data) (four_le_length_coded modeled data)
  have free : ¬List.replicate 4 0 <:+: tail := by
    intro zeros
    refine coded_calm modeled data (zeros.trans ?_)
    rw [split]
    exact ⟨List.replicate k 0 ++ [c], [], by simp⟩
  obtain ⟨n, found⟩ := findZeros_zeros (ofBigEndian (c :: tail) % 4294967296) (marker :: rest)
  have start : Decoder.skipZeros (coded pr data ++ [0, 0, 0, 0] ++ marker :: rest) =
      (c.toNat, tail ++ ([0, 0, 0, 0] ++ marker :: rest)) := by
    rw [split, List.append_assoc, List.append_assoc, List.cons_append, skipZeros_replicate k other]
  have ends : Decoder.findZeros c.toNat (tail ++ ([0, 0, 0, 0] ++ marker :: rest)) =
      List.replicate n 0 ++ marker :: rest := by
    rw [findZeros_append other free]
    exact found
  have behind : (List.replicate n 0 ++ marker :: rest).dropWhile (· = 0) = marker :: rest := by
    rw [List.dropWhile_append_of_pos (by simp), List.dropWhile_cons_of_neg (by simpa using positive)]
  rw [Decoder.skip, if_pos modeled, Decoder.init, if_pos modeled]
  simp only [if_true, start, ends, behind]
  rfl

/-! ## Stored bytes -/

/-- A piece behind its size. -/
def piece (s : Bytes) : Bytes := bigEndian 4 s.length ++ s

/-- The pieces that are out, and what is in the buffer. -/
structure Pieces (e : Encoder pr) (pieces : List Bytes) : Prop where
  out : e.out = pieces.flatMap piece
  whole : ∀ s ∈ pieces, s ≠ [] ∧ s.length ≤ 65536
  counted : e.low = e.buf.length
  room : e.buf.length ≤ 65536

theorem Pieces.flush {pieces : List Bytes} (held : Pieces e pieces) (full : e.low ≠ 0) :
    Pieces e.flush (pieces ++ [e.buf]) where
  out := by
    rw [Encoder.flush, List.flatMap_append, held.out, held.counted, List.flatMap_singleton, piece, List.append_assoc]
  whole s mem := by
    rcases List.mem_append.mp mem with before | last
    · exact held.whole s before
    · rw [List.mem_singleton.mp last]
      have counted := held.counted
      exact ⟨fun none => full (by rw [counted, none]; rfl), held.room⟩
  counted := rfl
  room := Nat.zero_le _

theorem Pieces.compress (stored : pr.isModeled = false) {pieces : List Bytes} (held : Pieces e pieces) (c : UInt8) :
    ∃ pieces', Pieces (e.compress (some c)) pieces' ∧
      pieces'.flatten ++ (e.compress (some c)).buf = pieces.flatten ++ e.buf ++ [c] := by
  rw [Encoder.compress, if_neg (by rw [stored]; decide)]
  simp only
  split
  next full =>
    have flushed := held.flush full.1
    refine ⟨pieces ++ [e.buf], ⟨flushed.out, flushed.whole, by simp [Encoder.flush], by simp [Encoder.flush]⟩, ?_⟩
    simp [Encoder.flush]
  next some =>
    have counted := held.counted
    have room := held.room
    refine ⟨pieces, ⟨held.out, held.whole, by simp [counted], ?_⟩, by simp⟩
    simp only [reduceCtorEq, false_or, not_and] at some
    rw [List.length_append, List.length_singleton]
    omega

theorem Pieces.foldl (stored : pr.isModeled = false) {pieces : List Bytes} (held : Pieces e pieces) (data : Bytes) :
    ∃ pieces', Pieces (data.foldl (fun e c => e.compress (some c)) e) pieces' ∧
      pieces'.flatten ++ (data.foldl (fun e c => e.compress (some c)) e).buf = pieces.flatten ++ e.buf ++ data := by
  induction data generalizing e pieces with
  | nil => exact ⟨pieces, held, (List.append_nil _).symm⟩
  | cons c data ih =>
    obtain ⟨next, held, same⟩ := held.compress stored c
    obtain ⟨pieces', held, whole⟩ := ih held
    refine ⟨pieces', held, ?_⟩
    rw [List.foldl_cons, whole, same, List.append_assoc, List.singleton_append]

/-- Without a model the data are in pieces. -/
theorem coded_stored (stored : pr.isModeled = false) (data : Bytes) :
    ∃ pieces : List Bytes, coded pr data = pieces.flatMap piece ∧ pieces.flatten = data ∧
      ∀ s ∈ pieces, s ≠ [] ∧ s.length ≤ 65536 := by
  have start : Pieces (Encoder.init : Encoder pr) [] := by
    rw [Encoder.init, if_neg (by rw [stored]; decide)]
    exact ⟨rfl, by simp, rfl, Nat.zero_le _⟩
  have empty : (Encoder.init : Encoder pr).buf = [] := by
    rw [Encoder.init, if_neg (by rw [stored]; decide)]
  obtain ⟨pieces, held, same⟩ := start.foldl stored data
  rw [empty] at same
  rw [coded, Encoder.compress, if_neg (by rw [stored]; decide)]
  simp only
  split
  next some =>
    have flushed := held.flush some.1
    refine ⟨_, flushed.out, ?_, flushed.whole⟩
    rw [List.flatten_append, List.flatten_singleton, same]
    rfl
  next none =>
    have none : (data.foldl (fun e c => e.compress (some c)) (Encoder.init : Encoder pr)).buf = [] := by
      have counted := held.counted
      apply List.eq_nil_of_length_eq_zero
      simp only [true_or, and_true, not_not] at none
      omega
    rw [none, List.append_nil] at same
    exact ⟨pieces, held.out, same, held.whole⟩

theorem decompress_inside (stored : pr.isModeled = false) (state : pr.State) (c : UInt8) (n : Nat) (rest : Bytes) :
    (⟨0, 0, n + 1, state, c :: rest⟩ : Decoder pr).decompress = .ok (some c, ⟨0, 0, n, state, rest⟩) := by
  rw [Decoder.decompress, if_neg (by rw [stored]; decide)]
  rfl

/-- At the start of a piece its size is taken first. -/
theorem decompress_start (stored : pr.isModeled = false) (state : pr.State) {n : Nat} (small : n < 4294967296)
    (input : Bytes) :
    (⟨0, 0, 0, state, bigEndian 4 n ++ input⟩ : Decoder pr).decompress =
      if n = 0 then .ok (none, ⟨0, 0, 0, state, input⟩)
      else (⟨0, 0, n, state, input⟩ : Decoder pr).decompress := by
  have four := fill_four (⟨0, 0, 0, state, []⟩ : Decoder pr)
    (by rw [List.length_append, length_bigEndian]; exact Nat.le_add_right _ _ : 4 ≤ (bigEndian 4 n ++ input).length)
  rw [window_bigEndian small, List.drop_left' (length_bigEndian 4 n)] at four
  rw [Decoder.decompress, if_neg (by rw [stored]; decide)]
  simp only [if_true, four]
  split
  next none => rw [none]
  next some =>
    rw [Decoder.decompress, if_neg (by rw [stored]; decide)]
    simp only [if_neg some]

theorem decompressAll_inside (stored : pr.isModeled = false) {state : pr.State} {data rest : Bytes} {d : Decoder pr}
    (behind : (⟨0, 0, 0, state, rest⟩ : Decoder pr).decompressAll = .ok (data, d)) (s : Bytes) :
    (⟨0, 0, s.length, state, s ++ rest⟩ : Decoder pr).decompressAll = .ok (s ++ data, d) := by
  induction s with
  | nil => exact behind
  | cons c s ih =>
    exact decompressAll_some (decompress_inside stored state c s.length (s ++ rest))
      (Or.inl (Nat.lt_succ_self _)) ih

/-- The pieces, up to one of size 0. -/
theorem decompressAll_pieces (stored : pr.isModeled = false) (state : pr.State) {pieces : List Bytes}
    (whole : ∀ s ∈ pieces, s ≠ [] ∧ s.length ≤ 65536) (rest : Bytes) :
    (⟨0, 0, 0, state, pieces.flatMap piece ++ [0, 0, 0, 0] ++ rest⟩ : Decoder pr).decompressAll =
      .ok (pieces.flatten, ⟨0, 0, 0, state, rest⟩) := by
  induction pieces with
  | nil =>
    refine decompressAll_none ?_
    have ends := decompress_start stored state (n := 0) (by decide) rest
    exact ends
  | cons s pieces ih =>
    obtain ⟨some, short⟩ := whole s List.mem_cons_self
    have later := ih fun s mem => whole s (List.mem_cons_of_mem _ mem)
    have inside := decompressAll_inside stored later s
    have size : s.length ≠ 0 := fun none => some (List.eq_nil_of_length_eq_zero none)
    have start := decompress_start stored state (n := s.length) (by omega)
      (s ++ (pieces.flatMap piece ++ [0, 0, 0, 0] ++ rest))
    rw [if_neg size] at start
    rw [List.flatMap_cons, piece, List.append_assoc, List.append_assoc, List.append_assoc, List.flatten_cons]
    rw [List.append_assoc] at start inside
    refine decompressAll_longer start ?_ inside
    simp only [List.length_append, length_bigEndian]
    omega

/-- The pieces are skipped by their sizes. -/
theorem skipPieces_pieces {pieces : List Bytes} (whole : ∀ s ∈ pieces, s ≠ [] ∧ s.length ≤ 65536) (rest : Bytes) :
    Decoder.skipPieces (Decoder.readSize (pieces.flatMap piece ++ [0, 0, 0, 0] ++ rest)).1
        (Decoder.readSize (pieces.flatMap piece ++ [0, 0, 0, 0] ++ rest)).2.1
        (Decoder.readSize (pieces.flatMap piece ++ [0, 0, 0, 0] ++ rest)).2.2 = .ok (true, rest) := by
  induction pieces with
  | nil =>
    have size : Decoder.readSize ([0, 0, 0, 0] ++ rest) = (true, 0, rest) := by
      rw [Decoder.readSize]
      simp [window, ofBigEndian]
    rw [List.flatMap_nil, List.nil_append, size, Decoder.skipPieces, if_pos rfl]
  | cons s pieces ih =>
    obtain ⟨some, short⟩ := whole s List.mem_cons_self
    have size : Decoder.readSize ((s :: pieces).flatMap piece ++ [0, 0, 0, 0] ++ rest) =
        (true, s.length, s ++ (pieces.flatMap piece ++ [0, 0, 0, 0] ++ rest)) := by
      rw [List.flatMap_cons, piece, List.append_assoc, List.append_assoc, List.append_assoc, List.append_assoc,
        Decoder.readSize, window_bigEndian (by omega), List.drop_left' (length_bigEndian 4 s.length)]
      simp
    have positive : s.length ≠ 0 := fun none => some (List.eq_nil_of_length_eq_zero none)
    have enough : ¬(s ++ (pieces.flatMap piece ++ [0, 0, 0, 0] ++ rest)).length < s.length := by
      rw [List.length_append]
      omega
    rw [size, Decoder.skipPieces, if_neg positive, if_neg enough, List.drop_left]
    exact ih fun s mem => whole s (List.mem_cons_of_mem _ mem)

end

/-! ## Any model -/

section

variable (pr : Predictor) (data rest : Bytes)

/-- What was encoded is decoded, and what is behind is left. -/
theorem decompressAll_coded :
    ∃ d, (Decoder.init (coded pr data ++ [0, 0, 0, 0] ++ rest) : Decoder pr).decompressAll = .ok (data, d) ∧
      d.input = rest := by
  by_cases modeled : pr.isModeled = true
  · exact decompressAll_modeled modeled data rest
  · have stored : pr.isModeled = false := by simpa using modeled
    obtain ⟨pieces, split, same, whole⟩ := coded_stored stored data
    refine ⟨⟨0, 0, 0, pr.init, rest⟩, ?_, rfl⟩
    rw [Decoder.init, if_neg modeled, split, ← same]
    exact decompressAll_pieces stored pr.init whole rest

/-- A segment that is skipped ends where it was encoded to the end. -/
theorem skip_coded {marker : UInt8} (positive : marker ≠ 0) :
    (Decoder.init (coded pr data ++ [0, 0, 0, 0] ++ marker :: rest) : Decoder pr).skip = .ok (some marker, rest) := by
  by_cases modeled : pr.isModeled = true
  · exact skip_modeled modeled data rest positive
  · have stored : pr.isModeled = false := by simpa using modeled
    obtain ⟨pieces, split, -, whole⟩ := coded_stored stored data
    have pieces := skipPieces_pieces whole (marker :: rest)
    rw [Decoder.skip, if_neg modeled, Decoder.init, if_neg modeled, split]
    simp only [if_true, pieces]
    rfl

theorem skip_coded_even :
    (Decoder.init (coded even [0, 0, 0, 0] ++ [0, 0, 0, 0] ++ 253 :: [1, 2]) : Decoder even).skip = .ok (some 253, [1, 2]) :=
  skip_coded even [0, 0, 0, 0] [1, 2] (by decide)

end

end BackupSuite.Zpaq.Coder
