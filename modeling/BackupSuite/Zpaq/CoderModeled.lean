import BackupSuite.Zpaq.Coder

/-! # The decoder follows the encoder

As long as the number ahead is in the encoder's range, the decoder gets the same bits and
is where the encoder is (`decode_encode`); a byte is a flag and eight bits, and the end of
the stream is the lower end of the range with four zeros behind it
(`decompressAll_modeled`).
-/

namespace BackupSuite.Zpaq.Coder

open BackupSuite.Library BackupSuite.CtrlCenter

variable (pr : Predictor)

/-! ## The range -/

/-- A range that is not empty. -/
structure Between (low high : Nat) : Prop where
  positive : 0 < low
  ordered : low ≤ high
  small : high < 4294967296

/-- What is left when identical leading bytes are out. -/
structure Apart (low high : Nat) : Prop extends Between low high where
  apart : high / 16777216 ≠ low / 16777216

section

variable {pr} {low high : Nat}

/-- The lower end after a byte is out. -/
def lower (low : Nat) : Nat := low * 256 % 4294967296 + if low * 256 % 4294967296 = 0 then 1 else 0

theorem shift_of_same (range : Between low high) (same : high / 16777216 = low / 16777216) :
    shift low high =
      ((high / 16777216).toUInt8 :: (shift (lower low) (high * 256 % 4294967296 + 255)).1,
        (shift (lower low) (high * 256 % 4294967296 + 255)).2) := by
  rw [shift, dif_pos ⟨(xor_lt_iff high low).mpr same, range.ordered, range.small⟩, or_255]
  rfl

theorem shift_of_apart (apart : high / 16777216 ≠ low / 16777216) : shift low high = ([], low, high) := by
  rw [shift, dif_neg fun same => apart ((xor_lt_iff high low).mp same.1)]

theorem Between.next (range : Between low high) (same : high / 16777216 = low / 16777216) :
    Between (lower low) (high * 256 % 4294967296 + 255) := by
  obtain ⟨positive, ordered, small⟩ := range
  rw [lower]
  constructor
  · split <;> omega
  · split <;> omega
  · omega

/-- Each byte that is out makes the range wider. -/
theorem range_induction {motive : Nat → Nat → Prop} (apart : ∀ low high, Apart low high → motive low high)
    (same : ∀ low high, Between low high → high / 16777216 = low / 16777216 →
      motive (lower low) (high * 256 % 4294967296 + 255) → motive low high) (range : Between low high) :
    motive low high := by
  obtain ⟨room, size⟩ : ∃ room, 4294967296 - (high - low) = room := ⟨_, rfl⟩
  induction room using Nat.strongRecOn generalizing low high with
  | ind room ih =>
    by_cases top : high / 16777216 = low / 16777216
    · refine same low high range top (ih _ ?_ (range.next top) rfl)
      obtain ⟨positive, ordered, small⟩ := range
      rw [lower]
      split <;> omega
    · exact apart low high ⟨range, top⟩

theorem Between.shifted (range : Between low high) : Apart (shift low high).2.1 (shift low high).2.2 := by
  refine range_induction (motive := fun low high => Apart (shift low high).2.1 (shift low high).2.2)
    (fun low high apart => ?_) (fun low high range same ih => ?_) range
  · rw [shift_of_apart apart.apart]
    exact apart
  · rw [shift_of_same range same]
    exact ih

theorem decoder_shift_of_same (same : high / 16777216 = low / 16777216) (curr : Nat) (state : pr.State)
    (c : UInt8) (rest : Bytes) :
    Decoder.shift low high curr state (c :: rest) =
      Decoder.shift (lower low) (high * 256 % 4294967296 + 255) (curr * 256 % 4294967296 + c.toNat) state rest := by
  rw [Decoder.shift, if_pos ((xor_lt_iff high low).mpr same), or_255]
  rfl

theorem decoder_shift_of_apart (apart : high / 16777216 ≠ low / 16777216) (curr : Nat)
    (state : pr.State) (input : Bytes) : Decoder.shift low high curr state input = .ok ⟨low, high, curr, state, input⟩ := by
  rw [Decoder.shift.eq_def, if_neg fun same => apart ((xor_lt_iff high low).mp same)]

/-- As long as what follows is in the new range, all of it is in the range, and the decoder shifts as the
encoder does. -/
theorem Between.follows (range : Between low high) (state : pr.State) {s : Bytes} (long : 4 ≤ s.length)
    (above : (shift low high).2.1 ≤ window s) (below : window s ≤ (shift low high).2.2) :
    low ≤ window ((shift low high).1 ++ s) ∧ window ((shift low high).1 ++ s) ≤ high ∧
      Decoder.shift low high (window ((shift low high).1 ++ s)) state
          (((shift low high).1 ++ s).drop 4) =
        .ok ⟨(shift low high).2.1, (shift low high).2.2, window s, state, s.drop 4⟩ := by
  revert above below
  refine range_induction (motive := fun low high => (shift low high).2.1 ≤ window s →
    window s ≤ (shift low high).2.2 →
    low ≤ window ((shift low high).1 ++ s) ∧ window ((shift low high).1 ++ s) ≤ high ∧
      Decoder.shift low high (window ((shift low high).1 ++ s)) state
          (((shift low high).1 ++ s).drop 4) =
        .ok ⟨(shift low high).2.1, (shift low high).2.2, window s, state, s.drop 4⟩)
    (fun low high apart => ?_) (fun low high range same ih => ?_) range
  · rw [shift_of_apart apart.apart]
    intro above below
    exact ⟨above, below, decoder_shift_of_apart apart.apart _ _ _⟩
  · rw [shift_of_same range same]
    intro above below
    obtain ⟨above, below, follows⟩ := ih above below
    have longer : 4 ≤ ((shift (lower low) (high * 256 % 4294967296 + 255)).1 ++ s).length := by
      rw [List.length_append]
      omega
    obtain ⟨value, d, here, next⟩ := window_cons (high / 16777216).toUInt8 longer
    have byte : (high / 16777216).toUInt8.toNat = high / 16777216 := by
      have small := range.small
      rw [Nat.toUInt8_eq, UInt8.toNat_ofNat']
      omega
    rw [byte] at value
    rw [List.cons_append, List.drop_succ_cons, here, decoder_shift_of_same same, ← next]
    have least : low * 256 % 4294967296 ≤ lower low := Nat.le_add_right _ _
    refine ⟨?_, ?_, follows⟩
    · rw [value]
      omega
    · rw [value]
      omega

theorem lower_le (low : Nat) : low * 256 % 4294967296 ≤ lower low ∧ lower low ≤ low * 256 % 4294967296 + 1 := by
  rw [lower]
  split <;> omega

/-- The ends when one, two or three bytes are out; `x` is what is left of the number. -/
theorem one_out {x l : Nat} (_small : x < 16777216) (above : x * 256 ≤ l) (below : l ≤ x * 256 + 1) :
    (x * 256 + 255) / 16777216 = l / 16777216 ∧ (x * 256 + 255) / 16777216 = x / 65536 ∧
      (x * 256 + 255) * 256 % 4294967296 + 255 = x % 65536 * 65536 + 65535 ∧
      x % 65536 * 65536 ≤ l * 256 % 4294967296 ∧ l * 256 % 4294967296 ≤ x % 65536 * 65536 + 256 := by
  omega

theorem two_out {x l : Nat} (_small : x < 65536) (above : x * 65536 ≤ l) (below : l ≤ x * 65536 + 257) :
    (x * 65536 + 65535) / 16777216 = l / 16777216 ∧ (x * 65536 + 65535) / 16777216 = x / 256 ∧
      (x * 65536 + 65535) * 256 % 4294967296 + 255 = x % 256 * 16777216 + 16777215 ∧
      x % 256 * 16777216 ≤ l * 256 % 4294967296 ∧ l * 256 % 4294967296 ≤ x % 256 * 16777216 + 65792 := by
  omega

theorem three_out {x l : Nat} (_small : x < 256) (above : x * 16777216 ≤ l) (below : l ≤ x * 16777216 + 65793) :
    (x * 16777216 + 16777215) / 16777216 = l / 16777216 ∧ (x * 16777216 + 16777215) / 16777216 = x ∧
      (x * 16777216 + 16777215) * 256 % 4294967296 + 255 = 4294967295 ∧ l * 256 % 4294967296 ≤ 16843008 := by
  omega

/-- A single number is put out whole. -/
theorem shift_point (positive : 0 < low) (small : low < 4294967296) : (shift low low).1 = bigEndian 4 low := by
  have range : Between low low := ⟨positive, Nat.le_refl _, small⟩
  have step := shift_of_same range rfl
  have range := range.next rfl
  have end1 : low * 256 % 4294967296 + 255 = low % 16777216 * 256 + 255 := by omega
  obtain ⟨above, below⟩ := lower_le low
  have start : low * 256 % 4294967296 = low % 16777216 * 256 := by omega
  rw [start] at above below
  rw [end1] at step range
  obtain ⟨same, byte1, end2, above', below'⟩ := one_out (Nat.mod_lt _ (by decide)) above below
  have step1 := shift_of_same range same
  have range := range.next same
  rw [end2] at step1 range
  obtain ⟨above, below⟩ := lower_le (lower low)
  obtain ⟨same, byte2, end3, above', below'⟩ := two_out (Nat.mod_lt _ (by decide)) (Nat.le_trans above' above)
    (Nat.le_trans below (Nat.add_le_add_right below' 1))
  have step2 := shift_of_same range same
  have range := range.next same
  rw [end3] at step2 range
  obtain ⟨above, below⟩ := lower_le (lower (lower low))
  obtain ⟨same, byte3, end4, below'⟩ := three_out (Nat.mod_lt _ (by decide)) (Nat.le_trans above' above)
    (Nat.le_trans below (Nat.add_le_add_right below' 1))
  have step3 := shift_of_same range same
  have top : lower (lower (lower (lower low))) ≤ 16843009 :=
    Nat.le_trans (lower_le _).2 (Nat.add_le_add_right below' 1)
  have apart : 4294967295 / 16777216 ≠ lower (lower (lower (lower low))) / 16777216 := by
    clear step step1 step2 step3
    omega
  rw [end4, shift_of_apart apart] at step3
  rw [step, step1, step2, step3, byte1, byte2, byte3]
  have digit (n m : Nat) (same : n % 256 = m % 256) : n.toUInt8 = m.toUInt8 := by
    rw [← UInt8.toNat_inj, Nat.toUInt8_eq, Nat.toUInt8_eq, UInt8.toNat_ofNat', UInt8.toNat_ofNat']
    exact same
  simp only [bigEndian]
  congr 1
  congr 1
  · exact digit _ _ (by omega)
  congr 1
  · exact digit _ _ (by omega)
  congr 1
  exact digit _ _ (by omega)

/-- The decoder takes a byte for each one that the encoder puts out. -/
theorem Between.takes (range : Between low high) (curr : Nat) (state : pr.State) (input : Bytes)
    (enough : (shift low high).1.length ≤ input.length) :
    Decoder.shift low high curr state input =
      .ok ⟨(shift low high).2.1, (shift low high).2.2,
        (input.take (shift low high).1.length).foldl (fun curr c => curr * 256 % 4294967296 + c.toNat) curr, state,
        input.drop (shift low high).1.length⟩ := by
  revert curr input
  refine range_induction (motive := fun low high => ∀ (curr : Nat) (input : Bytes),
    (shift low high).1.length ≤ input.length → Decoder.shift low high curr state input =
      .ok ⟨(shift low high).2.1, (shift low high).2.2,
        (input.take (shift low high).1.length).foldl (fun curr c => curr * 256 % 4294967296 + c.toNat) curr, state,
        input.drop (shift low high).1.length⟩)
    (fun low high apart curr input _ => ?_) (fun low high range same ih curr input enough => ?_) range
  · rw [shift_of_apart apart.apart, decoder_shift_of_apart apart.apart]
    rfl
  · rw [shift_of_same range same] at enough ⊢
    cases input with
    | nil => exact absurd enough (by simp)
    | cons c rest =>
      rw [decoder_shift_of_same same, ih _ _ (by simpa using enough)]
      rfl

end

/-! ## Bits and bytes -/

section

variable {pr}

/-- The encoder goes on from `e` to `e'`, and puts out some bytes or else makes the range no wider. -/
structure Emits (e e' : Encoder pr) (bytes : Bytes) : Prop where
  out : e'.out = e.out ++ bytes
  apart : Apart e'.low e'.high
  narrower : bytes = [] → e'.high - e'.low ≤ e.high - e.low

/-- What follows is in the encoder's range. -/
structure Ahead (e : Encoder pr) (s : Bytes) : Prop where
  long : 4 ≤ s.length
  above : e.low ≤ window s
  below : window s ≤ e.high

/-- The decoder that is where the encoder is, when `s` is what follows. -/
def Encoder.follower (e : Encoder pr) (s : Bytes) : Decoder pr := ⟨e.low, e.high, window s, e.state, s.drop 4⟩

variable {e : Encoder pr}

theorem mid_lt {low high p : Nat} (ordered : low < high) (probability : p < 65536) :
    low + (high - low) * p / 65536 < high := by
  have part : (high - low) * p / 65536 < high - low := by
    rw [Nat.div_lt_iff_lt_mul (by decide)]
    exact Nat.mul_lt_mul_of_pos_left probability (by omega)
  omega

theorem Apart.lt {low high : Nat} (apart : Apart low high) : low < high := by
  rcases Nat.lt_or_eq_of_le apart.ordered with less | rfl
  · exact less
  · exact absurd rfl apart.apart

/-- Takes a part of the range. -/
def Encoder.narrow (e : Encoder pr) (low high : Nat) : Encoder pr :=
  { e with low := (shift low high).2.1, high := (shift low high).2.2, out := e.out ++ (shift low high).1 }

theorem Between.unshifted {low high : Nat} (range : Between low high) (none : (shift low high).1 = []) :
    shift low high = ([], low, high) := by
  by_cases same : high / 16777216 = low / 16777216
  · rw [shift_of_same range same] at none
    exact absurd none (List.cons_ne_nil _ _)
  · exact shift_of_apart same

theorem emits_narrow {low high : Nat} (range : Between low high) (inner : e.low ≤ low ∧ high ≤ e.high) :
    Emits e (e.narrow low high) (shift low high).1 where
  out := rfl
  apart := range.shifted
  narrower none := by
    rw [Encoder.narrow, range.unshifted none]
    simp only
    omega

theorem decode_true {d d' : Decoder pr} {p : Nat} (inside : d.low ≤ d.curr ∧ d.curr ≤ d.high)
    (below : d.curr ≤ d.low + (d.high - d.low) * p / 65536)
    (shifts : Decoder.shift d.low (d.low + (d.high - d.low) * p / 65536) d.curr d.state d.input = .ok d') :
    d.decode p = .ok (true, d') := by
  rw [Decoder.decode, if_neg (by omega), if_pos below, shifts]
  rfl

theorem decode_false {d d' : Decoder pr} {p : Nat} (inside : d.low ≤ d.curr ∧ d.curr ≤ d.high)
    (above : d.low + (d.high - d.low) * p / 65536 < d.curr)
    (shifts : Decoder.shift (d.low + (d.high - d.low) * p / 65536 + 1) d.high d.curr d.state d.input = .ok d') :
    d.decode p = .ok (false, d') := by
  rw [Decoder.decode, if_neg (by omega), if_neg (by omega), shifts]
  rfl

/-- A bit is decoded as it was encoded, and the decoder is where the encoder is. -/
theorem decode_encode (apart : Apart e.low e.high) (y : Bool) {p : Nat} (probability : p < 65536) :
    ∃ bytes, Emits e (e.encode y p) bytes ∧
      (bytes = [] → y = false → (e.encode y p).high - (e.encode y p).low < e.high - e.low) ∧
      ∀ s, Ahead (e.encode y p) s → Ahead e (bytes ++ s) ∧
        (e.follower (bytes ++ s)).decode p = .ok (y, (e.encode y p).follower s) := by
  have middle := mid_lt apart.lt probability
  have small := apart.small
  have positive := apart.positive
  cases y with
  | true =>
    have range : Between e.low (e.low + (e.high - e.low) * p / 65536) := ⟨positive, by omega, by omega⟩
    refine ⟨_, emits_narrow range ⟨Nat.le_refl _, by omega⟩, by simp, fun s ⟨long, above, below⟩ => ?_⟩
    obtain ⟨lower, upper, follows⟩ := range.follows e.state long above below
    refine ⟨⟨by rw [List.length_append]; omega, lower, by omega⟩, decode_true ⟨lower, ?_⟩ upper follows⟩
    exact Nat.le_trans upper (Nat.le_of_lt middle)
  | false =>
    have range : Between (e.low + (e.high - e.low) * p / 65536 + 1) e.high := ⟨by omega, by omega, small⟩
    refine ⟨_, emits_narrow range ⟨by omega, Nat.le_refl _⟩, fun none _ => ?_, fun s ⟨long, above, below⟩ => ?_⟩
    · have unchanged : e.encode false p = e.narrow (e.low + (e.high - e.low) * p / 65536 + 1) e.high := rfl
      rw [unchanged, Encoder.narrow, range.unshifted none]
      simp only
      omega
    · obtain ⟨lower, upper, follows⟩ := range.follows e.state long above below
      refine ⟨⟨by rw [List.length_append]; omega, by omega, upper⟩, decode_false ⟨?_, upper⟩ lower follows⟩
      exact Nat.le_trans (Nat.le_trans (Nat.le_add_right _ _) (Nat.le_succ _)) lower

theorem Emits.trans {e' e'' : Encoder pr} {bytes bytes' : Bytes} (first : Emits e e' bytes) (second : Emits e' e'' bytes') :
    Emits e e'' (bytes ++ bytes') where
  out := by rw [second.out, first.out, List.append_assoc]
  apart := second.apart
  narrower none := by
    obtain ⟨here, there⟩ := List.append_eq_nil_iff.mp none
    exact Nat.le_trans (second.narrower there) (first.narrower here)

theorem probability_lt (state : pr.State) : (pr.predict state).val * 2 + 1 < 65536 := by
  have bits := (pr.predict state).isLt
  omega

theorem bits_succ (c n acc : Nat) :
    (acc + acc + (c.testBit n).toNat) * 2 ^ n + c % 2 ^ n = acc * 2 ^ (n + 1) + c % 2 ^ (n + 1) := by
  have split := Nat.mod_pow_succ (x := c) (b := 2) (k := n)
  have bit : (c.testBit n).toNat = c / 2 ^ n % 2 := by
    rw [Nat.testBit_eq_decide_div_mod_eq]
    rcases Nat.mod_two_eq_zero_or_one (c / 2 ^ n) with zero | one
    · simp [zero]
    · simp [one]
  rw [split, bit, Nat.pow_succ]
  ring

/-- The induction is on the bits, the highest first; the decoder shifts them into `acc`. -/
theorem decompressBits_compressBits (c : UInt8) (n : Nat) (apart : Apart e.low e.high) :
    ∃ bytes, Emits e (Encoder.compressBits c n e) bytes ∧
      ∀ s, Ahead (Encoder.compressBits c n e) s → Ahead e (bytes ++ s) ∧ ∀ acc,
        Decoder.decompressBits n acc (e.follower (bytes ++ s)) =
          .ok (acc * 2 ^ n + c.toNat % 2 ^ n, (Encoder.compressBits c n e).follower s) := by
  induction n generalizing e with
  | zero =>
    refine ⟨[], ⟨(List.append_nil _).symm, apart, fun _ => Nat.le_refl _⟩, fun s ahead => ⟨ahead, fun acc => ?_⟩⟩
    rw [Decoder.decompressBits, Nat.pow_zero, Nat.mul_one, Nat.mod_one]
    rfl
  | succ n ih =>
    obtain ⟨bytes, first, -, bit⟩ := decode_encode apart (c.toNat.testBit n) (probability_lt e.state)
    obtain ⟨later, rest, bits⟩ := @ih
      { e.encode (c.toNat.testBit n) ((pr.predict e.state).val * 2 + 1) with
        state := pr.update e.state (c.toNat.testBit n) } first.apart
    refine ⟨bytes ++ later, first.trans ⟨rest.out, rest.apart, rest.narrower⟩, fun s ahead => ?_⟩
    obtain ⟨ahead, bits⟩ := bits s ahead
    obtain ⟨ahead, bit⟩ := bit (later ++ s) ⟨ahead.long, ahead.above, ahead.below⟩
    rw [List.append_assoc]
    refine ⟨ahead, fun acc => ?_⟩
    have next := bits (acc + acc + (c.toNat.testBit n).toNat)
    rw [bits_succ] at next
    rw [Decoder.decompressBits]
    have state : (e.follower (bytes ++ (later ++ s))).state = e.state := rfl
    rw [state, bit]
    exact next

theorem decompress_of_pos (modeled : pr.isModeled = true) {d : Decoder pr} (some : d.curr ≠ 0) :
    d.decompress = do
      let (y, d) ← d.decode 0
      if y then
        if d.curr ≠ 0 then .error ⟨"decoding end of stream", d.input⟩ else return (none, d)
      else do
        let (c, d) ← d.decompressBits 8 1
        return (Option.some (c - 256).toUInt8, d) := by
  rw [Decoder.decompress, if_pos modeled]
  simp only [if_neg some]

theorem Ahead.pos {s : Bytes} (ahead : Ahead e s) (apart : Apart e.low e.high) : (e.follower s).curr ≠ 0 :=
  Nat.ne_of_gt (Nat.lt_of_lt_of_le apart.positive ahead.above)

/-- A byte is decoded as it was encoded. -/
theorem decompress_compress (modeled : pr.isModeled = true) (apart : Apart e.low e.high) (c : UInt8) :
    ∃ bytes, Emits e (e.compress (some c)) bytes ∧
      (bytes = [] → (e.compress (some c)).high - (e.compress (some c)).low < e.high - e.low) ∧
      ∀ s, Ahead (e.compress (some c)) s → Ahead e (bytes ++ s) ∧
        (e.follower (bytes ++ s)).decompress = .ok (some c, (e.compress (some c)).follower s) := by
  obtain ⟨bytes, first, less, flag⟩ := decode_encode apart false (p := 0) (by decide)
  obtain ⟨later, rest, bits⟩ := decompressBits_compressBits c 8 first.apart
  have whole : e.compress (some c) = Encoder.compressBits c 8 (e.encode false 0) := by
    rw [Encoder.compress, if_pos modeled]
  rw [whole]
  refine ⟨bytes ++ later, first.trans rest, fun none => ?_, fun s ahead => ?_⟩
  · obtain ⟨here, there⟩ := List.append_eq_nil_iff.mp none
    exact Nat.lt_of_le_of_lt (rest.narrower there) (less here rfl)
  · obtain ⟨ahead, bits⟩ := bits s ahead
    obtain ⟨ahead, flag⟩ := flag (later ++ s) ahead
    rw [List.append_assoc]
    refine ⟨ahead, ?_⟩
    have value : 1 * 2 ^ 8 + c.toNat % 2 ^ 8 - 256 = c.toNat := by
      have small := c.toNat_lt
      omega
    have byte : (1 * 2 ^ 8 + c.toNat % 2 ^ 8 - 256).toUInt8 = c := by
      rw [value]
      exact UInt8.ofNat_toNat
    rw [decompress_of_pos modeled (ahead.pos apart), flag]
    simp only [bind, Except.bind, Bool.false_eq_true, if_false, bits 1, byte]
    rfl

/-- The end of the stream takes the four bytes of the lower end, and the four zeros behind. -/
theorem decompress_end (modeled : pr.isModeled = true) (apart : Apart e.low e.high) :
    (e.compress none).out = e.out ++ bigEndian 4 e.low ∧ ∀ rest,
      Ahead e (bigEndian 4 e.low ++ [0, 0, 0, 0] ++ rest) ∧
        ∃ d, (e.follower (bigEndian 4 e.low ++ [0, 0, 0, 0] ++ rest)).decompress = .ok (none, d) ∧ d.input = rest := by
  have small := apart.small
  have positive := apart.positive
  have ordered := apart.ordered
  have point := shift_point positive (by omega)
  have mid : e.low + (e.high - e.low) * 0 / 65536 = e.low := by simp
  have range : Between e.low e.low := ⟨positive, Nat.le_refl _, by omega⟩
  refine ⟨?_, fun rest => ?_⟩
  · rw [Encoder.compress, if_pos modeled, Encoder.encode]
    simp only [mid, if_true, point]
  · rw [List.append_assoc]
    have value : window (bigEndian 4 e.low ++ ([0, 0, 0, 0] ++ rest)) = e.low := window_bigEndian (by omega) _
    have ahead : Ahead e (bigEndian 4 e.low ++ ([0, 0, 0, 0] ++ rest)) :=
      ⟨by rw [List.length_append, length_bigEndian]; omega, by omega, by omega⟩
    have takes := range.takes e.low e.state ([0, 0, 0, 0] ++ rest) (by rw [point, length_bigEndian]; simp)
    rw [point, length_bigEndian] at takes
    refine ⟨ahead, ⟨(shift e.low e.low).2.1, (shift e.low e.low).2.2, 0, e.state, rest⟩, ?_, rfl⟩
    have flag : (e.follower (bigEndian 4 e.low ++ ([0, 0, 0, 0] ++ rest))).decode 0 =
        .ok (true, ⟨(shift e.low e.low).2.1, (shift e.low e.low).2.2, 0, e.state, rest⟩) := by
      refine decode_true ⟨ahead.above, ahead.below⟩ ?_ ?_
      · simp only [Encoder.follower, value, mid]
        exact Nat.le_refl _
      · simp only [Encoder.follower, value, mid]
        have zeros : ([0, 0, 0, 0] : Bytes).foldl (fun curr c => curr * 256 % 4294967296 + c.toNat) e.low = 0 := by
          simp only [List.foldl_cons, List.foldl_nil, UInt8.toNat_zero]
          omega
        have front : ([0, 0, 0, 0] ++ rest : Bytes).take 4 = [0, 0, 0, 0] := rfl
        have behind : ([0, 0, 0, 0] ++ rest : Bytes).drop 4 = rest := rfl
        rw [List.drop_left' (length_bigEndian 4 e.low), takes, front, behind, zeros]
    rw [decompress_of_pos modeled (ahead.pos apart), flag]
    rfl

theorem decompressAll_none {d d' : Decoder pr} (ends : d.decompress = .ok (none, d')) :
    d.decompressAll = .ok ([], d') := by
  rw [Decoder.decompressAll, ends]

theorem decompressAll_some {d d' d'' : Decoder pr} {c : UInt8} {data : Bytes} (byte : d.decompress = .ok (some c, d'))
    (smaller : d'.input.length < d.input.length ∨ d'.input.length = d.input.length ∧ d'.high - d'.low < d.high - d.low)
    (rest : d'.decompressAll = .ok (data, d'')) : d.decompressAll = .ok (c :: data, d'') := by
  rw [Decoder.decompressAll, byte]
  simp only [if_pos smaller, rest]

/-- What was encoded from here on, with the four zeros behind it, is decoded. -/
theorem decompressAll_compress (modeled : pr.isModeled = true) (data : Bytes) (apart : Apart e.low e.high) :
    ∃ bytes, ((data.foldl (fun e c => e.compress (some c)) e).compress none).out = e.out ++ bytes ∧
      ∀ rest, Ahead e (bytes ++ [0, 0, 0, 0] ++ rest) ∧
        ∃ d, (e.follower (bytes ++ [0, 0, 0, 0] ++ rest)).decompressAll = .ok (data, d) ∧ d.input = rest := by
  induction data generalizing e with
  | nil =>
    obtain ⟨out, ends⟩ := decompress_end modeled apart
    refine ⟨_, out, fun rest => ?_⟩
    obtain ⟨ahead, d, done, input⟩ := ends rest
    exact ⟨ahead, d, decompressAll_none done, input⟩
  | cons c data ih =>
    obtain ⟨bytes, emits, less, byte⟩ := decompress_compress modeled apart c
    obtain ⟨later, out, ends⟩ := ih emits.apart
    refine ⟨bytes ++ later, ?_, fun rest => ?_⟩
    · rw [List.foldl_cons, out, emits.out, List.append_assoc]
    · obtain ⟨ahead, d, done, input⟩ := ends rest
      have long := ahead.long
      obtain ⟨before, byte⟩ := byte _ ahead
      rw [List.append_assoc, List.append_assoc, ← List.append_assoc later]
      refine ⟨before, d, decompressAll_some byte ?_ done, input⟩
      simp only [Encoder.follower, List.length_drop, List.length_append] at long ⊢
      rcases List.eq_nil_or_concat bytes with none | ⟨front, last, rfl⟩
      · have less := less none
        rw [none]
        right
        simp only [List.length_nil]
        omega
      · left
        simp only [List.concat_eq_append, List.length_append, List.length_singleton]
        omega

/-- A decoder that still has to take the first four bytes. -/
theorem decompressAll_longer {d d' : Decoder pr} (same : d.decompress = d'.decompress)
    (longer : d'.input.length < d.input.length) {data : Bytes} {d'' : Decoder pr}
    (result : d'.decompressAll = .ok (data, d'')) : d.decompressAll = .ok (data, d'') := by
  rw [Decoder.decompressAll] at result ⊢
  rw [same]
  cases first : d'.decompress with
  | error failure =>
    rw [first] at result
    exact result
  | ok byte =>
    rw [first] at result
    obtain ⟨c, next⟩ := byte
    cases c with
    | none => exact result
    | some c =>
      simp only at result ⊢
      split at result
      next smaller =>
        rw [if_pos (by omega)]
        exact result
      next => exact absurd result (by simp)

theorem fill_four (d : Decoder pr) {input : Bytes} (long : 4 ≤ input.length) :
    Decoder.fill 4 { d with curr := 0, input := input } = { d with curr := window input, input := input.drop 4 } := by
  obtain ⟨a, b, c, e, rest, rfl⟩ := exists_four long
  have first := a.toNat_lt
  have second := b.toNat_lt
  have third := c.toNat_lt
  simp only [Decoder.fill, window_four, List.drop_succ_cons, List.drop_zero, Decoder.mk.injEq, true_and, and_true]
  omega

theorem apart_start : Apart 1 0xFFFFFFFF := ⟨⟨by decide, by decide, by decide⟩, by decide⟩

theorem init_modeled (modeled : pr.isModeled = true) : (Encoder.init : Encoder pr) = ⟨1, 0xFFFFFFFF, pr.init, [], []⟩ := by
  rw [Encoder.init, if_pos modeled]

/-- The decoder takes the first four bytes before the first byte. -/
theorem decompress_init (modeled : pr.isModeled = true) {s : Bytes} (ahead : Ahead (Encoder.init : Encoder pr) s) :
    (Decoder.init s : Decoder pr).decompress = ((Encoder.init : Encoder pr).follower s).decompress := by
  have positive : ((Encoder.init : Encoder pr).follower s).curr ≠ 0 :=
    ahead.pos (by rw [init_modeled modeled]; exact apart_start)
  have filled : (Decoder.init s : Decoder pr).fill 4 = (Encoder.init : Encoder pr).follower s := by
    have four := fill_four (⟨1, 0xFFFFFFFF, 0, pr.init, []⟩ : Decoder pr) ahead.long
    rw [Decoder.init, if_pos modeled, init_modeled modeled]
    exact four
  have start : (Decoder.init s : Decoder pr).curr = 0 := by rw [Decoder.init, if_pos modeled]
  rw [decompress_of_pos modeled positive, Decoder.decompress, if_pos modeled]
  simp only [if_pos start, filled]

/-- Every stream of bytes is decoded as it was encoded, and what is behind is left. -/
theorem decompressAll_modeled (modeled : pr.isModeled = true) (data rest : Bytes) :
    ∃ d, (Decoder.init (coded pr data ++ [0, 0, 0, 0] ++ rest) : Decoder pr).decompressAll = .ok (data, d) ∧
      d.input = rest := by
  have start : Apart (Encoder.init : Encoder pr).low (Encoder.init : Encoder pr).high := by
    rw [init_modeled modeled]
    exact apart_start
  obtain ⟨bytes, out, ends⟩ := decompressAll_compress modeled data start
  obtain ⟨ahead, d, done, input⟩ := ends rest
  have all : coded pr data = bytes := by
    rw [coded, out, init_modeled modeled]
    rfl
  rw [← all] at ahead done
  have long := ahead.long
  refine ⟨d, decompressAll_longer (decompress_init modeled ahead) ?_ done, input⟩
  rw [Decoder.init, if_pos modeled, Encoder.follower, List.length_drop]
  simp only
  omega

end

end BackupSuite.Zpaq.Coder
