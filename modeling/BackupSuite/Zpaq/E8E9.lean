import Mathlib
import BackupSuite.CtrlCenter.ParseBuffer

/-! # The filter for x86 code

`e8e9` makes the addresses of calls and jumps absolute before the data goes to the coder. The loop goes
backward, and the decoder takes it back with a program for the ZPAQL machine that is stored with the data
and sees the bytes forward, one at a time. What comes out of the program is what went into
`e8e9` (`pcompSegments_e8e9`).

Each step of the loop changes neither of the bytes that it tests. So the steps can be taken back one by one,
the last step first, and that is the order in which the program comes to them.
-/

namespace BackupSuite.Zpaq.E8E9

open BackupSuite.CtrlCenter

/-! ## The loop -/

/-- `buf[i+1]|buf[i+2]<<8|buf[i+3]<<16` -/
def middle (b1 b2 b3 : UInt8) : UInt32 := b1.toUInt32 ||| b2.toUInt32 <<< 8 ||| b3.toUInt32 <<< 16

/-- E8 or E9, and 00 or FF four bytes on -/
def isCall (b0 b4 : UInt8) : Bool := b0 &&& 254 == 232 && (b4.toUInt32 + 1) &&& 254 == 0

/-- The body of the loop, on what there is from `i` on. -/
def e8e9At (i : Nat) : Bytes → Bytes
  | b0 :: b1 :: b2 :: b3 :: b4 :: buf =>
    if isCall b0 b4 then
      let a := middle b1 b2 b3 + UInt32.ofNat i
      b0 :: a.toUInt8 :: (a >>> 8).toUInt8 :: (a >>> 16).toUInt8 :: b4 :: buf
    else b0 :: b1 :: b2 :: b3 :: b4 :: buf
  | buf => buf

/-- The number is how many `i` are left, and the greatest of them comes first. -/
def e8e9Loop : Nat → Bytes → Bytes
  | 0, buf => buf
  | i + 1, buf => e8e9Loop i (buf.take i ++ e8e9At i (buf.drop i))

def e8e9 (buf : Bytes) : Bytes := e8e9Loop (buf.length - 4) buf

/-! ## The program that takes it back -/

/-- Registers of the program `pcomp e8e9` that last from one byte to the next; `m` is the only byte of `M`. -/
structure Registers where
  b : UInt32
  c : UInt32
  m : UInt8
deriving DecidableEq, Repr

/-- `do a=c a> 0 if a=b out a>>= 8 b=a c-- forever endif`, which leaves `b` shifted. -/
def outLoop (b : UInt32) : Nat → UInt32 × Bytes
  | 0 => (b, [])
  | c + 1 =>
    let (b', out) := outLoop (b >>> 8) c
    (b', b.toUInt8 :: out)

/-- At the end of the data -/
def pcompEnd (r : Registers) : Registers × Bytes :=
  let (b, c) := if 4 < r.c then (r.b, (4 : UInt32)) else (r.b >>> ((~~~r.c + 5) <<< 3), r.c)
  let (b, out) := outLoop b c.toNat
  (⟨b, 0, r.m⟩, out)

/-- For a byte of the data -/
def pcompByte (r : Registers) (a : UInt8) : Registers × Bytes :=
  let m := r.b.toUInt8
  let b := (r.b >>> 8) + (a.toUInt32 <<< 24)
  let c := r.c + 1
  if 4 < c then
    if m &&& 254 = 232 ∧ ((b >>> 24) + 1) &&& 254 = 0 then
      let d := (b >>> 24) <<< 24
      (⟨(((b - c + 5) <<< 8) >>> 8) ||| d, c, m⟩, [m])
    else (⟨b, c, m⟩, [m])
  else (⟨b, c, m⟩, [])

/-- What the program puts out for the data of a segment. -/
def pcomp (r : Registers) : Bytes → Registers × Bytes
  | [] => pcompEnd r
  | a :: buf =>
    let (r, out) := pcompByte r a
    let (r, more) := pcomp r buf
    (r, out ++ more)

/-- The segments of a block; the registers are left as they are between them. -/
def pcompSegments (r : Registers) : List Bytes → List Bytes
  | [] => []
  | buf :: segments =>
    let (r, out) := pcomp r buf
    out :: pcompSegments r segments

/-! ## Words and bytes -/

theorem or_eq_add {high low k : Nat} (less : low < 2 ^ k) : low ||| high * 2 ^ k = low + high * 2 ^ k := by
  rw [Nat.or_comm, Nat.mul_comm, ← Nat.two_pow_add_eq_or_of_lt less, Nat.add_comm]

theorem toNat_middle (b1 b2 b3 : UInt8) :
    (middle b1 b2 b3).toNat = b1.toNat + b2.toNat * 2 ^ 8 + b3.toNat * 2 ^ 16 := by
  have first := b1.toNat_lt
  have second := b2.toNat_lt
  have third := b3.toNat_lt
  have shift8 : (b2.toUInt32 <<< 8).toNat = b2.toNat * 2 ^ 8 := by
    rw [UInt32.toNat_shiftLeft, UInt8.toNat_toUInt32, Nat.shiftLeft_eq]
    exact Nat.mod_eq_of_lt (by simp; omega)
  have shift16 : (b3.toUInt32 <<< 16).toNat = b3.toNat * 2 ^ 16 := by
    rw [UInt32.toNat_shiftLeft, UInt8.toNat_toUInt32, Nat.shiftLeft_eq]
    exact Nat.mod_eq_of_lt (by simp; omega)
  rw [middle, UInt32.toNat_or, UInt32.toNat_or, shift8, shift16, UInt8.toNat_toUInt32, or_eq_add (k := 8) first,
    or_eq_add (k := 16) (by omega)]

theorem toNat_shiftRight8 (a : UInt32) : (a >>> 8).toNat = a.toNat / 256 := by
  rw [UInt32.toNat_shiftRight]
  exact Nat.shiftRight_eq_div_pow a.toNat 8

theorem toNat_shiftRight16 (a : UInt32) : (a >>> 16).toNat = a.toNat / 65536 := by
  rw [UInt32.toNat_shiftRight]
  exact Nat.shiftRight_eq_div_pow a.toNat 16

theorem toNat_shiftRight24 (a : UInt32) : (a >>> 24).toNat = a.toNat / 16777216 := by
  rw [UInt32.toNat_shiftRight]
  exact Nat.shiftRight_eq_div_pow a.toNat 24

/-! ## One step taken back -/

/-- The step at `i` taken back. -/
def undoAt (i : Nat) : Bytes → Bytes
  | b0 :: b1 :: b2 :: b3 :: b4 :: buf =>
    if isCall b0 b4 then
      let a := middle b1 b2 b3 - UInt32.ofNat i
      b0 :: a.toUInt8 :: (a >>> 8).toUInt8 :: (a >>> 16).toUInt8 :: b4 :: buf
    else b0 :: b1 :: b2 :: b3 :: b4 :: buf
  | buf => buf

/-- Only the low 24 bits of `a` are kept, and more does not matter to the bytes that come back. -/
theorem middle_sub_add (b1 b2 b3 : UInt8) (i : UInt32) :
    let a := middle b1 b2 b3 + i
    let v := middle a.toUInt8 (a >>> 8).toUInt8 (a >>> 16).toUInt8 - i
    v.toUInt8 = b1 ∧ (v >>> 8).toUInt8 = b2 ∧ (v >>> 16).toUInt8 = b3 := by
  intro a v
  have first := b1.toNat_lt
  have second := b2.toNat_lt
  have third := b3.toNat_lt
  have below := i.toNat_lt
  have sum : a.toNat = (b1.toNat + b2.toNat * 2 ^ 8 + b3.toNat * 2 ^ 16 + i.toNat) % 2 ^ 32 := by
    rw [UInt32.toNat_add, toNat_middle]
  have kept : (middle a.toUInt8 (a >>> 8).toUInt8 (a >>> 16).toUInt8).toNat = a.toNat % 2 ^ 24 := by
    rw [toNat_middle, UInt32.toNat_toUInt8, UInt32.toNat_toUInt8, UInt32.toNat_toUInt8, toNat_shiftRight8, toNat_shiftRight16]
    omega
  have difference : v.toNat = (2 ^ 32 - i.toNat + a.toNat % 2 ^ 24) % 2 ^ 32 := by
    rw [UInt32.toNat_sub, kept]
  refine ⟨UInt8.toNat_inj.mp ?_, UInt8.toNat_inj.mp ?_, UInt8.toNat_inj.mp ?_⟩
  · rw [UInt32.toNat_toUInt8]
    omega
  · rw [UInt32.toNat_toUInt8, toNat_shiftRight8]
    omega
  · rw [UInt32.toNat_toUInt8, toNat_shiftRight16]
    omega

theorem undoAt_e8e9At (i : Nat) (buf : Bytes) : undoAt i (e8e9At i buf) = buf := by
  match buf with
  | b0 :: b1 :: b2 :: b3 :: b4 :: buf =>
    rw [e8e9At]
    split
    next call =>
      obtain ⟨first, second, third⟩ := middle_sub_add b1 b2 b3 (UInt32.ofNat i)
      dsimp only
      rw [undoAt, if_pos call]
      dsimp only
      rw [first, second, third]
    next other => rw [undoAt, if_neg other]
  | [] | [_] | [_, _] | [_, _, _] | [_, _, _, _] => rfl

theorem length_undoAt (i : Nat) (buf : Bytes) : (undoAt i buf).length = buf.length := by
  match buf with
  | b0 :: b1 :: b2 :: b3 :: b4 :: buf =>
    rw [undoAt]
    split <;> rfl
  | [] | [_] | [_, _] | [_, _, _] | [_, _, _, _] => rfl

/-! ## All steps taken back -/

/-- All the steps, the last one first. -/
def allSteps (i : Nat) : Bytes → Bytes
  | [] => []
  | b :: buf => e8e9At i (b :: allSteps (i + 1) buf)

theorem length_e8e9At (i : Nat) (buf : Bytes) : (e8e9At i buf).length = buf.length := by
  match buf with
  | b0 :: b1 :: b2 :: b3 :: b4 :: buf =>
    rw [e8e9At]
    split <;> rfl
  | [] | [_] | [_, _] | [_, _, _] | [_, _, _, _] => rfl

theorem e8e9At_short {i : Nat} {buf : Bytes} (short : buf.length ≤ 4) : e8e9At i buf = buf := by
  match buf with
  | _ :: _ :: _ :: _ :: _ :: buf =>
    simp only [List.length_cons] at short
    omega
  | [] | [_] | [_, _] | [_, _, _] | [_, _, _, _] => rfl

theorem length_allSteps (i : Nat) (buf : Bytes) : (allSteps i buf).length = buf.length := by
  induction buf generalizing i with
  | nil => rfl
  | cons b buf ih => rw [allSteps, length_e8e9At, List.length_cons, List.length_cons, ih]

theorem allSteps_short {i : Nat} {buf : Bytes} (short : buf.length ≤ 4) : allSteps i buf = buf := by
  induction buf generalizing i with
  | nil => rfl
  | cons b buf ih =>
    rw [List.length_cons] at short
    rw [allSteps, ih (by omega)]
    exact e8e9At_short short

/-- The induction is on the part that the loop has not come to. -/
theorem e8e9Loop_append (front buf : Bytes) :
    e8e9Loop front.length (front ++ allSteps front.length buf) = allSteps 0 (front ++ buf) := by
  induction front using List.reverseRecOn generalizing buf with
  | nil => rfl
  | append_singleton front b ih =>
    have next := ih (b :: buf)
    rw [List.length_append, List.length_singleton, e8e9Loop, List.append_assoc, List.append_assoc, List.take_left,
      List.drop_left]
    exact next

theorem e8e9_eq (buf : Bytes) : e8e9 buf = allSteps 0 buf := by
  have short : (buf.drop (buf.length - 4)).length ≤ 4 := by
    rw [List.length_drop]
    omega
  have length : (buf.take (buf.length - 4)).length = buf.length - 4 := by
    rw [List.length_take]
    omega
  have loop := e8e9Loop_append (buf.take (buf.length - 4)) (buf.drop (buf.length - 4))
  rwa [allSteps_short short, List.take_append_drop, length] at loop

/-- All the steps taken back, the first one first. -/
def undoSteps (i : Nat) (buf : Bytes) : Bytes :=
  match here : undoAt i buf with
  | [] => []
  | b :: rest =>
    have : rest.length < buf.length := by
      have length := length_undoAt i buf
      rw [here, List.length_cons] at length
      omega
    b :: undoSteps (i + 1) rest
termination_by buf.length

theorem undoSteps_cons {i : Nat} {buf : Bytes} {b : UInt8} {rest : Bytes} (here : undoAt i buf = b :: rest) :
    undoSteps i buf = b :: undoSteps (i + 1) rest := by
  rw [undoSteps]
  split
  next empty =>
    rw [here] at empty
    cases empty
  next first last same =>
    rw [here] at same
    cases same
    rfl

theorem undoSteps_allSteps (i : Nat) (buf : Bytes) : undoSteps i (allSteps i buf) = buf := by
  induction buf generalizing i with
  | nil =>
    rw [allSteps, undoSteps]
    rfl
  | cons b buf ih =>
    have here : undoAt i (allSteps i (b :: buf)) = b :: allSteps (i + 1) buf := undoAt_e8e9At i _
    rw [undoSteps_cons here, ih]

theorem undoSteps_short {i : Nat} {buf : Bytes} (short : buf.length ≤ 4) : undoSteps i buf = buf := by
  have same := undoSteps_allSteps i buf
  rwa [allSteps_short short] at same

/-! ## The window of the program -/

/-- The last four bytes are in `b`, the first of them the lowest. -/
def Window (b : UInt32) (b1 b2 b3 b4 : UInt8) : Prop :=
  b.toNat = b1.toNat + b2.toNat * 2 ^ 8 + b3.toNat * 2 ^ 16 + b4.toNat * 2 ^ 24

theorem toNat_push (b : UInt32) (a : UInt8) :
    ((b >>> 8) + (a.toUInt32 <<< 24)).toNat = b.toNat / 256 + a.toNat * 2 ^ 24 := by
  have byte := a.toNat_lt
  have word := b.toNat_lt
  rw [UInt32.toNat_add, toNat_shiftRight8, UInt32.toNat_shiftLeft, UInt8.toNat_toUInt32, Nat.shiftLeft_eq]
  have places : (24 : UInt32).toNat % 32 = 24 := rfl
  rw [places]
  omega

namespace Window

variable {b : UInt32} {b1 b2 b3 b4 : UInt8}

theorem low (window : Window b b1 b2 b3 b4) : b.toUInt8 = b1 := by
  have first := b1.toNat_lt
  refine UInt8.toNat_inj.mp ?_
  rw [UInt32.toNat_toUInt8, window]
  omega

theorem top (window : Window b b1 b2 b3 b4) : b >>> 24 = b4.toUInt32 := by
  have first := b1.toNat_lt
  have second := b2.toNat_lt
  have third := b3.toNat_lt
  refine UInt32.toNat_inj.mp ?_
  rw [toNat_shiftRight24, window, UInt8.toNat_toUInt32]
  omega

theorem push (window : Window b b1 b2 b3 b4) (a : UInt8) :
    Window ((b >>> 8) + (a.toUInt32 <<< 24)) b2 b3 b4 a := by
  have first := b1.toNat_lt
  rw [Window, toNat_push, window]
  omega

theorem undo (window : Window b b1 b2 b3 b4) (i : UInt32) :
    let v := middle b1 b2 b3 - i
    Window ((((b - i) <<< 8) >>> 8) ||| ((b >>> 24) <<< 24)) v.toUInt8 (v >>> 8).toUInt8 (v >>> 16).toUInt8 b4 := by
  intro v
  have first := b1.toNat_lt
  have second := b2.toNat_lt
  have third := b3.toNat_lt
  have fourth := b4.toNat_lt
  have below := i.toNat_lt
  have difference : v.toNat = (2 ^ 32 - i.toNat + (b1.toNat + b2.toNat * 2 ^ 8 + b3.toNat * 2 ^ 16)) % 2 ^ 32 := by
    rw [UInt32.toNat_sub, toNat_middle]
  have low : (((b - i) <<< 8) >>> 8).toNat = (b - i).toNat % 2 ^ 24 := by
    rw [toNat_shiftRight8, UInt32.toNat_shiftLeft, Nat.shiftLeft_eq]
    have places : (8 : UInt32).toNat % 32 = 8 := rfl
    rw [places]
    omega
  have high : ((b >>> 24) <<< 24).toNat = b4.toNat * 2 ^ 24 := by
    rw [window.top, UInt32.toNat_shiftLeft, UInt8.toNat_toUInt32, Nat.shiftLeft_eq]
    have places : (24 : UInt32).toNat % 32 = 24 := rfl
    rw [places]
    omega
  have whole : (b - i).toNat = (2 ^ 32 - i.toNat + b.toNat) % 2 ^ 32 := UInt32.toNat_sub b i
  rw [Window, UInt32.toNat_or, low, high, or_eq_add (k := 24) (Nat.mod_lt _ (by decide)), whole, window, UInt32.toNat_toUInt8,
    UInt32.toNat_toUInt8, UInt32.toNat_toUInt8, toNat_shiftRight8, toNat_shiftRight16, difference]
  omega

theorem shift (window : Window b b1 b2 b3 b4) : Window (b >>> 8) b2 b3 b4 0 := by
  have first := b1.toNat_lt
  have zero : (0 : UInt8).toNat = 0 := rfl
  rw [Window, toNat_shiftRight8, window, zero]
  omega

theorem out (window : Window b b1 b2 b3 b4) {k : Nat} (few : k ≤ 4) :
    (outLoop b k).2 = [b1, b2, b3, b4].take k := by
  match k with
  | 0 => rfl
  | 1 => simp only [outLoop, window.low, List.take]
  | 2 => simp only [outLoop, window.low, window.shift.low, List.take]
  | 3 => simp only [outLoop, window.low, window.shift.low, window.shift.shift.low, List.take]
  | 4 => simp only [outLoop, window.low, window.shift.low, window.shift.shift.low, window.shift.shift.shift.low, List.take]

end Window

theorem pcompEnd_window {r : Registers} {b1 b2 b3 b4 : UInt8} (window : Window r.b b1 b2 b3 b4)
    (full : 4 ≤ r.c.toNat) : (pcompEnd r).1.c = 0 ∧ (pcompEnd r).2 = [b1, b2, b3, b4] := by
  refine ⟨rfl, ?_⟩
  by_cases more : 4 < r.c
  · simp only [pcompEnd, if_pos more]
    exact window.out (Nat.le_refl 4)
  · have four : r.c = 4 := by
      refine UInt32.toNat_inj.mp ?_
      have atMost : ¬ 4 < r.c.toNat := fun less => more (UInt32.lt_iff_toNat_lt.mpr less)
      exact Nat.le_antisymm (Nat.le_of_not_lt atMost) full
    have shift : r.b >>> ((~~~(4 : UInt32) + 5) <<< 3) = r.b := by
      refine UInt32.toNat_inj.mp ?_
      rw [UInt32.toNat_shiftRight]
      rfl
    simp only [pcompEnd, four, shift]
    exact window.out (Nat.le_refl 4)

/-- `a=b a-=c a+= 5` -/
theorem sub_add_five {b c : UInt32} {i : Nat} (count : c.toNat = i + 5) : b - c + 5 = b - UInt32.ofNat i := by
  have word := c.toNat_lt
  have five : (5 : UInt32).toNat = 5 := rfl
  have number : (UInt32.ofNat i).toNat = i := by
    rw [UInt32.toNat_ofNat']
    exact Nat.mod_eq_of_lt (by omega)
  refine UInt32.toNat_inj.mp ?_
  rw [UInt32.toNat_add, UInt32.toNat_sub, UInt32.toNat_sub, count, five, number]
  omega

/-- The fifth byte of a window: what comes out is its first byte, and what is left has been taken back. -/
theorem pcompByte_window {r : Registers} {i : Nat} {b1 b2 b3 b4 : UInt8} (window : Window r.b b1 b2 b3 b4)
    (count : r.c.toNat = i + 4) (fits : i + 5 < 2 ^ 32) (a : UInt8) (buf : Bytes) :
    ∃ b2' b3' b4', undoAt i (b1 :: b2 :: b3 :: b4 :: a :: buf) = b1 :: b2' :: b3' :: b4' :: a :: buf ∧
      (pcompByte r a).2 = [b1] ∧ Window (pcompByte r a).1.b b2' b3' b4' a ∧ (pcompByte r a).1.c.toNat = i + 5 := by
  have one : (1 : UInt32).toNat = 1 := rfl
  have next : (r.c + 1).toNat = i + 5 := by
    rw [UInt32.toNat_add, count, one]
    exact Nat.mod_eq_of_lt fits
  have past : 4 < r.c + 1 := by
    refine UInt32.lt_iff_toNat_lt.mpr ?_
    rw [next]
    exact Nat.lt_add_of_pos_left (Nat.succ_pos i)
  have pushed := window.push a
  have same : (b1 &&& 254 = 232 ∧ ((((r.b >>> 8) + (a.toUInt32 <<< 24)) >>> 24) + 1) &&& 254 = 0) ↔
      isCall b1 a = true := by
    rw [pushed.top, isCall, Bool.and_eq_true, beq_iff_eq, beq_iff_eq]
  by_cases call : isCall b1 a = true
  · have undone := pushed.undo (UInt32.ofNat i)
    rw [← sub_add_five next] at undone
    rw [undoAt, if_pos call]
    refine ⟨_, _, _, rfl, ?_⟩
    simp only [pcompByte, if_pos past, window.low, if_pos (same.mpr call)]
    rw [sub_add_five next] at undone ⊢
    exact ⟨trivial, undone, next⟩
  · rw [undoAt, if_neg call]
    refine ⟨_, _, _, rfl, ?_⟩
    simp only [pcompByte, if_pos past, window.low, if_neg (same.not.mpr call)]
    exact ⟨trivial, pushed, next⟩

theorem pcomp_cons (r : Registers) (a : UInt8) (buf : Bytes) :
    pcomp r (a :: buf) = ((pcomp (pcompByte r a).1 buf).1, (pcompByte r a).2 ++ (pcomp (pcompByte r a).1 buf).2) := rfl

/-- From the fifth byte on the output is four bytes behind; the induction is on the data. -/
theorem pcomp_window {buf : Bytes} {i : Nat} {r : Registers} {b1 b2 b3 b4 : UInt8} (window : Window r.b b1 b2 b3 b4)
    (count : r.c.toNat = i + 4) (fits : i + 4 + buf.length < 2 ^ 32) :
    (pcomp r buf).1.c = 0 ∧ (pcomp r buf).2 = undoSteps i (b1 :: b2 :: b3 :: b4 :: buf) := by
  induction buf generalizing i r b1 b2 b3 b4 with
  | nil =>
    rw [pcomp, undoSteps_short (Nat.le_refl _)]
    exact pcompEnd_window window (by omega)
  | cons a buf ih =>
    rw [List.length_cons] at fits
    obtain ⟨b2', b3', b4', undone, out, window', count'⟩ := pcompByte_window window count (by omega) a buf
    obtain ⟨ended, rest⟩ := ih (i := i + 1) window' (by omega) (by omega)
    rw [undoSteps_cons undone, ← rest, pcomp_cons, out]
    exact ⟨ended, rfl⟩

/-- Before the fifth byte nothing comes out. -/
theorem pcomp_early {b c : UInt32} {m : UInt8} (early : ¬ 4 < c + 1) (a : UInt8) (buf : Bytes) :
    pcomp ⟨b, c, m⟩ (a :: buf) = pcomp ⟨(b >>> 8) + (a.toUInt32 <<< 24), c + 1, b.toUInt8⟩ buf := by
  have stays : pcompByte ⟨b, c, m⟩ a = (⟨(b >>> 8) + (a.toUInt32 <<< 24), c + 1, b.toUInt8⟩, []) := by
    simp only [pcompByte, if_neg early]
  rw [pcomp_cons, stays, List.nil_append]

theorem pcompEnd_early {b c s : UInt32} {m b1 b2 b3 b4 : UInt8} (early : ¬ 4 < c) (amount : (~~~c + 5) <<< 3 = s)
    (window : Window (b >>> s) b1 b2 b3 b4) : (pcompEnd ⟨b, c, m⟩).2 = [b1, b2, b3, b4].take c.toNat := by
  have few : c.toNat ≤ 4 := Nat.le_of_not_lt fun less => early (UInt32.lt_iff_toNat_lt.mpr less)
  simp only [pcompEnd, if_neg early, amount]
  exact window.out few

theorem pcomp_undoSteps {b : UInt32} {m : UInt8} {buf : Bytes} (fits : buf.length < 2 ^ 32) :
    (pcomp ⟨b, 0, m⟩ buf).1.c = 0 ∧ (pcomp ⟨b, 0, m⟩ buf).2 = undoSteps 0 buf := by
  have word := b.toNat_lt
  have zero : (0 : UInt8).toNat = 0 := rfl
  match buf with
  | [] =>
    rw [undoSteps_short (Nat.zero_le _)]
    exact ⟨rfl, rfl⟩
  | [b1] =>
    have first : Window ((b >>> 8 + b1.toUInt32 <<< 24) >>> 24) b1 0 0 0 := by
      rw [Window, toNat_shiftRight24, toNat_push, zero]
      omega
    rw [undoSteps_short (by simp), pcomp_early (by decide), pcomp]
    refine ⟨rfl, ?_⟩
    exact pcompEnd_early (c := 1) (by decide) rfl first
  | [b1, b2] =>
    have first : Window (((b >>> 8 + b1.toUInt32 <<< 24) >>> 8 + b2.toUInt32 <<< 24) >>> 16) b1 b2 0 0 := by
      rw [Window, toNat_shiftRight16]
      simp only [toNat_push, zero]
      omega
    rw [undoSteps_short (Nat.le_of_ble_eq_true rfl), pcomp_early (by decide), pcomp_early (by decide), pcomp]
    refine ⟨rfl, ?_⟩
    exact pcompEnd_early (c := 2) (by decide) rfl first
  | [b1, b2, b3] =>
    have first : Window ((((b >>> 8 + b1.toUInt32 <<< 24) >>> 8 + b2.toUInt32 <<< 24) >>> 8 + b3.toUInt32 <<< 24) >>> 8)
        b1 b2 b3 0 := by
      rw [Window, toNat_shiftRight8]
      simp only [toNat_push, zero]
      omega
    rw [undoSteps_short (Nat.le_of_ble_eq_true rfl), pcomp_early (by decide), pcomp_early (by decide),
      pcomp_early (by decide), pcomp]
    refine ⟨rfl, ?_⟩
    exact pcompEnd_early (c := 3) (by decide) rfl first
  | b1 :: b2 :: b3 :: b4 :: buf =>
    have window : Window ((((b >>> 8 + b1.toUInt32 <<< 24) >>> 8 + b2.toUInt32 <<< 24) >>> 8 + b3.toUInt32 <<< 24) >>> 8 +
        b4.toUInt32 <<< 24) b1 b2 b3 b4 := by
      rw [Window]
      simp only [toNat_push]
      omega
    simp only [List.length_cons] at fits
    rw [pcomp_early (by decide), pcomp_early (by decide), pcomp_early (by decide), pcomp_early (by decide)]
    exact pcomp_window (i := 0) window rfl (by omega)

theorem pcomp_e8e9 {r : Registers} (start : r.c = 0) {buf : Bytes} (fits : buf.length < 2 ^ 31) :
    (pcomp r (e8e9 buf)).1.c = 0 ∧ (pcomp r (e8e9 buf)).2 = buf := by
  cases r with
  | mk b c m =>
    obtain rfl : c = 0 := start
    have length : (allSteps 0 buf).length < 2 ^ 32 := by
      rw [length_allSteps]
      omega
    rw [e8e9_eq]
    obtain ⟨ended, out⟩ := pcomp_undoSteps (b := b) (m := m) length
    exact ⟨ended, out.trans (undoSteps_allSteps 0 buf)⟩

/-- The length of a segment is an `int`; what is left in `b` and `m` does not matter. -/
theorem pcompSegments_e8e9 {r : Registers} (start : r.c = 0) {segments : List Bytes}
    (fits : ∀ buf ∈ segments, buf.length < 2 ^ 31) : pcompSegments r (segments.map e8e9) = segments := by
  induction segments generalizing r with
  | nil => rfl
  | cons buf segments ih =>
    obtain ⟨ended, out⟩ := pcomp_e8e9 start (fits buf List.mem_cons_self)
    have rest := ih ended fun buf mem => fits buf (List.mem_cons_of_mem _ mem)
    have step : pcompSegments r (e8e9 buf :: segments.map e8e9) =
        (pcomp r (e8e9 buf)).2 :: pcompSegments (pcomp r (e8e9 buf)).1 (segments.map e8e9) := rfl
    rw [List.map_cons, step, out, rest]

/-- A call in 6 bytes, then 3 bytes. -/
theorem pcompSegments_e8e9_call :
    pcompSegments ⟨0, 0, 0⟩ ([[144, 232, 1, 2, 3, 0], [7, 8, 9]].map e8e9) = [[144, 232, 1, 2, 3, 0], [7, 8, 9]] :=
  pcompSegments_e8e9 rfl (by decide)

end BackupSuite.Zpaq.E8E9
