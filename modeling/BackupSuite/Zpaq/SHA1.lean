import Mathlib.Data.List.Basic
import Mathlib.Tactic.Ring
import BackupSuite.CtrlCenter.ParseBuffer

/-! # The hash of a fragment

`add` hashes a fragment byte by byte, and what is extracted is hashed in pieces of a buffer,
where `write` takes whole blocks at once.  Both come to the same hash, however the pieces
are cut (`write_eq`, `write_append`).
-/

namespace BackupSuite.Zpaq

open BackupSuite.CtrlCenter

structure SHA1 where
  /-- length in bits -/
  len : Nat
  h : Vector UInt32 5
  w : Vector UInt32 16
  bits : len % 8 = 0 ∧ len < 18446744073709551616
deriving DecidableEq, Repr

namespace SHA1

def init : SHA1 := ⟨0, #v[0x67452301, 0xEFCDAB89, 0x98BADCFE, 0x10325476, 0xC3D2E1F0], .replicate 16 0, by decide⟩

theorem add_bits (s : SHA1) {n : Nat} (bytes : n % 8 = 0) :
    (s.len + n) % 18446744073709551616 % 8 = 0 ∧ (s.len + n) % 18446744073709551616 < 18446744073709551616 := by
  have bits := s.bits
  omega

def rotate (x n : UInt32) : UInt32 := x <<< n ||| x >>> (32 - n)

def slot (i : Nat) : Fin 16 := Fin.ofNat 16 i

/-- One of the 80 rounds, on `a` to `e` and the input. -/
def round (h : Vector UInt32 5) (w : Vector UInt32 16) (i : Nat) : Vector UInt32 5 × Vector UInt32 16 :=
  let w := if 16 ≤ i then
      w.set (slot i).val (rotate (w[slot i] ^^^ (w[slot (i - 3)] ^^^ w[slot (i - 8)] ^^^ w[slot (i - 14)])) 1) (slot i).isLt
    else w
  let k : UInt32 := [0x5A827999, 0x6ED9EBA1, 0x8F1BBCDC, 0xCA62C1D6].getD (i / 20) 0
  let f := if 20 ≤ i % 40 then h[1] ^^^ h[2] ^^^ h[3]
    else if 40 ≤ i then (h[1] &&& h[2]) ||| (h[3] &&& (h[1] ||| h[2]))
    else h[3] ^^^ (h[1] &&& (h[2] ^^^ h[3]))
  (#v[h[4] + (rotate h[0] 5 + k + w[slot i] + f), h[0], rotate h[1] 30, h[2], h[3]], w)

/-- Hashes 1 block of 64 bytes. -/
def process (s : SHA1) : SHA1 :=
  let rounds := (List.range 80).foldl (fun r i => round r.1 r.2 i) (s.h, s.w)
  { s with h := Vector.zipWith (· + ·) s.h rounds.1, w := rounds.2 }

/-- Hashes 1 byte. -/
def put (s : SHA1) (c : UInt8) : SHA1 :=
  let i := slot (s.len / 32)
  let s : SHA1 := { s with
    w := s.w.set i.val (s.w[i] <<< 8 ||| c.toUInt32) i.isLt
    len := (s.len + 8) % 18446744073709551616
    bits := s.add_bits (by decide) }
  if s.len % 512 = 0 then s.process else s

/-- `p[0]<<24|p[1]<<16|p[2]<<8|p[3]` -/
def word (p : Bytes) : UInt32 :=
  (p.getD 0 0).toUInt32 <<< 24 ||| (p.getD 1 0).toUInt32 <<< 16 ||| (p.getD 2 0).toUInt32 <<< 8 ||| (p.getD 3 0).toUInt32

/-- Byte by byte up to the next block. -/
def writeFront (s : SHA1) : Bytes → SHA1 × Bytes
  | [] => (s, [])
  | c :: p => if s.len % 512 ≠ 0 then writeFront (s.put c) p else (s, c :: p)

/-- Whole blocks. -/
def writeBlocks (s : SHA1) (p : Bytes) : SHA1 × Bytes :=
  if 64 ≤ p.length then
    writeBlocks
      (process { s with
        w := .ofFn fun i => word (p.drop (4 * i))
        len := (s.len + 512) % 18446744073709551616
        bits := s.add_bits (by decide) }) (p.drop 64)
  else (s, p)
termination_by p.length
decreasing_by
  rw [List.length_drop]
  omega

/-- Hashes `buf[0..n-1]`. -/
def write (s : SHA1) (buf : Bytes) : SHA1 :=
  let front := s.writeFront buf
  let blocks := front.1.writeBlocks front.2
  blocks.2.foldl put blocks.1

/-- `while ((len&511)!=448) put(0)`, at most `n` times. -/
def pad : (n : Nat) → SHA1 → SHA1
  | 0, s => s
  | n + 1, s => if s.len % 512 ≠ 448 then pad n (s.put 0) else s

/-- The hash, when the length has been appended. -/
def result (s : SHA1) : Bytes :=
  let length := (List.range 8).map fun i => (s.len >>> (56 - 8 * i)).toUInt8
  let s := length.foldl put (pad 64 (s.put 0x80))
  s.h.toList.flatMap fun (x : UInt32) => [(x >>> 24).toUInt8, (x >>> 16).toUInt8, (x >>> 8).toUInt8, x.toUInt8]

def sha1 (data : Bytes) : Bytes := (data.foldl put init).result

theorem length_result (s : SHA1) : s.result.length = 20 := by
  simp [result]

/-! ## A word -/

theorem toNat_shift (x : UInt32) (c : UInt8) : (x <<< 8 ||| c.toUInt32).toNat = x.toNat * 256 % 4294967296 + c.toNat := by
  have small := c.toNat_lt
  have up : x.toNat * 256 % 4294967296 = (x.toNat % 16777216) <<< 8 := by
    rw [Nat.shiftLeft_eq]
    omega
  have left : (x <<< 8).toNat = (x.toNat % 16777216) <<< 8 := by
    rw [← up, UInt32.toNat_shiftLeft, Nat.shiftLeft_eq]
    rfl
  rw [UInt32.toNat_or, left, UInt8.toNat_toUInt32, ← Nat.shiftLeft_add_eq_or_of_lt (by omega : c.toNat < 2 ^ 8), up]

theorem toNat_byte (c : UInt8) {n : UInt32} (low : n.toNat ≤ 24) : (c.toUInt32 <<< n).toNat = c.toNat <<< n.toNat := by
  have small := c.toNat_lt
  have power : 2 ^ n.toNat ≤ 2 ^ 24 := Nat.pow_le_pow_right (by decide) low
  have bound := Nat.mul_le_mul (Nat.le_of_lt_succ small) power
  rw [UInt32.toNat_shiftLeft, UInt8.toNat_toUInt32, Nat.mod_eq_of_lt (by omega : n.toNat < 32)]
  apply Nat.mod_eq_of_lt
  rw [Nat.shiftLeft_eq]
  omega

theorem or_shiftLeft (x : Nat) {y n : Nat} (small : y < 256) : x <<< (n + 8) ||| y <<< n = (x * 256 + y) <<< n := by
  have fits : y <<< n < 2 ^ (n + 8) := by
    rw [Nat.shiftLeft_eq, Nat.pow_add, Nat.mul_comm]
    exact Nat.mul_lt_mul_of_pos_left small (Nat.pow_pos (by decide))
  rw [← Nat.shiftLeft_add_eq_or_of_lt fits]
  simp only [Nat.shiftLeft_eq, Nat.pow_add]
  ring

theorem toNat_word (a b c d : UInt8) (rest : Bytes) :
    (word (a :: b :: c :: d :: rest)).toNat = ((a.toNat * 256 + b.toNat) * 256 + c.toNat) * 256 + d.toNat := by
  have first := toNat_byte a (n := 24) (by decide)
  have second := toNat_byte b (n := 16) (by decide)
  have third := toNat_byte c (n := 8) (by decide)
  have two := or_shiftLeft a.toNat (n := 16) b.toNat_lt
  have three := or_shiftLeft (a.toNat * 256 + b.toNat) (n := 8) c.toNat_lt
  have four := or_shiftLeft ((a.toNat * 256 + b.toNat) * 256 + c.toNat) (n := 0) d.toNat_lt
  rw [word]
  simp only [List.getD_cons_zero, List.getD_cons_succ, UInt32.toNat_or, first, second, third, UInt8.toNat_toUInt32]
  exact (congrArg (fun x => x ||| c.toNat <<< 8 ||| d.toNat) two).trans ((congrArg (· ||| d.toNat) three).trans four)

/-- Four bytes push out what was in the word. -/
theorem word_eq (x : UInt32) (a b c d : UInt8) (rest : Bytes) :
    (((x <<< 8 ||| a.toUInt32) <<< 8 ||| b.toUInt32) <<< 8 ||| c.toUInt32) <<< 8 ||| d.toUInt32 =
      word (a :: b :: c :: d :: rest) := by
  have sa := a.toNat_lt
  have sb := b.toNat_lt
  have sc := c.toNat_lt
  rw [← UInt32.toNat_inj, toNat_shift, toNat_shift, toNat_shift, toNat_shift, toNat_word]
  omega

/-! ## A block -/

/-- The byte is in, and the block is not hashed yet. -/
def shiftIn (s : SHA1) (c : UInt8) : SHA1 :=
  { s with
    w := s.w.set (slot (s.len / 32)).val (s.w[slot (s.len / 32)] <<< 8 ||| c.toUInt32) (slot (s.len / 32)).isLt
    len := (s.len + 8) % 18446744073709551616
    bits := s.add_bits (by decide) }

theorem put_of_ne {s : SHA1} (c : UInt8) (inside : (s.len + 8) % 512 ≠ 0) : s.put c = s.shiftIn c := by
  have same : (s.len + 8) % 18446744073709551616 % 512 = (s.len + 8) % 512 := by omega
  exact if_neg (by rw [same]; exact inside)

theorem put_of_eq {s : SHA1} (c : UInt8) (last : (s.len + 8) % 512 = 0) : s.put c = (s.shiftIn c).process := by
  have same : (s.len + 8) % 18446744073709551616 % 512 = (s.len + 8) % 512 := by omega
  exact if_pos (by rw [same]; exact last)

/-- A word that is in. -/
def setWord (s : SHA1) (i : Fin 16) (x : UInt32) : SHA1 :=
  { s with
    w := s.w.set i.val x i.isLt
    len := (s.len + 32) % 18446744073709551616
    bits := s.add_bits (by decide) }

theorem shiftIn_eq {s : SHA1} {i : Fin 16} {k : Nat} (here : s.len % 512 = 32 * i.val + 8 * k) (small : k < 4) (c : UInt8) :
    s.shiftIn c =
      { s with
        w := s.w.set i.val (s.w[i] <<< 8 ||| c.toUInt32) i.isLt
        len := (s.len + 8) % 18446744073709551616
        bits := s.add_bits (by decide) } := by
  have same : i = slot (s.len / 32) := by
    have bound := i.isLt
    apply Fin.ext
    show i.val = s.len / 32 % 16
    omega
  subst same
  rfl

theorem shiftIn_four {s : SHA1} {i : Fin 16} (here : s.len % 512 = 32 * i.val) (a b c d : UInt8) (rest : Bytes) :
    (((s.shiftIn a).shiftIn b).shiftIn c).shiftIn d = s.setWord i (word (a :: b :: c :: d :: rest)) := by
  have small := i.isLt
  rw [@shiftIn_eq s i 0 (by omega) (by decide) a, @shiftIn_eq _ i 1 (by simp only; omega) (by decide) b,
    @shiftIn_eq _ i 2 (by simp only; omega) (by decide) c, @shiftIn_eq _ i 3 (by simp only; omega) (by decide) d]
  simp only [Fin.getElem_fin, Vector.getElem_set_self, Vector.set_set, word_eq _ a b c d rest, setWord]
  congr 1
  omega

/-- Four bytes, of which the last one may be the last one of the block. -/
theorem put_four {s : SHA1} {i : Fin 16} (here : s.len % 512 = 32 * i.val) (a b c d : UInt8) (rest : Bytes) :
    (((s.put a).put b).put c).put d =
      if i = 15 then (s.setWord i (word (a :: b :: c :: d :: rest))).process
      else s.setWord i (word (a :: b :: c :: d :: rest)) := by
  have small := i.isLt
  have len (s : SHA1) (c : UInt8) : (s.shiftIn c).len = (s.len + 8) % 18446744073709551616 := rfl
  rw [put_of_ne a (by omega), put_of_ne b (by rw [len]; omega), put_of_ne c (by rw [len, len]; omega),
    ← shiftIn_four here a b c d rest]
  split
  next last =>
    have last : i.val = 15 := by rw [last]; rfl
    exact put_of_eq d (by rw [len, len, len]; omega)
  next inside =>
    have inside : i.val ≠ 15 := fun value => inside (Fin.ext value)
    exact put_of_ne d (by rw [len, len, len]; omega)

/-- The block as it is when `n` words of it are in. -/
def setWords (s : SHA1) (p : Bytes) (n : Nat) : SHA1 :=
  { s with
    w := .ofFn fun i => if i.val < n then word (p.drop (4 * i)) else s.w[i]
    len := (s.len + 32 * n) % 18446744073709551616
    bits := s.add_bits (by omega) }

theorem setWord_setWords (s : SHA1) (p : Bytes) (i : Fin 16) :
    (s.setWords p i.val).setWord i (word (p.drop (4 * i.val))) = s.setWords p (i.val + 1) := by
  have len : ((s.len + 32 * i.val) % 18446744073709551616 + 32) % 18446744073709551616 =
      (s.len + 32 * (i.val + 1)) % 18446744073709551616 := by omega
  simp only [setWord, setWords, len]
  congr 1
  ext j inside
  simp only [Vector.getElem_set, Vector.getElem_ofFn]
  grind

/-- Four bytes of the block at a time. -/
theorem foldl_put_four {s : SHA1} {i : Fin 16} (here : s.len % 512 = 32 * i.val) {p : Bytes} (long : 64 ≤ p.length) :
    ((p.drop (4 * i.val)).take 4).foldl put s =
      if i = 15 then (s.setWord i (word (p.drop (4 * i.val)))).process else s.setWord i (word (p.drop (4 * i.val))) := by
  have bound := i.isLt
  obtain ⟨a, b, c, d, rest, split⟩ : ∃ a b c d rest, p.drop (4 * i.val) = a :: b :: c :: d :: rest := by
    have four : 4 ≤ (p.drop (4 * i.val)).length := by
      rw [List.length_drop]
      omega
    match p.drop (4 * i.val), four with
    | a :: b :: c :: d :: rest, _ => exact ⟨a, b, c, d, rest, rfl⟩
  rw [split]
  exact put_four here a b c d rest

/-- The induction is on the words before the last one. -/
theorem foldl_put_words {s : SHA1} (start : s.len % 512 = 0) {p : Bytes} (long : 64 ≤ p.length) {n : Nat} (small : n ≤ 15) :
    (p.take (4 * n)).foldl put s = s.setWords p n := by
  induction n with
  | zero =>
    have bits := s.bits
    have len : (s.len + 32 * 0) % 18446744073709551616 = s.len := by omega
    simp only [setWords, len]
    simp
  | succ n ih =>
    have here : (s.setWords p n).len % 512 = 32 * (⟨n, by omega⟩ : Fin 16).val := by
      simp only [setWords]
      omega
    have word := foldl_put_four here long
    have other : (⟨n, by omega⟩ : Fin 16) ≠ 15 := fun same => by
      have value := congrArg Fin.val same
      simp at value
      omega
    rw [if_neg other] at word
    rw [Nat.mul_add, Nat.mul_one, List.take_add, List.foldl_append, ih (by omega), word]
    exact setWord_setWords s p ⟨n, by omega⟩

/-- A whole block. -/
theorem foldl_put_block {s : SHA1} (start : s.len % 512 = 0) {p : Bytes} (long : 64 ≤ p.length) :
    (p.take 64).foldl put s = (s.setWords p 16).process := by
  have words := foldl_put_words start long (n := 15) le_rfl
  have here : (s.setWords p 15).len % 512 = 32 * (15 : Fin 16).val := by
    simp only [setWords]
    omega
  have last := foldl_put_four here long
  have split : p.take (4 * 15 + 4) = p.take (4 * 15) ++ (p.drop (4 * 15)).take 4 := List.take_add
  have size : 64 = 4 * 15 + 4 := rfl
  rw [size, split, List.foldl_append, words]
  exact (last.trans (if_pos rfl)).trans (congrArg process (setWord_setWords s p 15))

/-! ## Any pieces -/

theorem writeBlocks_eq {s : SHA1} (start : s.len % 512 = 0) (p : Bytes) :
    (s.writeBlocks p).2.foldl put (s.writeBlocks p).1 = p.foldl put s := by
  induction size : p.length using Nat.strongRecOn generalizing s p with
  | ind n ih =>
    rw [writeBlocks]
    split
    next long =>
      have block : ({ s with
          w := .ofFn fun i => word (p.drop (4 * i.val))
          len := (s.len + 512) % 18446744073709551616
          bits := s.add_bits (by decide) } : SHA1) = s.setWords p 16 := by
        rw [setWords]
        congr 1
      have shorter : (p.drop 64).length < n := by
        rw [List.length_drop]
        omega
      have next : (s.setWords p 16).process.len % 512 = 0 := by
        simp only [process, setWords]
        omega
      rw [block, ih _ shorter next _ rfl, ← foldl_put_block start long, ← List.foldl_append, List.take_append_drop]
    next short => rfl

theorem writeFront_eq (s : SHA1) (p : Bytes) :
    (s.writeFront p).2.foldl put (s.writeFront p).1 = p.foldl put s ∧
      ((s.writeFront p).2 = [] ∨ (s.writeFront p).1.len % 512 = 0) := by
  induction p generalizing s with
  | nil => exact ⟨rfl, Or.inl rfl⟩
  | cons c p ih =>
    rw [writeFront]
    split
    next inside => exact ih (s.put c)
    next start => exact ⟨rfl, Or.inr (not_not.mp start)⟩

/-- Writing at once is writing byte by byte. -/
theorem write_eq (s : SHA1) (buf : Bytes) : s.write buf = buf.foldl put s := by
  obtain ⟨front, ends⟩ := s.writeFront_eq buf
  rw [write]
  rcases ends with none | start
  · rw [none] at front ⊢
    rw [writeBlocks, if_neg (by decide)]
    exact front
  · rw [writeBlocks_eq start, front]

/-- The hash does not depend on the pieces in which the bytes are written. -/
theorem write_append (s : SHA1) (front back : Bytes) : (s.write front).write back = s.write (front ++ back) := by
  rw [write_eq, write_eq, write_eq, List.foldl_append]

end SHA1

end BackupSuite.Zpaq
