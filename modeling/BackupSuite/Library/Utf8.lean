import Mathlib.Data.List.Basic

/-! # UTF-8 as lists

Encoding and strict decoding of a text, and that the ASCII bytes of an encoded text are
its ASCII characters: a text can be cut at them on either side (`exists_of_utf8Encode`).
-/

namespace BackupSuite.Library

def utf8Encode (s : List Char) : List UInt8 := s.flatMap String.utf8EncodeChar

/-- The text, or nothing for bytes that are no UTF-8. -/
def utf8Decode (b : List UInt8) : Option (List Char) := b.toByteArray.utf8Decode?.map Array.toList

@[simp] theorem utf8Encode_nil : utf8Encode [] = [] := rfl

@[simp] theorem utf8Encode_cons (c : Char) (s : List Char) :
    utf8Encode (c :: s) = String.utf8EncodeChar c ++ utf8Encode s := List.flatMap_cons

@[simp] theorem utf8Encode_append (s t : List Char) :
    utf8Encode (s ++ t) = utf8Encode s ++ utf8Encode t := List.flatMap_append

theorem utf8Decode_eq_some {b : List UInt8} {s : List Char} :
    utf8Decode b = some s ↔ utf8Encode s = b := by
  constructor
  · intro h
    obtain ⟨chars, decoded, rfl⟩ := Option.map_eq_some_iff.mp h
    have back := @ByteArray.utf8Encode_get_utf8Decode? b.toByteArray (by rw [decoded]; rfl)
    simp only [decoded, Option.get_some] at back
    exact List.toByteArray_inj.mp back
  · rintro rfl
    have decoded := @List.utf8Decode?_utf8Encode s
    rw [List.utf8Encode] at decoded
    rw [utf8Decode, utf8Encode, decoded]
    rfl

@[simp] theorem utf8Decode_utf8Encode (s : List Char) : utf8Decode (utf8Encode s) = some s :=
  utf8Decode_eq_some.mpr rfl

theorem utf8Encode_inj {s t : List Char} : utf8Encode s = utf8Encode t ↔ s = t := by
  constructor
  · intro same
    have decoded := congrArg utf8Decode same
    simpa using decoded
  · rintro rfl
    rfl

/-! ## ASCII -/

theorem utf8EncodeChar_of_ascii {c : Char} (ascii : c.toNat < 128) :
    String.utf8EncodeChar c = [UInt8.ofNat c.toNat] := by
  rw [String.utf8EncodeChar]
  exact if_pos (Nat.le_of_lt_succ ascii)

theorem utf8Encode_map_ofNat {l : List UInt8} (ascii : ∀ b ∈ l, b.toNat < 128) :
    utf8Encode (l.map fun b => Char.ofNat b.toNat) = l := by
  induction l with
  | nil => rfl
  | cons b l ih =>
    have low := ascii b List.mem_cons_self
    have valid : b.toNat.isValidChar := Or.inl (by omega)
    have code : (Char.ofNat b.toNat).toNat = b.toNat := by
      rw [Char.ofNat, dif_pos valid]
      rfl
    rw [List.map_cons, utf8Encode_cons, utf8EncodeChar_of_ascii (by rwa [code]), code, UInt8.ofNat_toNat,
      ih fun other mem => ascii other (List.mem_cons_of_mem _ mem)]
    rfl

theorem le_of_mem_utf8EncodeChar {c : Char} (high : 128 ≤ c.toNat) {b : UInt8}
    (mem : b ∈ String.utf8EncodeChar c) : 128 ≤ b.toNat := by
  have notAscii : ¬ c.val.toNat ≤ 127 := Nat.not_le.mpr high
  have continuation : ∀ n : Nat, 128 ≤ (UInt8.ofNat (n % 64 + 128)).toNat := by
    intro n
    rw [UInt8.toNat_ofNat']
    omega
  simp only [String.utf8EncodeChar, if_neg notAscii] at mem
  split at mem
  · simp only [List.mem_cons, List.not_mem_nil, or_false] at mem
    rcases mem with rfl | rfl
    · rw [UInt8.toNat_ofNat']
      omega
    · exact continuation _
  · split at mem
    · simp only [List.mem_cons, List.not_mem_nil, or_false] at mem
      rcases mem with rfl | rfl | rfl
      · rw [UInt8.toNat_ofNat']
        omega
      · exact continuation _
      · exact continuation _
    · simp only [List.mem_cons, List.not_mem_nil, or_false] at mem
      rcases mem with rfl | rfl | rfl | rfl
      · rw [UInt8.toNat_ofNat']
        omega
      · exact continuation _
      · exact continuation _
      · exact continuation _

theorem mem_utf8Encode_of_ascii {c : Char} (ascii : c.toNat < 128) {s : List Char} (mem : c ∈ s) :
    UInt8.ofNat c.toNat ∈ utf8Encode s :=
  List.mem_flatMap.mpr ⟨c, mem, by rw [utf8EncodeChar_of_ascii ascii]; exact List.mem_cons_self⟩

/-- An ASCII byte of an encoded text is a character of it. -/
theorem exists_of_utf8Encode {c : Char} (ascii : c.toNat < 128) {s : List Char} {before behind : List UInt8}
    (encoded : utf8Encode s = before ++ UInt8.ofNat c.toNat :: behind) :
    ∃ s₁ s₂, s = s₁ ++ c :: s₂ ∧ utf8Encode s₁ = before ∧ utf8Encode s₂ = behind := by
  induction s generalizing before with
  | nil => simp at encoded
  | cons a s ih =>
    rw [utf8Encode_cons] at encoded
    by_cases low : a.toNat < 128
    · rw [utf8EncodeChar_of_ascii low, List.singleton_append] at encoded
      cases before with
      | nil =>
        rw [List.nil_append, List.cons.injEq] at encoded
        have same : a = c := by
          have bytes := congrArg UInt8.toNat encoded.1
          rw [UInt8.toNat_ofNat', UInt8.toNat_ofNat'] at bytes
          exact Char.toNat_inj.mp (by omega)
        exact ⟨[], s, by rw [same]; rfl, rfl, encoded.2⟩
      | cons b before =>
        rw [List.cons_append, List.cons.injEq] at encoded
        obtain ⟨s₁, s₂, rfl, front, back⟩ := ih encoded.2
        refine ⟨a :: s₁, s₂, rfl, ?_, back⟩
        rw [utf8Encode_cons, utf8EncodeChar_of_ascii low, encoded.1, front]
        rfl
    · -- the byte does not lie in the encoding of `a`
      have high := Nat.not_lt.mp low
      cases List.append_eq_append_iff.mp encoded with
      | inl split =>
        obtain ⟨rest, rfl, tail⟩ := split
        obtain ⟨s₁, s₂, rfl, front, back⟩ := ih tail
        exact ⟨a :: s₁, s₂, rfl, by rw [utf8Encode_cons, front], back⟩
      | inr split =>
        obtain ⟨rest, encodedChar, tail⟩ := split
        cases rest with
        | nil =>
          rw [List.nil_append] at tail
          obtain ⟨s₁, s₂, rfl, front, back⟩ := @ih [] tail.symm
          refine ⟨a :: s₁, s₂, rfl, ?_, back⟩
          rw [utf8Encode_cons, front, encodedChar, List.append_nil, List.append_nil]
        | cons b rest =>
          rw [List.cons_append, List.cons.injEq] at tail
          have byte := le_of_mem_utf8EncodeChar high (b := b) (by simp [encodedChar])
          rw [← tail.1, UInt8.toNat_ofNat'] at byte
          omega

end BackupSuite.Library
