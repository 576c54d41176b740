import Mathlib.Data.List.Basic

/-! # Files written span by span

A write puts bytes at an offset; what lies between the end of the file and the offset
reads as zero.  A file that is written in spans of some content, in any order and with
spans of zeros left out, is the content once the rest is covered and a span reaches
its end (`writeSpans_eq`).
-/

namespace BackupSuite.Library

variable {β : Type*}

/-- Writing nothing does not extend the file. -/
def writeAt (zero : β) (file : List β) (offset : Nat) (bytes : List β) : List β :=
  if bytes.isEmpty then file
  else
    file.take offset ++ List.replicate (offset - file.length) zero ++ bytes ++
      file.drop (offset + bytes.length)

structure Span where
  offset : Nat
  length : Nat
deriving DecidableEq, Repr

def Span.bytes (content : List β) (span : Span) : List β :=
  (content.drop span.offset).take span.length

def Span.Covers (span : Span) (position : Nat) : Prop :=
  span.offset ≤ position ∧ position < span.offset + span.length

instance (span : Span) (position : Nat) : Decidable (span.Covers position) :=
  inferInstanceAs (Decidable (_ ∧ _))

/-- The spans of `content` one after the other, onto a file. -/
def writeSpans (zero : β) (content : List β) (file : List β) (spans : List Span) : List β :=
  spans.foldl (fun file span => writeAt zero file span.offset (span.bytes content)) file

variable (zero : β)

@[simp] theorem writeAt_nil (file : List β) (offset : Nat) : writeAt zero file offset [] = file := rfl

/-- Inside the file a write replaces bytes. -/
theorem writeAt_eq {file : List β} {offset : Nat} (inside : offset ≤ file.length) (bytes : List β) :
    writeAt zero file offset bytes = file.take offset ++ bytes ++ file.drop (offset + bytes.length) := by
  cases bytes with
  | nil => simp
  | cons b bytes => simp [writeAt, Nat.sub_eq_zero_of_le inside]

/-- Two writes of which one goes on where the other ends. -/
theorem writeAt_append {file : List β} {offset : Nat} (inside : offset ≤ file.length) (front back : List β) :
    writeAt zero (writeAt zero file offset front) (offset + front.length) back =
      writeAt zero file offset (front ++ back) := by
  have start : (file.take offset).length = offset := by
    rw [List.length_take]
    omega
  have ends : (file.take offset ++ front).length = offset + front.length := by
    rw [List.length_append, start]
  rw [writeAt_eq zero inside, writeAt_eq zero inside,
    writeAt_eq zero (by rw [List.length_append, ends]; exact Nat.le_add_right _ _), List.take_left' ends,
    ← List.drop_drop, List.drop_left' ends, List.drop_drop, List.length_append, Nat.add_assoc]
  simp only [List.append_assoc]

/-- A write behind the first part of a file. -/
theorem writeAt_left (front back bytes : List β) :
    writeAt zero (front ++ back) front.length bytes = front ++ (bytes ++ back.drop bytes.length) := by
  rw [writeAt_eq zero (by simp), List.take_left, ← List.drop_drop, List.drop_left, List.append_assoc]

theorem length_writeAt (file : List β) (offset : Nat) {bytes : List β} (some : bytes ≠ []) :
    (writeAt zero file offset bytes).length = max file.length (offset + bytes.length) := by
  rw [writeAt, if_neg (by simpa using some)]
  simp only [List.length_append, List.length_take, List.length_replicate, List.length_drop]
  omega

theorem getD_writeAt (file bytes : List β) (offset position : Nat) :
    (writeAt zero file offset bytes).getD position zero =
      if offset ≤ position ∧ position < offset + bytes.length then
        bytes.getD (position - offset) zero
      else file.getD position zero := by
  cases bytes with
  | nil =>
    have none : ¬ (offset ≤ position ∧ position < offset + ([] : List β).length) := by
      simp only [List.length_nil]
      omega
    rw [if_neg none, writeAt_nil]
  | cons b bytes =>
    rw [writeAt, if_neg (by simp)]
    simp only [List.getD_eq_getElem?_getD, List.append_assoc, List.getElem?_append,
      List.length_take, List.length_replicate, List.getElem?_replicate, List.getElem?_drop,
      List.getElem?_take]
    split_ifs <;> grind

theorem writeSpans_cons (content file : List β) (span : Span) (spans : List Span) :
    writeSpans zero content file (span :: spans) =
      writeSpans zero content (writeAt zero file span.offset (span.bytes content)) spans := rfl

theorem writeSpans_append (content file : List β) (front back : List Span) :
    writeSpans zero content file (front ++ back) =
      writeSpans zero content (writeSpans zero content file front) back := by
  simp [writeSpans]

theorem Span.length_bytes {content : List β} {span : Span}
    (inside : span.offset + span.length ≤ content.length) :
    (span.bytes content).length = span.length := by
  simp only [Span.bytes, List.length_take, List.length_drop]
  omega

theorem Span.getD_bytes {content : List β} {span : Span} {position : Nat}
    (covers : span.Covers position) :
    (span.bytes content).getD (position - span.offset) zero = content.getD position zero := by
  obtain ⟨low, high⟩ := covers
  simp only [Span.bytes, List.getD_eq_getElem?_getD, List.getElem?_take, List.getElem?_drop]
  rw [if_pos (by omega), Nat.add_sub_cancel' low]

theorem getD_writeSpans {content : List β} {spans : List Span}
    (inside : ∀ span ∈ spans, span.offset + span.length ≤ content.length) (file : List β)
    (position : Nat) :
    (writeSpans zero content file spans).getD position zero =
      if ∃ span ∈ spans, span.Covers position then content.getD position zero
      else file.getD position zero := by
  induction spans generalizing file with
  | nil => simp [writeSpans]
  | cons span spans ih =>
    rw [writeSpans_cons, ih fun s mem => inside s (List.mem_cons_of_mem _ mem)]
    have here := inside span List.mem_cons_self
    -- the last span that covers the position counts, but all have the content's byte there
    by_cases later : ∃ s ∈ spans, s.Covers position
    · obtain ⟨s, mem, covers⟩ := later
      rw [if_pos ⟨s, mem, covers⟩, if_pos ⟨s, List.mem_cons_of_mem _ mem, covers⟩]
    · rw [if_neg later, getD_writeAt, Span.length_bytes here]
      by_cases covers : span.Covers position
      · rw [if_pos (show _ ∧ _ from covers), if_pos ⟨span, List.mem_cons_self, covers⟩,
          Span.getD_bytes zero covers]
      · rw [if_neg (show ¬ (_ ∧ _) from covers), if_neg]
        rintro ⟨s, mem, other⟩
        cases mem with
        | head => exact covers other
        | tail _ mem => exact later ⟨s, mem, other⟩

theorem length_writeSpans {content : List β} {spans : List Span}
    (inside : ∀ span ∈ spans, span.offset + span.length ≤ content.length) (file : List β)
    (short : file.length ≤ content.length) :
    (writeSpans zero content file spans).length ≤ content.length ∧
      file.length ≤ (writeSpans zero content file spans).length ∧
      ∀ span ∈ spans, 0 < span.length →
        span.offset + span.length ≤ (writeSpans zero content file spans).length := by
  induction spans generalizing file with
  | nil => exact ⟨short, Nat.le_refl _, fun _ mem => by cases mem⟩
  | cons span spans ih =>
    rw [writeSpans_cons]
    have here := inside span List.mem_cons_self
    have later := fun s mem => inside s (List.mem_cons_of_mem _ mem)
    have bytes := Span.length_bytes here
    by_cases empty : span.length = 0
    · -- nothing is written, and the file does not grow to the span's offset
      have none : span.bytes content = [] := List.eq_nil_of_length_eq_zero (by omega)
      rw [none, writeAt_nil]
      obtain ⟨upper, lower, reach⟩ := ih later file short
      refine ⟨upper, lower, fun s mem pos => ?_⟩
      cases mem with
      | head => omega
      | tail _ mem => exact reach s mem pos
    · have some : span.bytes content ≠ [] := by
        intro none
        rw [none] at bytes
        exact empty bytes.symm
      have grown := length_writeAt zero file span.offset some
      obtain ⟨upper, lower, reach⟩ := ih later (writeAt zero file span.offset
        (span.bytes content)) (by omega)
      refine ⟨upper, by omega, fun s mem pos => ?_⟩
      cases mem with
      | head => omega
      | tail _ mem => exact reach s mem pos

theorem eq_of_getD {l m : List β} (lengths : l.length = m.length)
    (same : ∀ i, l.getD i zero = m.getD i zero) : l = m := by
  refine List.ext_getElem lengths fun i hl hm => ?_
  have here := same i
  rwa [List.getD_eq_getElem?_getD, List.getD_eq_getElem?_getD, List.getElem?_eq_getElem hl,
    List.getElem?_eq_getElem hm] at here

/-- A file is the content when spans cover all but zeros and one reaches the end. -/
theorem writeSpans_eq {content : List β} {spans : List Span}
    (inside : ∀ span ∈ spans, span.offset + span.length ≤ content.length)
    (covered : ∀ i, content.getD i zero ≠ zero → ∃ span ∈ spans, span.Covers i)
    (sealed : content = [] ∨ ∃ span ∈ spans, 0 < span.length ∧
      span.offset + span.length = content.length) :
    writeSpans zero content [] spans = content := by
  obtain ⟨upper, -, reach⟩ := length_writeSpans zero inside [] (Nat.zero_le _)
  apply eq_of_getD zero
  · rcases sealed with rfl | ⟨span, mem, pos, last⟩
    · exact Nat.le_zero.mp upper
    · exact Nat.le_antisymm upper (last ▸ reach span mem pos)
  · intro i
    rw [getD_writeSpans zero inside]
    split
    · rfl
    · -- what no span covers is zero in the file, and in the content too
      next uncovered => exact (not_not.mp fun some => uncovered (covered i some)).symm

end BackupSuite.Library
