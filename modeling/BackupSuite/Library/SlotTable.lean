import BackupSuite.Library.SparseFile

/-! # Tables of slots in one flat buffer

A buffer that is read as slots of one width: growing it keeps the slots that were there
(`slot_resize`), a write inside of a slot is a write to that slot (`slot_writeAt`) and
leaves the other ones alone (`slot_writeAt_of_ne`).
-/

namespace BackupSuite.Library

variable {β : Type*}

/-- What fits of the buffer; `fresh` is what the bytes behind it happen to hold. -/
def resize (fresh : Nat → β) (size : Nat) (buffer : List β) : List β :=
  buffer.take size ++ (List.range' buffer.length (size - buffer.length)).map fresh

def slot (width : Nat) (buffer : List β) (i : Nat) : List β := (buffer.drop (i * width)).take width

@[simp] theorem length_resize (fresh : Nat → β) (size : Nat) (buffer : List β) :
    (resize fresh size buffer).length = size := by
  simp only [resize, List.length_append, List.length_take, List.length_map, List.length_range']
  omega

theorem length_slot {width : Nat} {buffer : List β} {i : Nat} (inside : (i + 1) * width ≤ buffer.length) :
    (slot width buffer i).length = width := by
  rw [Nat.succ_mul] at inside
  rw [slot, List.length_take, List.length_drop]
  omega

theorem slot_take {width size : Nat} {i : Nat} (inside : (i + 1) * width ≤ size) (buffer : List β) :
    slot width (buffer.take size) i = slot width buffer i := by
  rw [Nat.succ_mul] at inside
  rw [slot, slot, List.drop_take, List.take_take]
  congr 1
  omega

theorem slot_resize {width size : Nat} {buffer : List β} {i : Nat} (inside : (i + 1) * width ≤ size)
    (kept : (i + 1) * width ≤ buffer.length) (fresh : Nat → β) :
    slot width (resize fresh size buffer) i = slot width buffer i := by
  have front : (i + 1) * width ≤ (buffer.take size).length := by
    rw [List.length_take]
    exact Nat.le_min.mpr ⟨inside, kept⟩
  rw [resize, ← slot_take front, List.take_left, slot_take inside]

theorem writeAt_of_le (zero : β) {buffer : List β} {offset : Nat} (inside : offset ≤ buffer.length)
    (bytes : List β) :
    writeAt zero buffer offset bytes = buffer.take offset ++ bytes ++ buffer.drop (offset + bytes.length) := by
  cases bytes with
  | nil => simp
  | cons b bytes => simp [writeAt, Nat.sub_eq_zero_of_le inside]

theorem getElem?_writeAt (zero : β) {buffer : List β} {offset : Nat} (inside : offset ≤ buffer.length)
    (bytes : List β) (position : Nat) :
    (writeAt zero buffer offset bytes)[position]? =
      if offset ≤ position ∧ position < offset + bytes.length then bytes[position - offset]?
      else buffer[position]? := by
  rw [writeAt_of_le zero inside]
  simp only [List.append_assoc, List.getElem?_append, List.length_take, List.getElem?_take,
    List.getElem?_drop]
  split_ifs <;> grind

theorem getElem?_slot (width : Nat) (buffer : List β) (i position : Nat) :
    (slot width buffer i)[position]? = if position < width then buffer[i * width + position]? else none := by
  rw [slot, List.getElem?_take, List.getElem?_drop]

theorem length_writeAt_of_le (zero : β) {buffer bytes : List β} {offset : Nat}
    (inside : offset + bytes.length ≤ buffer.length) :
    (writeAt zero buffer offset bytes).length = buffer.length := by
  rw [writeAt_of_le zero (by omega)]
  simp only [List.length_append, List.length_take, List.length_drop]
  omega

/-- A write right behind a front leaves it and goes on with its bytes. -/
theorem prefix_writeAt (zero : β) {front buffer : List β} (here : front <+: buffer) (bytes : List β) :
    front ++ bytes <+: writeAt zero buffer front.length bytes := by
  rw [writeAt_of_le zero here.length_le, ← List.prefix_iff_eq_take.mp here]
  exact List.prefix_append _ _

theorem slot_writeAt (zero : β) {width : Nat} {buffer bytes : List β} {i offset : Nat}
    (fits : offset + bytes.length ≤ width) (inside : (i + 1) * width ≤ buffer.length) :
    slot width (writeAt zero buffer (i * width + offset) bytes) i =
      writeAt zero (slot width buffer i) offset bytes := by
  have length := length_slot inside
  rw [Nat.succ_mul] at inside
  apply List.ext_getElem?
  intro position
  rw [getElem?_slot, getElem?_writeAt zero (by omega), getElem?_writeAt zero (by omega), getElem?_slot]
  by_cases here : position < width
  · have shifted : i * width + position - (i * width + offset) = position - offset := by omega
    simp only [if_pos here, Nat.add_assoc, Nat.add_le_add_iff_left, Nat.add_lt_add_iff_left] at shifted ⊢
    rw [shifted]
  · rw [if_neg here, if_neg here, if_neg (by omega)]

theorem slot_writeAt_of_ne (zero : β) {width : Nat} {buffer bytes : List β} {i j offset : Nat} (ne : i ≠ j)
    (fits : offset + bytes.length ≤ width) (inside : (j + 1) * width ≤ buffer.length) :
    slot width (writeAt zero buffer (j * width + offset) bytes) i = slot width buffer i := by
  -- one of the two slots ends before the other one begins
  have apart : (i + 1) * width ≤ j * width ∨ (j + 1) * width ≤ i * width := by
    rcases Nat.lt_or_gt_of_ne ne with before | behind
    · exact Or.inl (Nat.mul_le_mul_right width before)
    · exact Or.inr (Nat.mul_le_mul_right width behind)
  rw [Nat.succ_mul, Nat.succ_mul] at apart
  rw [Nat.succ_mul] at inside
  apply List.ext_getElem?
  intro position
  rw [getElem?_slot, getElem?_slot, getElem?_writeAt zero (by omega)]
  by_cases here : position < width
  · rw [if_pos here, if_pos here, if_neg (by omega)]
  · rw [if_neg here, if_neg here]

/-! ## Several writes -/

structure SlotWrite (β : Type*) where
  slot : Nat
  offset : Nat
  bytes : List β

/-- The write stays inside of its slot, and the slot inside of a buffer of this size. -/
structure SlotWrite.Fits (width size : Nat) (write : SlotWrite β) : Prop where
  inSlot : write.offset + write.bytes.length ≤ width
  inBuffer : (write.slot + 1) * width ≤ size

def writeSlots (zero : β) (width : Nat) (buffer : List β) (writes : List (SlotWrite β)) : List β :=
  writes.foldl (fun buffer write => writeAt zero buffer (write.slot * width + write.offset) write.bytes) buffer

theorem SlotWrite.Fits.length_writeAt {width : Nat} {buffer : List β} {write : SlotWrite β}
    (fits : write.Fits width buffer.length) (zero : β) :
    (writeAt zero buffer (write.slot * width + write.offset) write.bytes).length = buffer.length := by
  obtain ⟨inSlot, inBuffer⟩ := fits
  rw [Nat.succ_mul] at inBuffer
  exact length_writeAt_of_le zero (by omega)

theorem length_writeSlots (zero : β) {width : Nat} {buffer : List β} {writes : List (SlotWrite β)}
    (fits : ∀ write ∈ writes, write.Fits width buffer.length) :
    (writeSlots zero width buffer writes).length = buffer.length := by
  induction writes generalizing buffer with
  | nil => rfl
  | cons write writes ih =>
    have length := (fits write List.mem_cons_self).length_writeAt zero
    rw [writeSlots, List.foldl_cons, ← writeSlots, ih, length]
    intro other mem
    rw [length]
    exact fits other (List.mem_cons_of_mem _ mem)

/-- A slot gets the writes that are meant for it, in their order. -/
theorem slot_writeSlots (zero : β) {width : Nat} {buffer : List β} {writes : List (SlotWrite β)}
    (fits : ∀ write ∈ writes, write.Fits width buffer.length) (i : Nat) :
    slot width (writeSlots zero width buffer writes) i =
      (writes.filter (·.slot = i)).foldl (fun content write => writeAt zero content write.offset write.bytes)
        (slot width buffer i) := by
  induction writes generalizing buffer with
  | nil => rfl
  | cons write writes ih =>
    obtain ⟨inSlot, inBuffer⟩ := fits write List.mem_cons_self
    have length := (fits write List.mem_cons_self).length_writeAt zero
    rw [writeSlots, List.foldl_cons, ← writeSlots, ih]
    · by_cases here : write.slot = i
      · rw [List.filter_cons_of_pos (by simpa using here), List.foldl_cons, ← here,
          slot_writeAt zero inSlot inBuffer]
      · rw [List.filter_cons_of_neg (by simpa using here),
          slot_writeAt_of_ne zero (Ne.symm here) inSlot inBuffer]
    · intro other mem
      rw [length]
      exact fits other (List.mem_cons_of_mem _ mem)

end BackupSuite.Library
