import Mathlib.Data.Nat.ModEq
import Mathlib.Logic.Function.Basic

/-! # The queues of the thread pool

A `TaskQueue` counts what was put in (`bottom`) and taken out (`top`), and a ring buffer has
the tasks between the two. `Represents` says which tasks these are: when the buffer is full
a copy of twice its size takes over (`Represents.make_room`), and an entry that is set
behind the others overwrites none of them (`Represents.store_entry`).
-/

namespace BackupSuite.CtrlCenter

variable {τ : Type}

/-- A power of two of entries; an entry that was never set is not initialised. -/
structure RingBuffer (τ : Type) where
  bits : Nat
  buffer : Nat → Option τ

namespace RingBuffer

variable (b : RingBuffer τ)

def capacity : Nat := 2 ^ b.bits

def set_entry (i : Nat) (val : Option τ) : RingBuffer τ :=
  { b with buffer := Function.update b.buffer (i &&& (b.capacity - 1)) val }

def get_entry (i : Nat) : Option τ := b.buffer (i &&& (b.capacity - 1))

/-- `for (i=top; i!=bottom; ++i)` -/
def enlarged_copy (bottom top : Nat) : RingBuffer τ :=
  (List.range' top (bottom - top)).foldl (fun new i => new.set_entry i (b.get_entry i)) ⟨b.bits + 1, fun _ => none⟩

@[simp] theorem capacity_set_entry (i : Nat) (val : Option τ) : (b.set_entry i val).capacity = b.capacity := rfl

theorem capacity_pos : 0 < b.capacity := Nat.two_pow_pos b.bits

theorem get_set_self (i : Nat) (val : Option τ) : (b.set_entry i val).get_entry i = val :=
  Function.update_self _ _ _

/-- Entries that are less than the capacity apart have different places. -/
theorem get_set_of_lt {i j : Nat} (before : j < i) (near : i < j + b.capacity) (val : Option τ) :
    (b.set_entry i val).get_entry j = b.get_entry j := by
  refine Function.update_of_ne ?_ _ _
  rw [capacity_set_entry, capacity, Nat.and_two_pow_sub_one_eq_mod, Nat.and_two_pow_sub_one_eq_mod, ← capacity]
  intro same
  have divides := (Nat.modEq_iff_dvd' before.le).mp same
  have small := Nat.le_of_dvd (by omega) divides
  omega

variable {b} {new : RingBuffer τ}

theorem capacity_copy (indices : List Nat) :
    (indices.foldl (fun new i => new.set_entry i (b.get_entry i)) new).capacity = new.capacity := by
  induction indices generalizing new with
  | nil => rfl
  | cons i indices ih => rw [List.foldl_cons, ih, capacity_set_entry]

theorem capacity_enlarged_copy (bottom top : Nat) : (b.enlarged_copy bottom top).capacity = 2 * b.capacity := by
  rw [enlarged_copy, capacity_copy, capacity, capacity, Nat.pow_succ, Nat.mul_comm]

/-- The induction is on the number of entries that have been copied. -/
theorem get_copy {top n j : Nat} (fits : n ≤ new.capacity) (low : top ≤ j) (high : j < top + n) :
    ((List.range' top n).foldl (fun new i => new.set_entry i (b.get_entry i)) new).get_entry j = b.get_entry j := by
  induction n with
  | zero => omega
  | succ n ih =>
    rw [List.range'_concat, List.foldl_append, List.foldl_cons, List.foldl_nil, Nat.one_mul]
    by_cases last : j = top + n
    · rw [last, get_set_self]
    · rw [get_set_of_lt _ (by omega) (by rw [capacity_copy]; omega)]
      exact ih (by omega) (by omega)

theorem get_enlarged_copy {bottom top j : Nat} (fits : bottom - top ≤ b.capacity) (low : top ≤ j) (high : j < bottom) :
    (b.enlarged_copy bottom top).get_entry j = b.get_entry j := by
  have twice : (⟨b.bits + 1, fun _ => none⟩ : RingBuffer τ).capacity = 2 * b.capacity := by
    rw [capacity, capacity, Nat.pow_succ, Nat.mul_comm]
  exact get_copy (by omega) low (by omega)

end RingBuffer

structure TaskQueue (τ : Type) where
  top : Nat
  bottom : Nat
  buffer : RingBuffer τ

namespace TaskQueue

/-- A new queue has room for 256 tasks. -/
def new : TaskQueue τ := ⟨0, 0, ⟨8, fun _ => none⟩⟩

variable (q : TaskQueue τ)

def empty : Bool := q.bottom ≤ q.top

/-- `push`, up to where the buffer has room for one more task. -/
def make_room : TaskQueue τ :=
  if q.buffer.capacity < q.bottom - q.top + 1 then { q with buffer := q.buffer.enlarged_copy q.bottom q.top } else q

def store_entry (task : τ) : TaskQueue τ := { q with buffer := q.buffer.set_entry q.bottom (some task) }

def publish : TaskQueue τ := { q with bottom := q.bottom + 1 }

/-- `try_pop`, when the exchange of `top` succeeds. -/
def advance : TaskQueue τ := { q with top := q.top + 1 }

@[simp] theorem top_make_room : q.make_room.top = q.top := by
  rw [make_room]
  split <;> rfl

@[simp] theorem top_store_entry (task : τ) : (q.store_entry task).top = q.top := rfl

@[simp] theorem top_publish : q.publish.top = q.top := rfl

@[simp] theorem top_advance : q.advance.top = q.top + 1 := rfl

/-- The tasks that are in the queue, from the top on. -/
structure Represents (q : TaskQueue τ) (items : List τ) : Prop where
  bottom : q.bottom = q.top + items.length
  fits : items.length ≤ q.buffer.capacity
  entry : ∀ i < items.length, q.buffer.get_entry (q.top + i) = items[i]?

theorem represents_new : (new : TaskQueue τ).Represents [] where
  bottom := rfl
  fits := Nat.zero_le _
  entry i inside := absurd inside (Nat.not_lt_zero i)

namespace Represents

variable {q} {items : List τ} {task : τ}

theorem empty_iff (represents : q.Represents items) : q.empty = true ↔ items = [] := by
  have bottom := represents.bottom
  rw [empty, decide_eq_true_eq, ← List.length_eq_zero_iff]
  omega

theorem make_room (represents : q.Represents items) :
    q.make_room.Represents items ∧ items.length < q.make_room.buffer.capacity := by
  have bottom := represents.bottom
  have fits := represents.fits
  have positive := q.buffer.capacity_pos
  rw [TaskQueue.make_room]
  split
  next =>
    have twice := q.buffer.capacity_enlarged_copy q.bottom q.top
    refine ⟨⟨bottom, ?_, ?_⟩, ?_⟩
    · rw [twice]
      omega
    · intro i inside
      have kept : (q.buffer.enlarged_copy q.bottom q.top).get_entry (q.top + i) = q.buffer.get_entry (q.top + i) :=
        RingBuffer.get_enlarged_copy (by omega) (by omega) (by omega)
      exact kept.trans (represents.entry i inside)
    · rw [twice]
      omega
  next => exact ⟨represents, by omega⟩

theorem store_entry (represents : q.Represents items) (room : items.length < q.buffer.capacity) (task : τ) :
    (q.store_entry task).Represents items ∧ items.length < (q.store_entry task).buffer.capacity ∧
      (q.store_entry task).buffer.get_entry q.bottom = some task := by
  have bottom := represents.bottom
  refine ⟨⟨bottom, represents.fits, ?_⟩, room, RingBuffer.get_set_self _ _ _⟩
  intro i inside
  have kept : (q.buffer.set_entry q.bottom (some task)).get_entry (q.top + i) = q.buffer.get_entry (q.top + i) :=
    RingBuffer.get_set_of_lt _ (by omega) (by omega) _
  exact kept.trans (represents.entry i inside)

theorem publish (represents : q.Represents items) (room : items.length < q.buffer.capacity)
    (stored : q.buffer.get_entry q.bottom = some task) : q.publish.Represents (items ++ [task]) where
  bottom := by
    rw [TaskQueue.publish, represents.bottom, List.length_append, List.length_singleton, Nat.add_assoc]
  fits := by
    rw [List.length_append]
    exact room
  entry i inside := by
    rw [List.length_append, List.length_singleton] at inside
    by_cases last : i = items.length
    · rw [last, List.getElem?_concat_length, ← stored, represents.bottom]
      rfl
    · rw [List.getElem?_append_left (by omega)]
      exact represents.entry i (by omega)

theorem get_top (represents : q.Represents (task :: items)) : q.buffer.get_entry q.top = some task :=
  represents.entry 0 (Nat.succ_pos _)

theorem advance (represents : q.Represents (task :: items)) : q.advance.Represents items where
  bottom := by
    have bottom := represents.bottom
    rw [List.length_cons, Nat.add_comm items.length, ← Nat.add_assoc] at bottom
    exact bottom
  fits := Nat.le_of_succ_le represents.fits
  entry i inside := by
    have entry := represents.entry (i + 1) (Nat.succ_lt_succ inside)
    rwa [← Nat.add_assoc, Nat.add_right_comm, List.getElem?_cons_succ] at entry

end Represents

end TaskQueue

end BackupSuite.CtrlCenter
