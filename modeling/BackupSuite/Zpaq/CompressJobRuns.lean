import BackupSuite.Zpaq.CompressJob

/-! # What the compression threads write

In every state of every run, the archive has the first blocks in the order in which `add`
put them in, and `csize` has their sizes (`archive_ordered`).  No run gets stuck before
everything is written, and none goes on for ever (`ends_complete`), so the archive is
the one that a single thread would write.
-/

namespace BackupSuite.Zpaq.CompressJob

open BackupSuite.Library BackupSuite.CtrlCenter

variable {job : CompressJob} {s s' : job.State}

/-! ## The ring -/

theorem bufferAt_eq (s : job.State) (i : Nat) : s.bufferAt i = Fin.ofNat job.qsize i + s.front := by
  apply Fin.ext
  simp [State.bufferAt, Fin.val_add]

theorem bufferAt_sub (s : job.State) {i : Nat} (inside : i < job.qsize) : (s.bufferAt i - s.front).val = i := by
  rw [bufferAt_eq, add_sub_cancel_right, Fin.val_ofNat, Nat.mod_eq_of_lt inside]

theorem bufferAt_of_sub (s : job.State) (k : Fin job.qsize) : s.bufferAt (k - s.front).val = k := by
  rw [bufferAt_eq, Fin.ofNat_val_eq_self, sub_add_cancel]

/-- When the front moves on, every other buffer is one place nearer to it. -/
theorem sub_front_succ {k front : Fin job.qsize} (ne : k ≠ front) :
    (k - (front + 1)).val + 1 = (k - front).val := by
  have apart : k - front ≠ 0 := sub_ne_zero.mpr ne
  rw [sub_add_eq_sub_sub, Fin.val_sub_one_of_ne_zero apart]
  have positive : 0 < (k - front).val := Nat.pos_of_ne_zero fun zero => apart (Fin.ext zero)
  omega

/-- The buffer that was in front becomes the last one. -/
theorem front_sub_succ (front : Fin job.qsize) : (front - (front + 1)).val = job.last := by
  rw [sub_add_eq_sub_sub, sub_self, zero_sub]
  simp

/-! ## What holds in every state -/

/-- The task in front of the queue, once the writer has its size. -/
def sized : WritePc → List Task → List Task
  | .write, queued | .finish, queued => queued.take 1
  | _, _ => []

/-- The task in front of the queue, once the writer has written it. -/
def written : WritePc → List Task → List Task
  | .finish, queued => queued.take 1
  | _, _ => []

def State.writerAt (s : job.State) (k : Fin job.qsize) : WritePc :=
  if k = s.front then s.writer else .waitCompressed

/-- The tasks are those that are done, those in the buffers from the front on, and those that
are not put in yet. -/
structure Invariant (s : job.State) (done queued : List Task) : Prop where
  tasks : job.tasks = done ++ queued ++ s.input
  notEnd : ∀ task ∈ done, task.method ≠ []
  holds : ∀ k, job.Holds queued[(k - s.front).val]? (s.writerAt k) (s.q k)
  space : s.empty + queued.length + s.waited.toNat = job.qsize
  compressors : ∑ k, (s.q k).pc.busy + s.compressors = job.threads
  csize : s.csize = (done ++ sized s.writer queued).map fun task => (job.compressBlock task).length
  archive : s.archive = (done ++ written s.writer queued).flatMap job.compressBlock

/-- Steps that are left. -/
def State.rank (s : job.State) : Nat :=
  11 * s.input.length + (!s.waited).toNat + ∑ k, (s.q k).rank + s.writer.rank

theorem invariant_start : Invariant job.start [] [] where
  tasks := rfl
  notEnd := by simp
  holds k := by
    have waits : job.start.writerAt k = .waitCompressed := ite_self _
    rw [waits, List.getElem?_nil]
    exact .empty
  space := rfl
  compressors := by simp [start, CompressPc.busy]
  csize := rfl
  archive := rfl

theorem holds_update (items : Fin job.qsize → Option Task) (writers : Fin job.qsize → WritePc)
    {q : Fin job.qsize → CJ} {i : Fin job.qsize} {cj : CJ} (here : job.Holds (items i) (writers i) cj)
    (others : ∀ k, k ≠ i → job.Holds (items k) (writers k) (q k)) (k : Fin job.qsize) :
    job.Holds (items k) (writers k) (Function.update q i cj k) := by
  by_cases same : k = i
  · subst same
    rw [Function.update_self]
    exact here
  · rw [Function.update_of_ne same]
    exact others k same

theorem State.writerAt_of_ne {k : Fin job.qsize} (ne : k ≠ s.front) : s.writerAt k = .waitCompressed := if_neg ne

theorem exists_of_head? {queued : List Task} {task : Task} (head : queued.head? = some task) :
    ∃ rest, queued = task :: rest := List.head?_eq_some_iff.mp head

namespace Invariant

variable {done queued : List Task}

theorem holds_front (inv : Invariant s done queued) : job.Holds queued.head? s.writer (s.q s.front) := by
  have holds := inv.holds s.front
  rwa [sub_self, Fin.val_zero, ← List.head?_eq_getElem?, State.writerAt, if_pos rfl] at holds

theorem compress (inv : Invariant s done queued) {i : Fin job.qsize} (stepped : s.stepCompress i = some s') :
    Invariant s' done queued ∧ s'.rank < s.rank := by
  obtain ⟨cj, compressors, rfl, holds, busy, lower⟩ := stepCompress_spec (inv.holds i) stepped
  have busyAll := sum_update (fun cj : CJ => cj.pc.busy) s.q i cj
  have rankAll := sum_update CJ.rank s.q i cj
  have all := inv.compressors
  refine ⟨⟨inv.tasks, inv.notEnd, holds_update _ _ holds fun k _ => inv.holds k, inv.space, ?_, inv.csize,
    inv.archive⟩, ?_⟩
  · simp only [State.setQ]
    omega
  · simp only [State.rank, State.setQ]
    omega

/-- The writer is somewhere else, or the buffer in front is another. -/
theorem holds_writer (inv : Invariant s done queued) {writer : WritePc} {cj : CJ}
    (holds : job.Holds queued.head? writer cj) (k : Fin job.qsize) :
    job.Holds queued[(k - s.front).val]? (if k = s.front then writer else .waitCompressed)
      (Function.update s.q s.front cj k) := by
  refine holds_update (fun k => queued[(k - s.front).val]?)
    (fun k => if k = s.front then writer else .waitCompressed) ?_ ?_ k
  · simpa [← List.head?_eq_getElem?] using holds
  · intro k other
    have unchanged := inv.holds k
    rw [State.writerAt_of_ne other] at unchanged
    simpa only [if_neg other] using unchanged

/-- The task in front is done. -/
theorem holds_freed {task : Task} (inv : Invariant s done (task :: queued)) {cj : CJ}
    (holds : job.Holds none .waitCompressed cj) (k : Fin job.qsize) :
    job.Holds queued[(k - (s.front + 1)).val]? .waitCompressed (Function.update s.q s.front cj k) := by
  refine holds_update (fun k => queued[(k - (s.front + 1)).val]?) (fun _ => .waitCompressed) ?_ ?_ k
  · have space : s.empty + (queued.length + 1) + s.waited.toNat = job.last + 1 := inv.space
    rw [front_sub_succ, List.getElem?_eq_none (by omega)]
    exact holds
  · intro k other
    have unchanged := inv.holds k
    rwa [State.writerAt_of_ne other, ← sub_front_succ other, List.getElem?_cons_succ] at unchanged

/-- The writer takes, claims or writes the task in front, or frees its buffer. -/
theorem write (inv : Invariant s done queued) (stepped : s.stepWrite = some s') :
    (∃ done' queued', Invariant s' done' queued') ∧ s'.rank < s.rank := by
  have compressors := inv.compressors
  have csize := inv.csize
  have archive := inv.archive
  have spec := stepWrite_spec inv.holds_front stepped
  generalize head : queued.head? = item at spec
  cases spec with
  | @takes item cj here holds busy lower =>
    have busyAll := sum_update (fun cj : CJ => cj.pc.busy) s.q s.front cj
    have rankAll := sum_update CJ.rank s.q s.front cj
    rw [here] at csize archive
    refine ⟨⟨done, queued, inv.tasks, inv.notEnd, inv.holds_writer (head ▸ holds), inv.space, ?_, csize,
      archive⟩, ?_⟩
    · simp only [State.setQ]
      omega
    · simp only [State.rank, State.setQ, here, WritePc.rank]
      omega
  | @ends task here isEnd holds =>
    rw [here] at csize archive
    have holdsAll := inv.holds_writer (head ▸ holds)
    rw [Function.update_eq_self] at holdsAll
    refine ⟨⟨done, queued, inv.tasks, inv.notEnd, holdsAll, inv.space, compressors, csize, archive⟩, ?_⟩
    simp only [State.rank, here, WritePc.rank]
    omega
  | @claims task cj writer here notEnd holds busy lower next =>
    have busyAll := sum_update (fun cj : CJ => cj.pc.busy) s.q s.front cj
    have rankAll := sum_update CJ.rank s.q s.front cj
    obtain ⟨rest, rfl⟩ := exists_of_head? head
    rw [here] at csize archive
    refine ⟨⟨done, task :: rest, inv.tasks, inv.notEnd, inv.holds_writer holds, inv.space, ?_, ?_, ?_⟩, ?_⟩
    · simp only [State.setQ]
      omega
    · rcases next with rfl | ⟨rfl, -⟩
      · simp [csize, sized]
      · simp [csize, sized]
    · rcases next with rfl | ⟨rfl, nothing⟩
      · simpa [written, State.setQ] using archive
      · simpa [written, nothing, State.setQ] using archive
    · simp only [State.rank, State.setQ, here, WritePc.rank] at lower ⊢
      omega
  | @writes task here holds =>
    obtain ⟨rest, rfl⟩ := exists_of_head? head
    rw [here] at csize archive
    have holdsAll := inv.holds_writer holds
    rw [Function.update_eq_self] at holdsAll
    refine ⟨⟨done, task :: rest, inv.tasks, inv.notEnd, holdsAll, inv.space, compressors, csize, ?_⟩, ?_⟩
    · simp [archive, written]
    · simp only [State.rank, here, WritePc.rank]
      omega
  | @frees task cj here notEnd holds busy lower =>
    have busyAll := sum_update (fun cj : CJ => cj.pc.busy) s.q s.front cj
    have rankAll := sum_update CJ.rank s.q s.front cj
    obtain ⟨rest, rfl⟩ := exists_of_head? head
    rw [here] at csize archive
    have space := inv.space
    rw [List.length_cons] at space
    refine ⟨⟨done ++ [task], rest, ?_, ?_, ?_, ?_, ?_, ?_, ?_⟩, ?_⟩
    · rw [inv.tasks]
      simp [State.setQ]
    · intro other mem
      rcases List.mem_append.mp mem with old | new
      · exact inv.notEnd other old
      · rwa [List.mem_singleton.mp new]
    · intro k
      rw [State.writerAt, ite_self]
      exact inv.holds_freed holds k
    · simp only [State.setQ]
      omega
    · simp only [State.setQ]
      omega
    · simpa [sized, State.setQ] using csize
    · simpa [written, State.setQ] using archive
    · simp only [State.rank, State.setQ, here, WritePc.rank]
      omega

end Invariant

theorem state_of_none {writer : WritePc} {cj : CJ} (holds : job.Holds none writer cj) :
    writer = .waitCompressed ∧ cj.state = .empty ∧ cj.pc = .waitFull := by
  cases holds
  simp

theorem state_of_some {task : Task} {writer : WritePc} {cj : CJ} (holds : job.Holds (some task) writer cj) :
    cj.state ≠ .empty := by
  cases holds <;> simp

theorem input_of_stepAdd (stepped : s.stepAdd = some s') : ∃ task rest, s.input = task :: rest := by
  rw [State.stepAdd] at stepped
  split at stepped
  next => cases stepped
  next task rest input => exact ⟨task, rest, input⟩

theorem stepAdd_filled {task : Task} {rest : List Task} {i : Fin job.qsize} {writer : WritePc}
    (input : s.input = task :: rest) (waited : s.waited = true) (first : s.firstEmpty = some i)
    (empty : job.Holds none writer (s.q i)) :
    s.stepAdd = some { s.setQ i ⟨.full, task, [], 1, 0, .waitFull⟩ with
      input := rest
      waited := false } := by
  rw [State.stepAdd, input]
  simp only [waited, if_true, first]
  generalize s.q i = cj at empty ⊢
  cases empty
  rfl

theorem stepAdd_waits (waited : s.waited = false) (stepped : s.stepAdd = some s') :
    0 < s.empty ∧ s' = { s with empty := s.empty - 1, waited := true } := by
  obtain ⟨task, rest, input⟩ := input_of_stepAdd stepped
  rw [State.stepAdd, input] at stepped
  simp only [waited, Bool.false_eq_true, if_false] at stepped
  split at stepped
  next free =>
    rw [← input] at stepped
    exact ⟨free, (Option.some.inj stepped).symm⟩
  next => cases stepped

namespace Invariant

variable {done queued : List Task}

/-- With no task in front, the writer waits. -/
theorem sized_append (inv : Invariant s done queued) (task : Task) :
    sized s.writer (queued ++ [task]) = sized s.writer queued ∧
      written s.writer (queued ++ [task]) = written s.writer queued := by
  cases queued with
  | nil =>
    have waits := (state_of_none inv.holds_front).1
    rw [waits]
    exact ⟨rfl, rfl⟩
  | cons first rest =>
    cases s.writer <;> exact ⟨rfl, rfl⟩

/-- The task that is put in comes after those that are in the buffers. -/
theorem holds_added (inv : Invariant s done queued) (room : queued.length < job.qsize) {task : Task} {cj : CJ}
    (holds : job.Holds (some task) (s.writerAt (s.bufferAt queued.length)) cj) (k : Fin job.qsize) :
    job.Holds (queued ++ [task])[(k - s.front).val]? (s.writerAt k)
      (Function.update s.q (s.bufferAt queued.length) cj k) := by
  refine holds_update (fun k => (queued ++ [task])[(k - s.front).val]?) s.writerAt ?_ ?_ k
  · rwa [bufferAt_sub s room, List.getElem?_concat_length]
  · intro k other
    have apart : (k - s.front).val ≠ queued.length := by
      intro same
      rw [← same, bufferAt_of_sub] at other
      exact other rfl
    have unchanged := inv.holds k
    rcases Nat.lt_or_gt_of_ne apart with before | after
    · rwa [List.getElem?_append_left before]
    · rw [List.getElem?_eq_none (by omega)] at unchanged
      rwa [List.getElem?_eq_none (by rw [List.length_append, List.length_singleton]; omega)]

/-- The first empty buffer comes after those in use, so the order is kept. -/
theorem firstEmpty_eq (inv : Invariant s done queued) (room : queued.length < job.qsize) :
    s.firstEmpty = some (s.bufferAt queued.length) := by
  rw [State.firstEmpty, Option.map_eq_some_iff]
  refine ⟨queued.length, ?_, rfl⟩
  rw [List.find?_range_eq_some]
  refine ⟨?_, List.mem_range.mpr room, ?_⟩
  · have holds := inv.holds (s.bufferAt queued.length)
    rw [bufferAt_sub s room, List.getElem?_eq_none le_rfl] at holds
    simpa using (state_of_none holds).2.1
  · intro i before
    have holds := inv.holds (s.bufferAt i)
    rw [bufferAt_sub s (before.trans room), List.getElem?_eq_getElem before] at holds
    simpa using state_of_some holds

theorem add (inv : Invariant s done queued) (stepped : s.stepAdd = some s') :
    (∃ done' queued', Invariant s' done' queued') ∧ s'.rank < s.rank := by
  have space := inv.space
  have compressors := inv.compressors
  cases waited : s.waited with
  | true =>
    rw [waited] at space
    have room : queued.length < job.qsize := by
      simp only [Bool.toNat_true] at space
      omega
    obtain ⟨task, rest, input⟩ := input_of_stepAdd stepped
    have empty := inv.holds (s.bufferAt queued.length)
    rw [bufferAt_sub s room, List.getElem?_eq_none le_rfl] at empty
    rw [stepAdd_filled input waited (inv.firstEmpty_eq room) empty] at stepped
    cases stepped
    have holds : job.Holds (some task) (s.writerAt (s.bufferAt queued.length)) ⟨.full, task, [], 1, 0, .waitFull⟩ := by
      rw [(state_of_none empty).1]
      exact .full
    have busyAll := sum_update (fun cj : CJ => cj.pc.busy) s.q (s.bufferAt queued.length)
      ⟨.full, task, [], 1, 0, .waitFull⟩
    simp only [(state_of_none empty).2.2, Nat.add_right_cancel_iff] at busyAll
    have rankAll := sum_update CJ.rank s.q (s.bufferAt queued.length) ⟨.full, task, [], 1, 0, .waitFull⟩
    obtain ⟨sizedSame, writtenSame⟩ := inv.sized_append task
    refine ⟨⟨done, queued ++ [task], ?_, inv.notEnd, inv.holds_added room holds, ?_, ?_, ?_, ?_⟩, ?_⟩
    · simpa [input] using inv.tasks
    · simp only [State.setQ, Bool.toNat_true, Bool.toNat_false, List.length_append,
        List.length_singleton] at space ⊢
      omega
    · simp only [State.setQ]
      omega
    · simp only [State.setQ]
      rw [sizedSame]
      exact inv.csize
    · simp only [State.setQ]
      rw [writtenSame]
      exact inv.archive
    · simp only [State.rank, State.setQ, CJ.rank, input, waited, List.length_cons, Bool.not_true,
        Bool.not_false, Bool.toNat_true, Bool.toNat_false] at rankAll ⊢
      omega
  | false =>
    rw [waited] at space
    obtain ⟨free, rfl⟩ := stepAdd_waits waited stepped
    refine ⟨⟨done, queued, inv.tasks, inv.notEnd, inv.holds, ?_, inv.compressors, inv.csize, inv.archive⟩, ?_⟩
    · simp only [Bool.toNat_true, Bool.toNat_false] at space ⊢
      omega
    · simp [State.rank, waited]

end Invariant

/-! ## Progress -/

theorem idle_of_stuck {i : Fin job.qsize} (stuck : s.stepCompress i = none) : (s.q i).pc.busy = 0 := by
  rw [State.stepCompress] at stuck
  cases pc : (s.q i).pc with
  | compress | finish =>
    rw [pc] at stuck
    cases stuck
  | waitFull | check | waitCompressor | ended => rfl

/-- A compressor is free, or else a thread is at work with it. -/
theorem compressors_of_stuck {done queued : List Task} (inv : Invariant s done queued)
    (stuck : ∀ i, s.stepCompress i = none) : 0 < s.compressors := by
  have all := inv.compressors
  rw [Finset.sum_eq_zero fun i _ => idle_of_stuck (stuck i), Nat.zero_add] at all
  rw [all]
  exact job.positive

/-- Nothing is left for the buffer in front but to be filled, and after the end not even that. -/
theorem front_of_stuck {item : Option Task} (holds : job.Holds item s.writer (s.q s.front))
    (free : 0 < s.compressors) (compress : s.stepCompress s.front = none) (write : s.stepWrite = none) :
    item = none ∨ s.writer = .ended ∧ ∃ task, item = some task ∧ task.method = [] := by
  rw [State.stepCompress] at compress
  rw [State.stepWrite] at write
  generalize s.q s.front = cj at holds compress write
  generalize s.writer = writer at holds write ⊢
  cases holds with
  | empty => exact Or.inl rfl
  | full => cases compress
  | taken =>
    simp only at compress
    split at compress <;> cases compress
  | started =>
    simp only [if_pos free] at compress
    cases compress
  | running | ready => cases compress
  | last | compressed => cases write
  | @seen task _ isEnd at_ =>
    rcases at_ with rfl | rfl
    · simp only [if_pos isEnd] at write
      cases write
    · exact Or.inr ⟨rfl, task, rfl, isEnd⟩
  | claimed notEnd =>
    simp only [if_neg notEnd] at write
    cases write
  | writing notEnd at_ =>
    rcases at_ with rfl | rfl <;> cases write

theorem ended_of_stuck {task : Task} {writer : WritePc} {i : Fin job.qsize} (isEnd : task.method = [])
    (holds : job.Holds (some task) writer (s.q i)) (stuck : s.stepCompress i = none) : (s.q i).pc = .ended := by
  rw [State.stepCompress] at stuck
  generalize s.q i = cj at holds stuck ⊢
  cases holds with
  | full => cases stuck
  | taken =>
    simp only at stuck
    split at stuck <;> cases stuck
  | last | seen => rfl
  | started notEnd | running notEnd | ready notEnd | compressed notEnd | claimed notEnd | writing notEnd =>
    exact absurd isEnd notEnd

theorem add_of_stuck (stuck : s.stepAdd = none) : s.input = [] ∨ s.waited = false ∧ s.empty = 0 := by
  rw [State.stepAdd] at stuck
  split at stuck
  next nothing => exact Or.inl nothing
  next =>
    split at stuck
    next => split at stuck <;> cases stuck
    next unwaited =>
      split at stuck
      next => cases stuck
      next none => exact Or.inr ⟨by simpa using unwaited, by omega⟩

/-! ## The tasks in their order -/

/-- Tasks that are not the end of input are among the blocks. -/
theorem prefix_blocks {front rest : List Task} (split : job.tasks = front ++ rest)
    (notEnd : ∀ task ∈ front, task.method ≠ []) : front = job.blocks.take front.length := by
  have taken : front = job.tasks.take front.length := by rw [split, List.take_left']; rfl
  rw [tasks, List.take_append] at taken
  rcases Nat.lt_or_ge job.blocks.length front.length with longer | shorter
  · exfalso
    refine notEnd endOfInput ?_ rfl
    rw [taken, List.take_replicate]
    apply List.mem_append_right
    rw [List.mem_replicate]
    exact ⟨by simp only [qsize]; omega, rfl⟩
  · rw [Nat.sub_eq_zero_of_le shorter, List.take_zero, List.append_nil] at taken
    exact taken

/-- The first end of input comes right after the blocks. -/
theorem blocks_eq {front rest : List Task} {task : Task} (split : job.tasks = front ++ task :: rest)
    (notEnd : ∀ task ∈ front, task.method ≠ []) (isEnd : task.method = []) :
    front = job.blocks ∧ task :: rest = List.replicate job.qsize endOfInput := by
  have among := prefix_blocks split notEnd
  have all : job.blocks.length ≤ front.length := by
    by_contra fewer
    have here : job.tasks[front.length]? = some task := by
      rw [split, List.getElem?_append_right le_rfl, Nat.sub_self, List.getElem?_cons_zero]
    rw [tasks, List.getElem?_append_left (by omega)] at here
    exact job.notEnd task (List.mem_of_getElem? here) isEnd
  rw [List.take_of_length_le all] at among
  refine ⟨among, ?_⟩
  rw [tasks, among] at split
  exact (List.append_cancel_left split).symm

/-! ## Runs -/

theorem descends : Descends job.step (fun s => ∃ done queued, Invariant s done queued) State.rank := by
  have spec : ∀ s s' event, (∃ done queued, Invariant s done queued) → job.step s event = some s' →
      (∃ done' queued', Invariant s' done' queued') ∧ s'.rank < s.rank := by
    rintro s s' event ⟨done, queued, inv⟩ stepped
    cases event with
    | add => exact inv.add stepped
    | compress i =>
      obtain ⟨inv', lower⟩ := inv.compress stepped
      exact ⟨⟨done, queued, inv'⟩, lower⟩
    | write => exact inv.write stepped
  exact ⟨fun s s' event inv stepped => (spec s s' event inv stepped).1,
    fun s s' event inv stepped => (spec s s' event inv stepped).2⟩

theorem Invariant.of_run {events : List job.Event} (ran : exec job.step job.start events = some s) :
    ∃ done queued, Invariant s done queued :=
  exec_induction (motive := fun s => ∃ done queued, Invariant s done queued) ⟨[], [], invariant_start⟩
    descends.kept ran

theorem notEnd_of_writing {task : Task} {writer : WritePc} {cj : CJ} (holds : job.Holds (some task) writer cj)
    (here : writer = .write ∨ writer = .finish) : task.method ≠ [] := by
  cases holds with
  | writing notEnd => exact notEnd
  | seen isEnd at_ => rcases at_ with rfl | rfl <;> simp at here
  | full | taken | last | started | running | ready | compressed | claimed => simp at here

theorem sized_cases (writer : WritePc) (queued : List Task) :
    sized writer queued = [] ∨ (writer = .write ∨ writer = .finish) ∧ sized writer queued = queued.take 1 := by
  cases writer <;> simp [sized]

theorem written_cases (writer : WritePc) (queued : List Task) :
    written writer queued = [] ∨ written writer queued = sized writer queued := by
  cases writer <;> simp [sized, written]

/-- What the writer has in hand is no end of input. -/
theorem Invariant.sized_notEnd {done queued : List Task} (inv : Invariant s done queued) :
    ∀ task ∈ done ++ sized s.writer queued, task.method ≠ [] := by
  intro task mem
  rcases List.mem_append.mp mem with old | front
  · exact inv.notEnd task old
  · rcases sized_cases s.writer queued with nothing | ⟨here, first⟩
    · rw [nothing] at front
      cases front
    · rw [first, List.take_one, Option.mem_toList] at front
      have holds := inv.holds_front
      rw [front] at holds
      exact notEnd_of_writing holds here

/-- In every state of every run, the archive has the first blocks in their order, and `csize`
the sizes of these and at most of the one that is being written. -/
theorem archive_ordered {events : List job.Event} (ran : exec job.step job.start events = some s) :
    ∃ written sized, written ≤ sized ∧ sized ≤ written + 1 ∧ sized ≤ job.blocks.length ∧
      s.archive = (job.blocks.take written).flatMap job.compressBlock ∧
      s.csize = (job.blocks.take sized).map fun task => (job.compressBlock task).length := by
  obtain ⟨done, queued, inv⟩ := Invariant.of_run ran
  have split : job.tasks = done ++ sized s.writer queued ++ (queued.drop (sized s.writer queued).length ++ s.input) := by
    rw [inv.tasks]
    rcases sized_cases s.writer queued with nothing | ⟨-, first⟩
    · simp [nothing]
    · cases queued <;> simp [first]
  have among := prefix_blocks split inv.sized_notEnd
  have doneAmong := prefix_blocks (by rw [split, List.append_assoc]) inv.notEnd
  have one : (sized s.writer queued).length ≤ 1 := by
    rcases sized_cases s.writer queued with nothing | ⟨-, first⟩
    · simp [nothing]
    · simp [first]
  refine ⟨(done ++ written s.writer queued).length, (done ++ sized s.writer queued).length, ?_, ?_, ?_, ?_, ?_⟩
  · rcases written_cases s.writer queued with nothing | same
    · simp [nothing]
    · rw [same]
  · simp only [List.length_append]
    omega
  · have length := congrArg List.length among
    rw [List.length_take] at length
    omega
  · rw [inv.archive]
    rcases written_cases s.writer queued with nothing | same
    · rw [nothing, List.append_nil, ← doneAmong]
    · rw [same, ← among]
  · rw [inv.csize, ← among]

/-- Two blocks for two threads. -/
def twoBuffers : CompressJob where
  threads := 2
  last := 1
  positive := Nat.two_pos
  compressBlock task := task.input
  blocks := [⟨[1, 2], [], [], text "1"⟩, ⟨[3], [], [], text "1"⟩]
  notEnd := by decide

/-- The second block is compressed before a thread has seen the first one. -/
def overtaken : List twoBuffers.Event := [.add, .add, .add, .add] ++ List.replicate 5 (.compress 1)

/-- Then the first one is compressed and written, and the size of the second one is recorded. -/
def oneWritten : List twoBuffers.Event :=
  overtaken ++ List.replicate 5 (.compress 0) ++ List.replicate 6 .write

theorem overtaken_archive : (exec twoBuffers.step twoBuffers.start overtaken).map State.archive = some [] := rfl

theorem oneWritten_archive :
    (exec twoBuffers.step twoBuffers.start oneWritten).map (fun s => (s.archive, s.csize)) =
      some ([1, 2], [2, 1]) := rfl

theorem archive_ordered_twoBlocks : ∃ s, exec twoBuffers.step twoBuffers.start oneWritten = some s ∧
    (s.archive, s.csize) = ([1, 2], [2, 1]) ∧ ∃ written sized, written ≤ sized ∧ sized ≤ written + 1 ∧
      sized ≤ twoBuffers.blocks.length ∧
      s.archive = (twoBuffers.blocks.take written).flatMap twoBuffers.compressBlock ∧
      s.csize = (twoBuffers.blocks.take sized).map fun task => (twoBuffers.compressBlock task).length :=
  have ⟨s, ran, archive⟩ := Option.map_eq_some_iff.mp oneWritten_archive
  ⟨s, ran, archive, archive_ordered ran⟩

/-- Everything is written, and every thread has ended. -/
def State.Complete (s : job.State) : Prop :=
  s.archive = job.blocks.flatMap job.compressBlock ∧
    s.csize = (job.blocks.map fun task => (job.compressBlock task).length) ∧
    s.input = [] ∧ s.writer = .ended ∧ ∀ i, (s.q i).pc = .ended

theorem Invariant.complete {done queued : List Task} (inv : Invariant s done queued) (stuck : Stuck job.step s) :
    s.Complete := by
  have compress : ∀ i, s.stepCompress i = none := fun i => stuck (.compress i)
  have free := compressors_of_stuck inv compress
  have space := inv.space
  have fill := add_of_stuck (stuck .add)
  rcases front_of_stuck inv.holds_front free (compress s.front) (stuck .write) with nothing | ⟨ended, task, head, isEnd⟩
  · -- nothing is in the buffers, so `add` has room for what it has still to put in
    exfalso
    rw [List.head?_eq_none_iff.mp nothing] at inv space
    rcases fill with finished | ⟨unwaited, full⟩
    · have tasks := inv.tasks
      rw [finished, List.append_nil, List.append_nil] at tasks
      refine inv.notEnd endOfInput ?_ rfl
      rw [← tasks]
      exact List.mem_append_right _ (List.mem_replicate.mpr ⟨Nat.succ_ne_zero _, rfl⟩)
    · rw [unwaited, full] at space
      cases space
  · obtain ⟨rest, rfl⟩ := exists_of_head? head
    have split : job.tasks = done ++ task :: (rest ++ s.input) := by simpa using inv.tasks
    obtain ⟨all, ends⟩ := blocks_eq split inv.notEnd isEnd
    have count := congrArg List.length ends
    have finished : s.input = [] := by
      rcases fill with finished | ⟨unwaited, full⟩
      · exact finished
      · rw [unwaited, full] at space
        simp only [List.length_cons, List.length_append, List.length_replicate, Bool.toNat_false] at count space
        exact List.length_eq_zero_iff.mp (by omega)
    have csize := inv.csize
    have archive := inv.archive
    rw [ended, all] at csize archive
    refine ⟨by simpa [written] using archive, by simpa [sized] using csize, finished, ended, ?_⟩
    intro i
    rw [finished, List.append_nil] at ends
    have holds := inv.holds i
    rw [ends, List.getElem?_replicate, if_pos (i - s.front).isLt] at holds
    exact ended_of_stuck rfl holds (compress i)

/-- No run goes on for ever, and as long as not everything is written and every thread has
ended, some thread can go on. -/
theorem ends_complete {events : List job.Event} (ran : exec job.step job.start events = some s) :
    events.length ≤ 11 * (job.blocks.length + job.qsize) + 2 ∧
      (Stuck job.step s → s.Complete) ∧
      ∃ more s', exec job.step s more = some s' ∧ Stuck job.step s' ∧ s'.Complete := by
  have inv := Invariant.of_run ran
  refine ⟨?_, ?_, ?_⟩
  · have bound := descends.length_le ⟨[], [], invariant_start⟩ ran
    have rank : job.start.rank = 11 * (job.blocks.length + job.qsize) + 2 := by
      simp [State.rank, start, tasks, CJ.rank, WritePc.rank]
    omega
  · obtain ⟨done, queued, inv⟩ := inv
    exact inv.complete
  · obtain ⟨more, s', continued, stuck⟩ := descends.exists_stuck inv
    obtain ⟨done, queued, inv'⟩ := exec_induction (motive := fun s => ∃ done queued, Invariant s done queued)
      inv descends.kept continued
    exact ⟨more, s', continued, stuck, inv'.complete stuck⟩

theorem ends_complete_twoBlocks : ∃ s, exec twoBuffers.step twoBuffers.start overtaken = some s ∧
    s.archive = [] ∧ overtaken.length ≤ 11 * (twoBuffers.blocks.length + twoBuffers.qsize) + 2 ∧
      (Stuck twoBuffers.step s → s.Complete) ∧
      ∃ more s', exec twoBuffers.step s more = some s' ∧ Stuck twoBuffers.step s' ∧ s'.Complete :=
  have ⟨s, ran, archive⟩ := Option.map_eq_some_iff.mp overtaken_archive
  ⟨s, ran, archive, ends_complete ran⟩

end BackupSuite.Zpaq.CompressJob
