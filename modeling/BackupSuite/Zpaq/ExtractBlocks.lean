import BackupSuite.Zpaq.Extract

/-! # Which file ends up in the output

Other files may write to the output before the first block with a fragment of a file;
its first fragment empties the output, and if nobody else has a fragment in this block or
behind it, the output is the file in the end (`extract_eq`).
-/

namespace BackupSuite.Zpaq

open BackupSuite.Library BackupSuite.CtrlCenter

variable {opens : Nat → Bool} {c : Contents} {b : Block} {size : Nat} {q : Member}

/-! ## Block by block -/

/-- Nothing of the file is written, and the output can be opened. -/
structure Pending (opens : Nat → Bool) (q : Member) (t : Target) : Prop where
  data : t.data q.name = 0
  closed : t.lastdt ≠ some q.name
  mode : t.mode.all opens = true

/-- The file's fragments with numbers below `upto` are written. -/
structure Grown (c : Contents) (q : Member) (content : Bytes) (upto : Nat) (t : Target)
    (spans : List Span) : Prop where
  output : t.output = some (writeSpans 0 content [] spans)
  data : t.data q.name = q.ptr.countP fun j => j < upto
  active : Active q t
  inside : ∀ s ∈ spans, s.offset + s.length ≤ content.length
  covered : ∀ i, (bound : i < q.ptr.length) → q.ptr[i] < upto →
    ((∃ byte ∈ c.frag q.ptr[i], byte ≠ 0) ∨ i + 1 = q.ptr.length) →
    ∃ s ∈ spans, s.offset ≤ ((q.ptr.take i).flatMap c.frag).length ∧
      ((q.ptr.take (i + 1)).flatMap c.frag).length ≤ s.offset + s.length

theorem openFor_lastdt {p : Member} {t t' : Target} (opened : openFor opens p t = some t') :
    t'.lastdt = some p.name := by
  rw [openFor] at opened
  split at opened
  · next isOpen =>
    cases opened
    exact isOpen
  · split at opened
    · split at opened
      · cases opened
        rfl
      · cases opened
    · split at opened
      · cases opened
        rfl
      · cases opened

theorem writeFragments_open {t t' : Target} (opened : openFor opens q t = some t')
    {ptrs : List Nat} (offset : Nat) (inside : ∃ j ∈ ptrs, ¬ (j < b.start ∨ b.start + size ≤ j)) :
    writeFragments opens c b size q ptrs 0 offset t =
      writeFragments opens c b size q ptrs 0 offset t' := by
  induction ptrs generalizing offset with
  | nil =>
    obtain ⟨_, mem, _⟩ := inside
    cases mem
  | cons ptr rest ih =>
    rw [writeFragments, writeFragments]
    split
    · next outside =>
      apply ih
      obtain ⟨j, mem, within⟩ := inside
      cases mem with
      | head => exact (within outside).elim
      | tail _ mem => exact ⟨j, mem, within⟩
    · have again : openFor opens q t' = some t' := by rw [openFor, if_pos (openFor_lastdt opened)]
      rw [opened, again]

/-! ### Other files -/

section Other

variable {p : Member} (other : p.name ≠ q.name)
  (readable : p.attr % 256 = 117 → opens (p.attr / 256) = true)

include other in
theorem Pending.openFor {t t' : Target} (pending : Pending opens q t)
    (opened : openFor opens p t = some t') : Pending opens q t' := by
  have last := openFor_lastdt opened
  have closed : t'.lastdt ≠ some q.name := by
    rw [last]
    exact fun same => other (Option.some.inj same)
  rw [Zpaq.openFor] at opened
  split at opened
  · cases opened
    exact pending
  · split at opened
    · split at opened
      · cases opened
        exact ⟨pending.data, closed, pending.mode⟩
      · cases opened
    · split at opened
      · cases opened
        exact ⟨pending.data, closed, pending.mode⟩
      · cases opened

include other readable in
theorem Pending.writeGroup {t : Target} (pending : Pending opens q t) (offset : Nat)
    (bytes : Bytes) (count : Nat) (last : Bool) :
    Pending opens q (writeGroup p offset bytes count last t) where
  data := by
    rw [Zpaq.writeGroup]
    simp only [if_neg (Ne.symm other)]
    exact pending.data
  closed := by
    rw [Zpaq.writeGroup]
    simp only
    split
    · simp
    · exact pending.closed
  mode := by
    rw [Zpaq.writeGroup]
    simp only
    split
    · next given => exact readable given.2
    · exact pending.mode

include other readable in
theorem Pending.writeFragments {t : Target} (pending : Pending opens q t) (ptrs : List Nat)
    (skip offset : Nat) : Pending opens q (writeFragments opens c b size p ptrs skip offset t) := by
  induction ptrs generalizing skip offset t with
  | nil => cases skip <;> exact pending
  | cons ptr rest ih =>
    cases skip with
    | succ skip => exact ih pending skip offset
    | zero =>
      rw [Zpaq.writeFragments]
      split
      · exact ih pending 0 _
      · split
        · exact ⟨pending.data, by simp, pending.mode⟩
        · next opened =>
          exact ih ((pending.openFor other opened).writeGroup other readable _ _ _ _) _ _

include other readable in
theorem Pending.extractMember {t : Target} (pending : Pending opens q t) :
    Pending opens q (extractMember opens c b size t p) := by
  rw [Zpaq.extractMember]
  split
  · exact pending
  · exact pending.writeFragments other readable _ _ _

end Other

/-! ### The file itself -/

theorem le_foldl_max (size : Nat) (f : Nat → Nat) (l : List Nat) :
    size ≤ l.foldl (fun size j => max size (f j)) size ∧
      ∀ j ∈ l, f j ≤ l.foldl (fun size j => max size (f j)) size := by
  induction l generalizing size with
  | nil => exact ⟨Nat.le_refl _, fun _ mem => by cases mem⟩
  | cons k l ih =>
    obtain ⟨first, later⟩ := ih (max size (f k))
    refine ⟨Nat.le_trans (Nat.le_max_left _ _) first, fun j mem => ?_⟩
    cases mem with
    | head => exact Nat.le_trans (Nat.le_max_right _ _) first
    | tail _ mem => exact later j mem

theorem foldl_max_le {size bound : Nat} {f : Nat → Nat} {l : List Nat} (start : size ≤ bound)
    (each : ∀ j ∈ l, f j ≤ bound) : l.foldl (fun size j => max size (f j)) size ≤ bound := by
  induction l generalizing size with
  | nil => exact start
  | cons k l ih =>
    exact ih (Nat.max_le.mpr ⟨start, each k List.mem_cons_self⟩)
      fun j mem => each j (List.mem_cons_of_mem _ mem)

theorem lt_blockSize {files : List Member} {p : Member} (mem : p ∈ files) {j : Nat}
    (points : j ∈ p.ptr) (has : b.Has j) : j < b.start + blockSize files b := by
  have inside : j ∈ (files.flatMap Member.ptr).filter fun j => b.Has j :=
    List.mem_filter.mpr ⟨List.mem_flatMap.mpr ⟨p, mem, points⟩, by simpa using has⟩
  have le := (le_foldl_max 0 (fun j => j - b.start + 1) _).2 j inside
  have low := has.1
  rw [blockSize]
  omega

theorem blockSize_le (files : List Member) (b : Block) : blockSize files b ≤ b.frags.length := by
  refine foldl_max_le (Nat.zero_le _) fun j mem => ?_
  have has : b.Has j := by simpa using (List.mem_filter.mp mem).2
  obtain ⟨low, high⟩ := has
  omega

theorem countP_block (b : Block) (ptrs : List Nat) :
    ptrs.countP (fun j => j < b.start + b.frags.length) =
      ptrs.countP (fun j => j < b.start) + ptrs.countP fun j => b.Has j := by
  induction ptrs with
  | nil => rfl
  | cons j ptrs ih =>
    have has : b.Has j ↔ b.start ≤ j ∧ j < b.start + b.frags.length := Iff.rfl
    simp only [List.countP_cons, ih, decide_eq_true_eq, has]
    split_ifs <;> omega

theorem Grown.write (opens : Nat → Bool) {files : List Member} (mem : q ∈ files)
    (stored : b.Stored c) {t : Target} {spans : List Span}
    (grown : Grown c q (q.ptr.flatMap c.frag) b.start t spans) :
    ∃ spans', Grown c q (q.ptr.flatMap c.frag) (b.start + b.frags.length)
      (writeFragments opens c b (blockSize files b) q q.ptr 0 0 t) spans' := by
  have counts := countP_block b q.ptr
  have most : q.ptr.countP (fun j => j < b.start + b.frags.length) ≤ q.ptr.length :=
    List.countP_le_length
  have reading : Reading c b (blockSize files b) q (q.ptr.flatMap c.frag) q.ptr 0
      (writeSpans 0 (q.ptr.flatMap c.frag) [] spans) t :=
    { sized := fun j points has => lt_blockSize mem points has
      rest := rfl
      upto := Nat.zero_add _
      output := grown.output
      active := grown.active
      data := by
        rw [grown.data]
        omega }
  obtain ⟨more, written⟩ := writeFragments_spec opens stored (blockSize_le files b) q.ptr reading
  refine ⟨spans ++ more, ?_, ?_, written.active, ?_, ?_⟩
  · rw [writeSpans_append]
    exact written.output
  · rw [written.data, grown.data, counts]
  · intro s mem
    cases List.mem_append.mp mem with
    | inl before => exact grown.inside s before
    | inr now => exact written.inside s now
  · intro i bound below which
    -- covered by the spans of earlier blocks, or by those of this one
    by_cases before : q.ptr[i] < b.start
    · obtain ⟨s, mem, covers⟩ := grown.covered i bound before which
      exact ⟨s, List.mem_append_left _ mem, covers⟩
    · obtain ⟨s, mem, covers⟩ := written.covered i bound ⟨by omega, below⟩ which
      exact ⟨s, List.mem_append_right _ mem, by simpa using covers⟩

theorem Grown.extractMember (opens : Nat → Bool) {files : List Member} (mem : q ∈ files)
    (stored : b.Stored c) {t : Target} {spans : List Span}
    (grown : Grown c q (q.ptr.flatMap c.frag) b.start t spans) (points : ∃ j ∈ q.ptr, b.Has j) :
    ∃ spans', Grown c q (q.ptr.flatMap c.frag) (b.start + b.frags.length)
      (extractMember opens c b (blockSize files b) t q) spans' := by
  have incomplete : ¬ q.ptr.length ≤ t.data q.name := by
    rw [grown.data]
    intro all
    obtain ⟨j, inside, has⟩ := points
    have below := List.countP_eq_length.mp (Nat.le_antisymm List.countP_le_length all) j inside
    simp only [decide_eq_true_eq] at below
    have low := has.1
    omega
  rw [Zpaq.extractMember, if_neg incomplete]
  exact grown.write opens mem stored

theorem Pending.extractOwn {files : List Member} (mem : q ∈ files) (stored : b.Stored c)
    {t : Target} (pending : Pending opens q t) (points : ∃ j ∈ q.ptr, b.Has j)
    (first : ∀ j ∈ q.ptr, b.start ≤ j) :
    ∃ spans, Grown c q (q.ptr.flatMap c.frag) (b.start + b.frags.length)
      (Zpaq.extractMember opens c b (blockSize files b) t q) spans := by
  obtain ⟨j, inside, has⟩ := points
  have positive : 0 < q.ptr.length := List.length_pos_of_mem inside
  have incomplete : ¬ q.ptr.length ≤ t.data q.name := by
    rw [pending.data]
    omega
  have opened : Zpaq.openFor opens q t = some { t with lastdt := some q.name, output := some [] } := by
    rw [Zpaq.openFor, if_neg pending.closed, if_pos pending.data, if_pos pending.mode]
  have within : ∃ j ∈ q.ptr, ¬ (j < b.start ∨ b.start + blockSize files b ≤ j) := by
    have high := lt_blockSize mem inside has
    have low := has.1
    exact ⟨j, inside, by omega⟩
  rw [Zpaq.extractMember, if_neg incomplete, writeFragments_open opened 0 within]
  have none : q.ptr.countP (fun j => j < b.start) = 0 := by
    rw [List.countP_eq_zero]
    intro j mem below
    have low := first j mem
    simp only [decide_eq_true_eq] at below
    omega
  -- just opened, and no fragment of the file lies in front of the block
  have empty : Grown c q (q.ptr.flatMap c.frag) b.start
      { t with lastdt := some q.name, output := some [] } [] :=
    { output := rfl
      data := by
        rw [none]
        exact pending.data
      active := Or.inl rfl
      inside := fun _ mem => by cases mem
      covered := fun i bound below => by
        have low := first _ (List.getElem_mem bound)
        omega }
  exact empty.write opens mem stored

/-! ### A block, and all of them -/

/-- Where the file's first fragment is and behind it, no other file has any; and what
the others leave can be opened. -/
structure Isolated (opens : Nat → Bool) (c : Contents) (files : List Member) (q : Member) :
    Prop where
  mem : q ∈ files
  nodup : files.Nodup
  names : ∀ p ∈ files, p ≠ q → p.name ≠ q.name
  readable : ∀ p ∈ files, p ≠ q → p.attr % 256 = 117 → opens (p.attr / 256) = true
  alone : ∀ b ∈ c.block, (∃ j ∈ q.ptr, j < b.start + b.frags.length) →
    ∀ p ∈ files, p ≠ q → ∀ j ∈ p.ptr, ¬ b.Has j

/-- Where the extraction is when it comes to the fragments from `upto` on. -/
def Progress (opens : Nat → Bool) (c : Contents) (q : Member) (upto : Nat) (t : Target) : Prop :=
  (Pending opens q t ∧ ∀ j ∈ q.ptr, upto ≤ j) ∨
    ∃ spans, Grown c q (q.ptr.flatMap c.frag) upto t spans ∧ ∃ j ∈ q.ptr, j < upto

theorem Pending.foldl {files : List Member} {t : Target} (pending : Pending opens q t)
    (names : ∀ p ∈ files, p.name ≠ q.name)
    (readable : ∀ p ∈ files, p.attr % 256 = 117 → opens (p.attr / 256) = true) :
    Pending opens q (files.foldl (Zpaq.extractMember opens c b size) t) := by
  induction files generalizing t with
  | nil => exact pending
  | cons p files ih =>
    have next : Pending opens q (Zpaq.extractMember opens c b size t p) :=
      pending.extractMember (names p List.mem_cons_self) (readable p List.mem_cons_self)
    exact ih next (fun p mem => names p (List.mem_cons_of_mem _ mem))
      fun p mem => readable p (List.mem_cons_of_mem _ mem)

theorem eq_singleton_of_nodup {α : Type*} {l : List α} {a : α} (nodup : l.Nodup) (mem : a ∈ l)
    (all : ∀ x ∈ l, x = a) : l = [a] := by
  cases l with
  | nil => cases mem
  | cons x l =>
    have first := all x List.mem_cons_self
    subst first
    cases l with
    | nil => rfl
    | cons y l =>
      have second := all y (List.mem_cons_of_mem _ List.mem_cons_self)
      subst second
      simp at nodup

theorem any_has_iff {p : Member} : (p.ptr.any fun j => b.Has j) = true ↔ ∃ j ∈ p.ptr, b.Has j := by
  simp [List.any_eq_true]

/-- A block with a fragment of the file has none of the others. -/
theorem Isolated.filter_eq_own {files : List Member} (isolated : Isolated opens c files q)
    (inArchive : b ∈ c.block) (points : ∃ j ∈ q.ptr, b.Has j) :
    (files.filter fun p => p.ptr.any fun j => b.Has j) = [q] := by
  obtain ⟨j, mem, has⟩ := points
  have own : q ∈ files.filter fun p => p.ptr.any fun j => b.Has j :=
    List.mem_filter.mpr ⟨isolated.mem, any_has_iff.mpr ⟨j, mem, has⟩⟩
  apply eq_singleton_of_nodup (isolated.nodup.filter _) own
  intro p inFilter
  obtain ⟨inside, pointing⟩ := List.mem_filter.mp inFilter
  by_contra other
  obtain ⟨i, memOther, hasOther⟩ := any_has_iff.mp pointing
  exact isolated.alone b inArchive ⟨j, mem, has.2⟩ p inside other i memOther hasOther

/-- Once the file has begun, a block without its fragments has none at all. -/
theorem Isolated.filter_eq_nil {files : List Member} (isolated : Isolated opens c files q)
    (inArchive : b ∈ c.block) (reached : ∃ j ∈ q.ptr, j < b.start + b.frags.length)
    (points : ¬ ∃ j ∈ q.ptr, b.Has j) : (files.filter fun p => p.ptr.any fun j => b.Has j) = [] := by
  rw [List.filter_eq_nil_iff]
  intro p inside pointing
  by_cases same : p = q
  · exact points (same ▸ any_has_iff.mp pointing)
  · obtain ⟨j, mem, has⟩ := any_has_iff.mp pointing
    exact isolated.alone b inArchive reached p inside same j mem has

/-- A block without the file's fragments covers nothing of it. -/
theorem Grown.skip {whole : Bytes} {t : Target} {spans : List Span} (grown : Grown c q whole b.start t spans)
    (points : ¬ ∃ j ∈ q.ptr, b.Has j) : Grown c q whole (b.start + b.frags.length) t spans where
  output := grown.output
  data := by
    have none : q.ptr.countP (fun j => b.Has j) = 0 :=
      List.countP_eq_zero.mpr fun j mem has => points ⟨j, mem, by simpa using has⟩
    rw [countP_block, none]
    exact grown.data
  active := grown.active
  inside := grown.inside
  covered i bound below := by
    refine grown.covered i bound ?_
    by_contra high
    exact points ⟨_, List.getElem_mem bound, by omega, below⟩

theorem Isolated.extractBlock {files : List Member} (isolated : Isolated opens c files q)
    (inArchive : b ∈ c.block) (stored : b.Stored c) {t : Target}
    (progress : Progress opens c q b.start t) :
    Progress opens c q (b.start + b.frags.length) (extractBlock opens c files t b) := by
  rw [Zpaq.extractBlock]
  by_cases points : ∃ j ∈ q.ptr, b.Has j
  · -- the file is the only one in this block
    have reached : ∃ j ∈ q.ptr, j < b.start + b.frags.length := by
      obtain ⟨j, mem, has⟩ := points
      exact ⟨j, mem, has.2⟩
    rw [isolated.filter_eq_own inArchive points]
    right
    rcases progress with ⟨pending, first⟩ | ⟨spans, grown, -⟩
    · obtain ⟨spans, grown⟩ := pending.extractOwn isolated.mem stored points first
      exact ⟨spans, grown, reached⟩
    · obtain ⟨spans, grown⟩ := grown.extractMember opens isolated.mem stored points
      exact ⟨spans, grown, reached⟩
  · rcases progress with ⟨pending, first⟩ | ⟨spans, grown, begun⟩
    · -- nothing of it yet: the others may write
      left
      have others : ∀ p ∈ files.filter (fun p => p.ptr.any fun j => b.Has j), p ∈ files ∧ p ≠ q := by
        intro p mem
        obtain ⟨inside, pointing⟩ := List.mem_filter.mp mem
        refine ⟨inside, fun same => points ?_⟩
        rw [← same]
        exact any_has_iff.mp pointing
      refine ⟨pending.foldl (fun p mem => isolated.names p (others p mem).1 (others p mem).2)
        fun p mem => isolated.readable p (others p mem).1 (others p mem).2, fun j mem => ?_⟩
      by_contra below
      exact points ⟨j, mem, first j mem, by omega⟩
    · -- it has begun, so nobody writes
      right
      have reached : ∃ j ∈ q.ptr, j < b.start + b.frags.length := by
        obtain ⟨j, mem, low⟩ := begun
        exact ⟨j, mem, by omega⟩
      rw [isolated.filter_eq_nil inArchive reached points]
      exact ⟨spans, grown.skip points, reached⟩

theorem Isolated.foldl {files : List Member} (isolated : Isolated opens c files q)
    {l : List (List Bytes)} {start : Nat} (inArchive : ∀ b ∈ layout start l, b ∈ c.block)
    (stored : ∀ b ∈ layout start l, b.Stored c) {t : Target}
    (progress : Progress opens c q start t) :
    Progress opens c q (start + l.flatten.length)
      ((layout start l).foldl (Zpaq.extractBlock opens c files) t) := by
  induction l generalizing start t with
  | nil => exact progress
  | cons frags l ih =>
    rw [List.flatten_cons, List.length_append, ← Nat.add_assoc]
    have next := isolated.extractBlock (inArchive _ List.mem_cons_self)
      (stored _ List.mem_cons_self) progress
    exact ih (fun b mem => inArchive b (List.mem_cons_of_mem _ mem))
      (fun b mem => stored b (List.mem_cons_of_mem _ mem)) next

/-! ## The whole file -/

theorem exists_fragment (c : Contents) (ptrs : List Nat) {i : Nat}
    (bound : i < (ptrs.flatMap c.frag).length) :
    ∃ k, ∃ inside : k < ptrs.length, ((ptrs.take k).flatMap c.frag).length ≤ i ∧
      i < ((ptrs.take (k + 1)).flatMap c.frag).length ∧
      (ptrs.flatMap c.frag).getD i 0 ∈ c.frag ptrs[k] := by
  induction ptrs generalizing i with
  | nil => simp at bound
  | cons ptr ptrs ih =>
    rw [List.flatMap_cons, List.length_append] at bound
    by_cases here : i < (c.frag ptr).length
    · refine ⟨0, by simp, by simp, by simpa using here, ?_⟩
      simp [List.getElem?_append_left here, List.getElem?_eq_getElem here]
    · obtain ⟨k, inside, low, high, mem⟩ := ih (show i - (c.frag ptr).length < _ by omega)
      refine ⟨k + 1, by simpa using inside, ?_, ?_, ?_⟩
      · rw [List.take_succ_cons, List.flatMap_cons, List.length_append]
        omega
      · rw [List.take_succ_cons, List.flatMap_cons, List.length_append]
        omega
      · simpa [List.getElem?_append_right (Nat.le_of_not_lt here)] using mem

theorem Grown.covers {content : Bytes} {t : Target} {upto : Nat} {spans : List Span}
    (grown : Grown c q content upto t spans) {front back : List Nat} {k : Nat}
    (split : q.ptr = front ++ k :: back) (below : k < upto)
    (which : (∃ byte ∈ c.frag k, byte ≠ 0) ∨ back = []) :
    ∃ s ∈ spans, s.offset ≤ (front.flatMap c.frag).length ∧
      (front.flatMap c.frag).length + (c.frag k).length ≤ s.offset + s.length := by
  have bound : front.length < q.ptr.length := by
    rw [split, List.length_append, List.length_cons]
    omega
  have here : q.ptr[front.length] = k := by simp [split]
  have upToHere : q.ptr.take front.length = front := by rw [split, List.take_left]
  have next : q.ptr.take (front.length + 1) = front ++ [k] := by
    rw [split, List.take_length_add_append, List.take_succ_cons, List.take_zero]
  have covered := grown.covered front.length bound (by rwa [here]) (by
    rw [here]
    refine which.imp id fun last => ?_
    rw [split, last, List.length_append, List.length_singleton])
  rwa [upToHere, next, List.flatMap_append, List.length_append, List.flatMap_singleton] at covered

theorem Grown.complete {t : Target} {upto : Nat} {spans : List Span}
    (grown : Grown c q (q.ptr.flatMap c.frag) upto t spans) (all : ∀ j ∈ q.ptr, j < upto)
    (ends : ∀ front z, q.ptr.map c.frag = front ++ [z, []] → ∃ byte ∈ z, byte ≠ 0) :
    t.output = some (q.ptr.flatMap c.frag) := by
  rw [grown.output]
  congr 1
  apply writeSpans_eq 0 grown.inside
  · intro i some
    have bound : i < (q.ptr.flatMap c.frag).length := by
      by_contra outside
      apply some
      rw [List.getD_eq_getElem?_getD, List.getElem?_eq_none (by omega)]
      rfl
    obtain ⟨k, inside, low, high, mem⟩ := exists_fragment c q.ptr bound
    obtain ⟨s, written, first, last⟩ := grown.covered k inside (all _ (List.getElem_mem inside))
      (Or.inl ⟨_, mem, some⟩)
    exact ⟨s, written, by omega, by omega⟩
  · -- the span with the last fragment, or with the one before an empty one
    rcases List.eq_nil_or_concat q.ptr with none | ⟨front, k, split⟩
    · exact Or.inl (by rw [none]; rfl)
    rw [List.concat_eq_append] at split
    have whole : (q.ptr.flatMap c.frag).length =
        (front.flatMap c.frag).length + (c.frag k).length := by
      rw [split, List.flatMap_append, List.length_append, List.flatMap_singleton]
    by_cases some : c.frag k = []
    · rcases List.eq_nil_or_concat front with none | ⟨before, z, again⟩
      · left
        rw [split, none, List.nil_append, List.flatMap_singleton, some]
      · rw [List.concat_eq_append] at again
        have split' : q.ptr = before ++ z :: [k] := by rw [split, again, List.append_assoc]; rfl
        obtain ⟨byte, mem, nonzero⟩ := ends (before.map c.frag) (c.frag z) (by simp [split', some])
        obtain ⟨s, written, low, high⟩ := grown.covers split' (all z (by simp [split']))
          (Or.inl ⟨byte, mem, nonzero⟩)
        have positive := List.length_pos_of_mem mem
        have inside := grown.inside s written
        rw [again, some, List.flatMap_append, List.length_append, List.flatMap_singleton,
          List.length_nil] at whole
        exact Or.inr ⟨s, written, by omega, by omega⟩
    · obtain ⟨s, written, low, high⟩ := grown.covers split (all k (by simp [split])) (Or.inr rfl)
      have positive := List.length_pos_iff.mpr some
      have inside := grown.inside s written
      exact Or.inr ⟨s, written, by omega, by omega⟩

/-- The extraction ends with the isolated file in the output. -/
theorem extract_eq {archive : Archive}
    (isolated : Isolated opens (contents archive)
      (labelled (contents archive)) q)
    (some : q.ptr ≠ [])
    (inRange : ∀ j ∈ q.ptr, 0 < j ∧ j < (contents archive).ht.length)
    (ends : ∀ front z, q.ptr.map (contents archive).frag = front ++ [z, []] →
      ∃ byte ∈ z, byte ≠ 0) :
    extract opens archive = Option.some (q.ptr.flatMap (contents archive).frag) := by
  have start : Progress opens (contents archive) q 1 .start :=
    Or.inl ⟨⟨rfl, by simp [Target.start], rfl⟩, fun j mem => (inRange j mem).1⟩
  have progress := isolated.foldl (fun b mem => mem) (read_archive_stored archive) start
  rcases progress with ⟨_, none⟩ | ⟨spans, grown, -⟩
  · obtain ⟨j, mem⟩ := List.exists_mem_of_ne_nil _ some
    have low := none j mem
    have high := (inRange j mem).2
    simp only [read_archive, List.length_cons] at high
    omega
  · refine grown.complete (fun j mem => ?_) ends
    have high := (inRange j mem).2
    simp only [read_archive, List.length_cons] at high
    omega

end BackupSuite.Zpaq
