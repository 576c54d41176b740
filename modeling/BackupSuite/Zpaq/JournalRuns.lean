import BackupSuite.Zpaq.Dates
import BackupSuite.Zpaq.JournalContents
import BackupSuite.Zpaq.OutputArchive

/-! # Adds that are killed

The end of `add` writes the update with the size -1 in its header, and the size last.  An
add can be killed at any time; what it has written is rolled back by the next one that
reads the archive.  `Runs` are all sequences of adds from no archive on, and
`run_contents` says that the archive always reads as the updates of the adds that were
complete.  The one time to be killed that is left out is before the rest of an older
update behind a shorter new one is cut off.
-/

namespace BackupSuite.Zpaq.Journal

open BackupSuite.Library BackupSuite.CtrlCenter

/-- How far an add comes. -/
inductive Ending where
  /-- so many bytes of the update have been put in -/
  | killed (puts : Nat)
  /-- all of them are in the file, but not the size in the header -/
  | unfinished
  /-- the file has not been truncated yet -/
  | closed
  | finished
deriving DecidableEq, Repr

structure Event where
  options : Options
  date : Int
  update : Update
  method : Nat → Bytes
  ending : Ending

namespace Event

variable (lib : Libzpaq) (e : Event) (st : ReadState)

def addition : Addition := ⟨(adjustDate st.back.lastdate e.date).toNat, e.update, e.method⟩

def opened (disk : Bytes) : OutputArchive := (OutputArchive.openArchive disk).seekSet st.block_offset

/-- The update as it is put in. -/
def bytes : Bytes := (e.addition st).bytes lib st.ht.length (-1)

/-- The update is in the file, and the next thing is its header. -/
def atHeader (disk : Bytes) : OutputArchive := ((opened st disk).write (e.bytes lib st)).seekSet st.block_offset

def closed (disk : Bytes) : OutputArchive :=
  ((e.atHeader lib st disk).write
    (writeJidacHeader lib (e.addition st).date ((e.addition st).data lib st.ht.length).length st.ht.length)).seekEnd

/-- Truncates an empty update, and what is behind a shorter one. -/
def truncated (disk : Bytes) : Bytes :=
  let header_pos := st.block_offset
  let archive_end := ((opened st disk).write (e.bytes lib st)).tell
  let archive_size := (e.closed lib st disk).tell
  let archive_end := if e.update.index = [] ∧ archive_end - header_pos = 104 then header_pos else archive_end
  if archive_end < archive_size then (e.closed lib st disk).disk.take archive_end else (e.closed lib st disk).disk

/-- The archive that an add leaves. -/
def leave (disk : Bytes) : Bytes :=
  match e.ending with
  | .killed puts => ((opened st disk).write ((e.bytes lib st).take puts)).disk
  | .unfinished => (e.atHeader lib st disk).disk
  | .closed => (e.closed lib st disk).disk
  | .finished => e.truncated lib st disk

/-- The date, of the clock or of `-until`, is one from 1970 to 2038, the archive is not behind 2038, the
update fits the format, and nothing is behind an update that is not truncated. -/
structure Possible (disk : Bytes) : Prop where
  date : ∃ t : Nat, t < 2147483648 ∧ e.date = decimal_time t
  early : st.back.lastdate < decimal_time 2147483647
  fits : (e.addition st).Fits lib st.ht.length
  closed : e.ending = .closed → disk.length ≤ st.block_offset + (e.bytes lib st).length

end Event

/-- Adds one after the other, from no archive on. -/
inductive Runs (lib : Libzpaq) : List Event → Bytes → Prop where
  | start : Runs lib [] []
  | add {events : List Event} {disk : Bytes} {e : Event} {st : ReadState} (before : Runs lib events disk)
      (read : read_archive lib e.options disk = some st) (possible : e.Possible lib st disk) :
      Runs lib (events ++ [e]) (e.leave lib st disk)

/-- The updates that `-until` says, by its number or its date. -/
def upTo (version : Int) (adds : List Addition) : List Addition :=
  if version < 19000000000000 then adds.take version.toNat else adds.filter fun a => (a.date : Int) ≤ version

/-- The updates that an archive has after these adds: those up to `-until`, and the new one if it is
complete. -/
inductive History : List Event → List Addition → Prop where
  | start : History [] []
  | nothing {events : List Event} {done : List Addition} {e : Event} {puts : Nat} (before : History events done)
      (killed : e.ending = .killed puts) : History (events ++ [e]) done
  | rolledBack {events : List Event} {done : List Addition} {e : Event} (before : History events done)
      (unfinished : e.ending ≠ .closed ∧ e.ending ≠ .finished) :
      History (events ++ [e]) (upTo e.options.version done)
  | added {events : List Event} {done : List Addition} {e : Event} {a : Addition} (before : History events done)
      (complete : e.ending = .closed ∨ e.ending = .finished) (update : a.update = e.update)
      (date : e.date ≤ a.date) (late : a.date < 30000000000000)
      (some : e.ending = .closed ∨ e.update ≠ ⟨[], []⟩) :
      History (events ++ [e]) (upTo e.options.version done ++ [a])
  | empty {events : List Event} {done : List Addition} {e : Event} (before : History events done)
      (finished : e.ending = .finished) (empty : e.update = ⟨[], []⟩) :
      History (events ++ [e]) (upTo e.options.version done)

/-- The archive has these updates, and behind them at most one that is not complete. -/
structure Holds (lib : Libzpaq) (disk : Bytes) (done : List Addition) : Prop where
  disk : ∃ rest, disk = writeAll lib 1 done ++ rest ∧ Ends lib rest
  fits : AllFit lib 1 done
  times : ∃ times : List Nat, done.map (fun a => (a.date : Int)) = times.map (fun t : Nat => decimal_time t) ∧
    times.Pairwise (· < ·) ∧ ∀ t ∈ times, t < 2147483648

variable {lib : Libzpaq} {options : Options} {disk : Bytes} {done : List Addition} {e : Event} {st : ReadState}

/-! ## The updates up to `-until` -/

/-- As the dates increase, the updates up to a date are those before the first one behind it. -/
theorem included_eq (options : Options) (k : Nat) {adds : List Addition}
    (dates : (adds.map Addition.date).Pairwise (· < ·)) :
    included options (k + 1) adds =
      if options.version < 19000000000000 then adds.take (options.version.toNat - k)
      else adds.filter fun a => (a.date : Int) ≤ options.version := by
  induction adds generalizing k with
  | nil => simp [included]
  | cons a adds ih =>
    rw [List.map_cons, List.pairwise_cons] at dates
    rw [included, ih (k + 1) dates.2, Options.behind]
    by_cases number : options.version < 19000000000000
    · have later : ¬ 19000000000000 ≤ options.version := by omega
      simp only [number, later, decide_true, decide_false, Bool.true_and, Bool.false_and, Bool.or_false, if_true,
        decide_eq_true_eq]
      split
      next behind =>
        rw [Nat.sub_eq_zero_of_le (by omega), List.take_zero]
      next ahead =>
        obtain ⟨n, more⟩ : ∃ n, options.version.toNat - k = n + 1 := ⟨options.version.toNat - (k + 1), by omega⟩
        rw [more, List.take_succ_cons, show options.version.toNat - (k + 1) = n by omega]
    · have later : 19000000000000 ≤ options.version := by omega
      simp only [number, later, decide_true, decide_false, Bool.true_and, Bool.false_and, Bool.false_or, if_false,
        decide_eq_true_eq]
      split
      next behind =>
        -- all that follow are behind it too
        symm
        rw [List.filter_eq_nil_iff]
        intro b mem
        rw [decide_eq_true_eq]
        rcases List.mem_cons.mp mem with rfl | mem
        · omega
        · have after := dates.1 b.date (List.mem_map_of_mem mem)
          omega
      next ahead => rw [List.filter_cons_of_pos (by rw [decide_eq_true_eq]; omega)]

theorem included_upTo (options : Options) {adds : List Addition}
    (dates : (adds.map Addition.date).Pairwise (· < ·)) : included options 1 adds = upTo options.version adds :=
  included_eq options 0 dates

theorem included_prefix (options : Options) (versions : Nat) (adds : List Addition) :
    included options versions adds <+: adds := by
  induction adds generalizing versions with
  | nil => exact List.prefix_rfl
  | cons a adds ih =>
    rw [included]
    split
    · exact List.nil_prefix
    · exact (List.prefix_cons_inj a).mpr (ih (versions + 1))

theorem allFit_append {htsize : Nat} {front back : List Addition} :
    AllFit lib htsize (front ++ back) ↔
      AllFit lib htsize front ∧ AllFit lib (htsize + (front.flatMap fun a => a.update.blocks.flatten).length) back := by
  induction front generalizing htsize with
  | nil => simp [AllFit]
  | cons a front ih => simp [AllFit, ih, Nat.add_assoc, and_assoc]

/-- What is behind the updates up to `-until` does not matter. -/
theorem Holds.kept (holds : Holds lib disk done) (options : Options) :
    AllFit lib 1 (included options 1 done) ∧ (∃ more, disk = writeAll lib 1 (included options 1 done) ++ more) ∧
      ∃ times : List Nat, (included options 1 done).map (fun a => (a.date : Int)) =
          times.map (fun t : Nat => decimal_time t) ∧
        times.Pairwise (· < ·) ∧ ∀ t ∈ times, t < 2147483648 := by
  obtain ⟨back, split⟩ := included_prefix options 1 done
  obtain ⟨rest, bytes, -⟩ := holds.disk
  obtain ⟨times, dates, ordered, early⟩ := holds.times
  have fits := holds.fits
  rw [← split, allFit_append] at fits
  rw [← split, writeAll_append, List.append_assoc] at bytes
  refine ⟨fits.1, ⟨_, bytes⟩, times.take (included options 1 done).length, ?_, ?_, ?_⟩
  · rw [List.map_take, ← dates, ← List.map_take, ← List.prefix_iff_eq_take.mp ⟨back, split⟩]
  · exact ordered.sublist (List.take_sublist _ _)
  · exact fun t mem => early t (List.mem_of_mem_take mem)

theorem Holds.ordered (holds : Holds lib disk done) : (done.map Addition.date).Pairwise (· < ·) := by
  obtain ⟨times, dates, ordered, small⟩ := holds.times
  have increasing : (times.map fun t : Nat => decimal_time t).Pairwise (· < ·) :=
    List.pairwise_map.mpr (ordered.imp_of_mem fun _ mem before => decimal_time_lt before (by have := small _ mem; omega))
  rw [← dates, List.pairwise_map] at increasing
  exact List.pairwise_map.mpr (increasing.imp fun before => Int.ofNat_lt.mp before)

theorem Holds.reads (stores : lib.Stores) (holds : Holds lib disk done) (options : Options) :
    ∃ st, read_archive lib options disk = some st ∧ Reads lib options disk (upTo options.version done) st := by
  rw [← included_upTo options holds.ordered]
  obtain ⟨rest, rfl, ends⟩ := holds.disk
  exact read_archive_writeAll stores holds.fits ends

/-! ## The date of the next update -/

/-- The date of an update that fits is behind the dates of those that are kept. -/
theorem next_time (reads : Reads lib options disk done st) (possible : e.Possible lib st disk) {times : List Nat}
    (dates : done.map (fun a => (a.date : Int)) = times.map (fun t : Nat => decimal_time t))
    (ordered : times.Pairwise (· < ·)) (small : ∀ t ∈ times, t < 2147483648) :
    ∃ t : Nat, t < 2147483648 ∧ ((e.addition st).date : Int) = decimal_time t ∧ (∀ s ∈ times, s < t) ∧
      e.date ≤ (e.addition st).date := by
  obtain ⟨now, clock, date⟩ := possible.date
  have positive := possible.fits.early
  have back : ((e.addition st).date : Int) = adjustDate st.back.lastdate e.date := by
    simp only [Event.addition] at positive ⊢
    omega
  have lastdate := reads.lastdate
  rw [back, date]
  -- the times first, then the dates
  suffices ∃ t : Nat, t < 2147483648 ∧ adjustDate st.back.lastdate (decimal_time now) = decimal_time t ∧
      (∀ s ∈ times, s < t) ∧ now ≤ t by
    obtain ⟨t, bound, same, later, clock⟩ := this
    exact ⟨t, bound, same, later, by rw [same]; exact decimal_time_le clock (by omega)⟩
  rcases List.eq_nil_or_concat times with rfl | ⟨earlier, last, rfl⟩
  · -- the first update takes the date as it is
    have empty : done = [] := by simpa using dates
    have first := decimal_time_pos (t := now) (by omega)
    rw [empty] at lastdate
    refine ⟨now, clock, ?_, by simp, Nat.le_refl _⟩
    rw [adjustDate, lastdate]
    exact if_neg (Int.not_le.mpr first)
  · have newest := congrArg List.getLast? dates
    rw [List.getLast?_map, List.concat_eq_append, List.map_append, List.map_singleton, List.getLast?_concat] at newest
    obtain ⟨a, newest, dated⟩ := Option.map_eq_some_iff.mp newest
    rw [newest, Option.map_some, Option.getD_some, dated] at lastdate
    have early := possible.early
    rw [lastdate] at early ⊢
    have inside : last < 2147483648 := small last (by simp)
    have early : last < 2147483647 := lt_of_decimal_time_lt early (by omega)
    obtain ⟨t, same, later, behind, upper⟩ := adjustDate_decimal_time early clock
    refine ⟨t, by omega, same, fun s mem => ?_, behind⟩
    rw [List.concat_eq_append, List.pairwise_append] at ordered
    rw [List.concat_eq_append, List.mem_append, List.mem_singleton] at mem
    rcases mem with mem | rfl
    · exact Nat.lt_trans (ordered.2.2 s mem last (by simp)) later
    · exact later

/-! ## One add -/

section

variable {kept : List Addition} {front more : Bytes}

theorem opened_eq (st : ReadState) (disk : Bytes) : Event.opened st disk = ⟨disk, st.block_offset, []⟩ := rfl

theorem bytes_eq (a : Addition) (htsize : Nat) (cdata : Int) :
    a.bytes lib htsize cdata = writeJidacHeader lib a.date cdata htsize ++ (a.data lib htsize ++ a.tables lib htsize) :=
  List.append_assoc _ _ _

/-- The size in the header does not change its length. -/
theorem length_header (stores : lib.Stores) {a : Addition} {htsize : Nat} (fits : a.Fits lib htsize) (cdata : Int) :
    (writeJidacHeader lib a.date cdata htsize).length = 104 :=
  ReadState.length_writeJidacHeader stores fits.late fits.numbered cdata

theorem length_bytes (stores : lib.Stores) {a : Addition} {htsize : Nat} (fits : a.Fits lib htsize) (cdata : Int) :
    (a.bytes lib htsize cdata).length = 104 + (a.data lib htsize ++ a.tables lib htsize).length := by
  rw [bytes_eq, List.length_append, length_header stores fits]

theorem atHeader_eq (place : st.block_offset = front.length) :
    e.atHeader lib st (front ++ more) =
      ⟨front ++ (e.bytes lib st ++ more.drop (e.bytes lib st).length), front.length, []⟩ := by
  have room : front.length ≤ (front ++ more).length := by simp
  obtain ⟨k, writing⟩ := OutputArchive.write_spec room (e.bytes lib st)
  rw [Event.atHeader, opened_eq, place, OutputArchive.seekSet, writing.flush room, writeAt_left]

theorem closed_eq (stores : lib.Stores) (place : st.block_offset = front.length)
    (fits : (e.addition st).Fits lib st.ht.length) :
    (e.closed lib st (front ++ more)).disk =
        front ++ ((e.addition st).written lib st.ht.length ++ more.drop (e.bytes lib st).length) ∧
      (e.closed lib st (front ++ more)).tell =
        front.length + ((e.bytes lib st).length + (more.drop (e.bytes lib st).length).length) := by
  have unfinished := length_header stores fits (-1)
  have complete := length_header stores fits ((e.addition st).data lib st.ht.length).length
  have length : (e.bytes lib st).length = ((e.addition st).written lib st.ht.length).length := by
    rw [Event.bytes, Addition.written, length_bytes stores fits, length_bytes stores fits]
  have room : front.length ≤ (front ++ (e.bytes lib st ++ more.drop (e.bytes lib st).length)).length := by simp
  obtain ⟨k, writing⟩ := OutputArchive.write_spec room
    (writeJidacHeader lib (e.addition st).date ((e.addition st).data lib st.ht.length).length st.ht.length)
  have bytes : (e.closed lib st (front ++ more)).disk =
      front ++ ((e.addition st).written lib st.ht.length ++ more.drop (e.bytes lib st).length) := by
    rw [Event.closed, atHeader_eq place, OutputArchive.seekEnd, writing.flush room]
    simp only
    -- the new header is as long as the one it replaces
    rw [writeAt_left, complete, List.drop_append_of_le_length (by rw [Event.bytes, length_bytes stores fits]; omega),
      Addition.written, bytes_eq]
    nth_rewrite 1 [Event.bytes, bytes_eq]
    rw [List.drop_left' unfinished]
    simp only [List.append_assoc]
  refine ⟨bytes, ?_⟩
  have size : (e.closed lib st (front ++ more)).tell = (e.closed lib st (front ++ more)).disk.length := rfl
  rw [size, bytes, List.length_append, List.length_append, length]

/-- An update without files is its header. -/
theorem length_bytes_eq (stores : lib.Stores) {a : Addition} {htsize : Nat} (fits : a.Fits lib htsize) (cdata : Int) :
    a.update.index = [] ∧ (a.bytes lib htsize cdata).length = 104 ↔ a.update = ⟨[], []⟩ := by
  rw [length_bytes stores fits]
  constructor
  · rintro ⟨index, short⟩
    have blocks : a.update.blocks = [] := by
      by_contra some
      have data : (a.data lib htsize).length ≠ 0 := ReadState.data_pos stores some
      rw [List.length_append] at short
      omega
    calc a.update = ⟨a.update.blocks, a.update.index⟩ := rfl
      _ = ⟨[], []⟩ := by rw [blocks, index]
  · intro empty
    have data : a.data lib htsize = [] := by
      rw [Addition.data, Addition.blocks, empty]
      rfl
    have tables : a.tables lib htsize = [] := by
      rw [Addition.tables, Addition.fragmentTables, Addition.blocks, empty]
      rfl
    rw [data, tables, empty]
    exact ⟨rfl, rfl⟩

theorem truncated_eq (stores : lib.Stores) (place : st.block_offset = front.length)
    (fits : (e.addition st).Fits lib st.ht.length) :
    e.truncated lib st (front ++ more) =
      if e.update = ⟨[], []⟩ then front else front ++ (e.addition st).written lib st.ht.length := by
  obtain ⟨k, writing⟩ := @OutputArchive.write_spec (front ++ more) front.length (by simp)
    (e.bytes lib st)
  obtain ⟨disk, size⟩ := @closed_eq lib e st front more stores place fits
  have same : e.update = ⟨[], []⟩ ↔ e.update.index = [] ∧ front.length + (e.bytes lib st).length - front.length = 104 := by
    rw [Nat.add_sub_cancel_left]
    exact (length_bytes_eq stores fits (-1)).symm
  have length : (e.bytes lib st).length = ((e.addition st).written lib st.ht.length).length := by
    rw [Event.bytes, Addition.written, length_bytes stores fits, length_bytes stores fits]
  have some : 104 ≤ (e.bytes lib st).length := by
    rw [Event.bytes, length_bytes stores fits]
    exact Nat.le_add_right _ _
  rw [Event.truncated, opened_eq, disk, size, place, writing.tell]
  simp only [← same]
  split
  next empty =>
    rw [if_pos (by omega), List.take_left]
  next full =>
    rw [← List.append_assoc, length]
    split
    next shorter => rw [← List.length_append, List.take_left]
    next whole =>
      rw [List.drop_eq_nil_of_le, List.append_nil]
      rw [List.length_drop] at whole
      omega

/-- What is in the file of an add that is killed. -/
theorem killed_eq (place : st.block_offset = front.length) (bytes : Bytes) :
    ∃ k, (k = 0 ∨ BUFSIZE ≤ k) ∧ k ≤ bytes.length ∧
      ((Event.opened st (front ++ more)).write bytes).disk = front ++ (bytes.take k ++ more.drop k) := by
  obtain ⟨k, writing⟩ := @OutputArchive.write_spec (front ++ more) front.length (by simp) bytes
  refine ⟨k, writing.full, writing.inside, ?_⟩
  rw [opened_eq, place, writing.disk, writeAt_left, List.length_take, Nat.min_eq_left writing.inside]

/-- An update that is not complete ends the archive. -/
theorem Holds.unfinished (fits : AllFit lib 1 kept) {times : List Nat}
    (dates : kept.map (fun a => (a.date : Int)) = times.map (fun t : Nat => decimal_time t))
    (ordered : times.Pairwise (· < ·)) (small : ∀ t ∈ times, t < 2147483648) {a : Addition} {htsize : Nat}
    (fitsA : a.Fits lib htsize) (rest : Bytes) :
    Holds lib (writeAll lib 1 kept ++ (writeJidacHeader lib a.date (-1) htsize ++ rest)) kept :=
  ⟨⟨_, rfl, Or.inr ⟨a.date, htsize, rest, fitsA.early, fitsA.late, fitsA.numbered, rfl⟩⟩, fits, times, dates,
    ordered, small⟩

theorem Holds.add (fits : AllFit lib 1 kept) {times : List Nat}
    (dates : kept.map (fun a => (a.date : Int)) = times.map (fun t : Nat => decimal_time t))
    (ordered : times.Pairwise (· < ·)) (small : ∀ t ∈ times, t < 2147483648)
    (reads : Reads lib options disk kept st) {a : Addition} (fitsA : a.Fits lib st.ht.length) {t : Nat}
    (bound : t < 2147483648) (dated : (a.date : Int) = decimal_time t) (later : ∀ s ∈ times, s < t) :
    Holds lib (writeAll lib 1 kept ++ a.written lib st.ht.length) (kept ++ [a]) := by
  have length : st.ht.length = 1 + (kept.flatMap fun a => a.update.blocks.flatten).length := by
    rw [reads.length_ht, length_contents]
  refine ⟨⟨[], ?_, Or.inl rfl⟩, ?_, times ++ [t], ?_, ?_, ?_⟩
  · rw [writeAll_append, ← length, List.append_nil, writeAll, writeAll, List.append_nil]
  · rw [allFit_append, ← length]
    exact ⟨fits, fitsA, trivial⟩
  · rw [List.map_append, List.map_append, dates, List.map_singleton, List.map_singleton, dated]
  · rw [List.pairwise_append]
    refine ⟨ordered, List.pairwise_singleton _ _, fun s mem u single => ?_⟩
    rw [List.mem_singleton.mp single]
    exact later s mem
  · intro s mem
    rcases List.mem_append.mp mem with mem | mem
    · exact small s mem
    · rw [List.mem_singleton.mp mem]
      exact bound

/-- One add, by how far it comes. -/
theorem Holds.step (stores : lib.Stores) {events : List Event} (history : History events done)
    (holds : Holds lib disk done) (read : read_archive lib e.options disk = some st)
    (possible : e.Possible lib st disk) :
    ∃ done', History (events ++ [e]) done' ∧ Holds lib (e.leave lib st disk) done' := by
  have kept := holds.kept e.options
  rw [included_upTo e.options holds.ordered] at kept
  obtain ⟨fits, ⟨more, split⟩, times, dates, ordered, small⟩ := kept
  have reads : Reads lib e.options disk (upTo e.options.version done) st := by
    obtain ⟨other, same, reads⟩ := holds.reads stores e.options
    rw [read] at same
    rwa [Option.some.inj same]
  obtain ⟨t, bound, dated, later, date⟩ := next_time reads possible dates ordered small
  have place := reads.block_offset
  have header := length_header stores possible.fits (-1)
  rw [Event.leave]
  cases ending : e.ending with
  | killed puts =>
    obtain ⟨k, full, inside, left⟩ := @killed_eq st _ more place ((e.bytes lib st).take puts)
    simp only
    rcases full with rfl | full
    · -- nothing has been written
      refine ⟨done, .nothing history ending, ?_⟩
      rw [split, left, List.take_zero, List.drop_zero, List.nil_append, ← split]
      exact holds
    · refine ⟨_, .rolledBack history (by rw [ending]; simp), ?_⟩
      have whole : 104 ≤ k := Nat.le_trans (by decide) full
      have puts : k ≤ puts := by
        rw [List.length_take] at inside
        omega
      rw [split, left, List.take_take, Nat.min_eq_left puts, Event.bytes, bytes_eq, List.take_append, header,
        List.take_of_length_le (by omega), List.append_assoc]
      exact .unfinished fits dates ordered small possible.fits _
  | unfinished =>
    refine ⟨_, .rolledBack history (by rw [ending]; simp), ?_⟩
    simp only
    rw [split, atHeader_eq place, Event.bytes, bytes_eq, List.append_assoc]
    exact .unfinished fits dates ordered small possible.fits _
  | closed =>
    have short := possible.closed ending
    refine ⟨_, .added (a := e.addition st) history (Or.inl ending) rfl date possible.fits.late (Or.inl ending), ?_⟩
    simp only
    rw [split, (closed_eq stores place possible.fits).1, List.drop_eq_nil_of_le, List.append_nil]
    · exact .add fits dates ordered small reads possible.fits bound dated later
    · rw [split, List.length_append] at short
      omega
  | finished =>
    simp only
    rw [split, truncated_eq stores place possible.fits]
    split
    next empty =>
      refine ⟨_, .empty history ending empty, ?_⟩
      exact ⟨⟨[], (List.append_nil _).symm, Or.inl rfl⟩, fits, times, dates, ordered, small⟩
    next full =>
      refine ⟨_, .added (a := e.addition st) history (Or.inr ending) rfl date possible.fits.late (Or.inr full), ?_⟩
      exact .add fits dates ordered small reads possible.fits bound dated later

end

/-! ## Runs -/

theorem Runs.holds (stores : lib.Stores) {events : List Event} (runs : Runs lib events disk) :
    ∃ done, History events done ∧ Holds lib disk done := by
  induction runs with
  | start => exact ⟨[], .start, ⟨[], rfl, Or.inl rfl⟩, trivial, [], rfl, .nil, by simp⟩
  | add _ read possible ih =>
    obtain ⟨done, history, holds⟩ := ih
    exact holds.step stores history read possible

/-- Whatever the adds did and wherever they were killed, the archive reads as a history of complete updates, and
so it does up to any number or date. -/
theorem run_contents (stores : lib.Stores) {events : List Event} (runs : Runs lib events disk) :
    ∃ done, History events done ∧ (done.map Addition.date).Pairwise (· < ·) ∧
      ∀ options, ∃ st, read_archive lib options disk = some st ∧
        Reads lib options disk (upTo options.version done) st := by
  obtain ⟨done, history, holds⟩ := runs.holds stores
  exact ⟨done, history, holds.ordered, fun options => holds.reads stores options⟩

/-! ## Without -until -/

/-- The update of the event is in the archive from then on. -/
def Event.complete (e : Event) : Bool :=
  e.ending = .closed || (e.ending = .finished && e.update ≠ ⟨[], []⟩)

theorem upTo_default {done : List Addition} (late : ∀ a ∈ done, a.date < 30000000000000) : upTo DEFAULT_VERSION done = done := by
  rw [upTo, if_neg (by decide), List.filter_eq_self]
  intro a mem
  have date := late a mem
  rw [decide_eq_true_eq, DEFAULT_VERSION]
  omega

/-- The induction is on the history. -/
theorem History.updates {events : List Event} (history : History events done)
    (whole : ∀ e ∈ events, e.options.version = DEFAULT_VERSION) :
    done.map Addition.update = (events.filter Event.complete).map Event.update ∧
      ∀ a ∈ done, a.date < 30000000000000 := by
  induction history with
  | start => exact ⟨rfl, by simp⟩
  | nothing _ killed ih =>
    obtain ⟨updates, late⟩ := ih fun e mem => whole e (List.mem_append_left _ mem)
    rw [List.filter_append, List.filter_cons_of_neg (by simp [Event.complete, killed])]
    exact ⟨by simpa using updates, late⟩
  | rolledBack _ unfinished ih =>
    obtain ⟨updates, late⟩ := ih fun e mem => whole e (List.mem_append_left _ mem)
    rw [whole _ (List.mem_append_right _ (List.mem_singleton_self _)), upTo_default late, List.filter_append,
      List.filter_cons_of_neg (by simp [Event.complete, unfinished])]
    exact ⟨by simpa using updates, late⟩
  | added _ complete update _ early some ih =>
    obtain ⟨updates, late⟩ := ih fun e mem => whole e (List.mem_append_left _ mem)
    rw [whole _ (List.mem_append_right _ (List.mem_singleton_self _)), upTo_default late, List.filter_append,
      List.filter_cons_of_pos]
    · constructor
      · rw [List.map_append, List.map_append, updates, List.map_singleton, update]
        rfl
      · intro a mem
        rcases List.mem_append.mp mem with mem | mem
        · exact late a mem
        · rw [List.mem_singleton.mp mem]
          exact early
    · rcases complete with closed | finished
      · simp [Event.complete, closed]
      · rcases some with closed | some
        · simp [Event.complete, closed]
        · simp [Event.complete, finished, some]
  | empty _ finished empty ih =>
    obtain ⟨updates, late⟩ := ih fun e mem => whole e (List.mem_append_left _ mem)
    rw [whole _ (List.mem_append_right _ (List.mem_singleton_self _)), upTo_default late, List.filter_append,
      List.filter_cons_of_neg (by simp [Event.complete, finished, empty])]
    exact ⟨by simpa using updates, late⟩

/-- Without `-until` nothing that is complete is lost, and nothing else is there. -/
theorem run_updates (stores : lib.Stores) {events : List Event} (runs : Runs lib events disk)
    (whole : ∀ e ∈ events, e.options.version = DEFAULT_VERSION) :
    ∃ done, done.map Addition.update = (events.filter Event.complete).map Event.update ∧
      ∀ options, options.version = DEFAULT_VERSION → ∃ st, read_archive lib options disk = some st ∧
        Reads lib options disk done st := by
  obtain ⟨done, history, holds⟩ := runs.holds stores
  obtain ⟨updates, late⟩ := history.updates whole
  refine ⟨done, updates, fun options newest => ?_⟩
  have reads := holds.reads stores options
  rwa [newest, upTo_default late] at reads

/-! ## An add that is killed, and one that is not -/

def helloEvent (ending : Ending) : Event :=
  ⟨⟨DEFAULT_VERSION, 20240101000000, text "a.zpaq", fun _ => true⟩, 20240101000000, hello.update, hello.method, ending⟩

theorem possible_hello {ending : Ending} (notClosed : ending ≠ .closed)
    (reads : Reads Blocks.storing (helloEvent ending).options disk [] st) :
    (helloEvent ending).Possible Blocks.storing st disk := by
  have lastdate : st.back.lastdate = 0 := reads.lastdate
  have ht : st.ht.length = 1 := reads.length_ht
  have same : (helloEvent ending).addition st = hello := by
    rw [Event.addition, lastdate]
    rfl
  have clock : (20240101000000 : Int) = decimal_time (1704067200 : Nat) := by decide
  refine ⟨⟨1704067200, by decide, clock⟩, ?_, ?_, fun closed => absurd closed notClosed⟩
  · rw [lastdate]
    decide
  · rw [same, ht]
    exact fits_hello

theorem holds_nothing : Holds Blocks.storing [] [] := ⟨⟨[], rfl, Or.inl rfl⟩, trivial, [], rfl, .nil, by simp⟩

theorem holds_unfinished : ∃ disk, Runs Blocks.storing [helloEvent .unfinished] disk ∧ Holds Blocks.storing disk [] := by
  obtain ⟨st, read, reads⟩ := holds_nothing.reads Blocks.storing_stores (helloEvent .unfinished).options
  have first : Runs Blocks.storing [helloEvent .unfinished] ((helloEvent .unfinished).leave Blocks.storing st []) :=
    .add .start read (possible_hello (by decide) reads)
  obtain ⟨done, history, holds⟩ := first.holds Blocks.storing_stores
  have none : done = [] := List.map_eq_nil_iff.mp (history.updates (by simp [helloEvent])).1
  subst none
  exact ⟨_, first, holds⟩

theorem runs_hello : ∃ disk, Runs Blocks.storing [helloEvent .unfinished, helloEvent .finished] disk := by
  obtain ⟨disk, first, holds⟩ := holds_unfinished
  obtain ⟨st, read, reads⟩ := holds.reads Blocks.storing_stores (helloEvent .finished).options
  exact ⟨_, .add first read (possible_hello (by decide) reads)⟩

theorem run_contents_hello : ∃ disk, Runs Blocks.storing [helloEvent .unfinished, helloEvent .finished] disk ∧
    ∃ done, History [helloEvent .unfinished, helloEvent .finished] done ∧ (done.map Addition.date).Pairwise (· < ·) ∧
      ∀ options, ∃ st, read_archive Blocks.storing options disk = some st ∧
        Reads Blocks.storing options disk (upTo options.version done) st := by
  obtain ⟨disk, runs⟩ := runs_hello
  exact ⟨disk, runs, run_contents Blocks.storing_stores runs⟩

theorem run_updates_hello : ∃ disk, Runs Blocks.storing [helloEvent .unfinished, helloEvent .finished] disk ∧
    ∃ done, done.map Addition.update =
        ([helloEvent .unfinished, helloEvent .finished].filter Event.complete).map Event.update ∧
      ∀ options, options.version = DEFAULT_VERSION → ∃ st, read_archive Blocks.storing options disk = some st ∧
        Reads Blocks.storing options disk done st := by
  obtain ⟨disk, runs⟩ := runs_hello
  exact ⟨disk, runs, run_updates Blocks.storing_stores runs (by simp [helloEvent])⟩

end BackupSuite.Zpaq.Journal
