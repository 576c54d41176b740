import BackupSuite.CtrlCenter.CreateProcess

/-! # No false record

When a create run ends, by itself or through a job's `exit`, the database file is
the old one, or what it says anew is about files whose compress jobs succeeded.
-/

namespace BackupSuite.CtrlCenter

open BackupSuite.Library

/-- A create run on a database of well-formed lines, in which a path may occur more
than once. -/
structure RecordedProcess where
  process : CreateProcess
  oldEntries : List FileEntry
  encodes : Encodes process.oldFile oldEntries
  wellFormed : ∀ e ∈ process.entries, (storedEntry process.conf.unittestPath e).WellFormed

namespace RecordedProcess

variable (r : RecordedProcess)

/-- The compress job of a file with this stored path and hash succeeded in the run. -/
def Succeeded (s : ProcessState) (path hash : Bytes) : Prop :=
  ∃ job ∈ s.jobs, job.kind = .compress ∧ (∃ outcome, job.status = .returned (some outcome)) ∧
    withoutUnittestPath r.process.conf.unittestPath job.entry.mPath = path ∧
    job.entry.mHashValue = hash

/-- The lines of the file are old ones or backed by a job, and so is what looking a
path up in it gives. -/
structure Backed (s : ProcessState) (newEntries : List FileEntry) : Prop where
  lines : ∀ e ∈ newEntries,
    (∃ o ∈ r.oldEntries, o.mPath = e.mPath ∧ o.mHashValue = e.mHashValue) ∨
      r.Succeeded s e.mPath e.mHashValue
  lookups : ∀ path e, lookup FileEntry.mPath path newEntries = some e →
    (lookup FileEntry.mPath path r.oldEntries).map FileEntry.mHashValue = some e.mHashValue ∨
      r.Succeeded s path e.mHashValue

def NoFalseRecord (s : ProcessState) : Prop :=
  s.databaseFile = r.process.oldFile ∨
    ∃ newEntries, Encodes s.databaseFile newEntries ∧ r.Backed s newEntries

/-! ## What a run can have loaded -/

/-- A size that wrapped to between `-10` and `0` loads nothing. -/
theorem readBuffer_of_negative (u behind content : Bytes) {fileSize : Int} (low : -10 ≤ fileSize)
    (high : fileSize ≤ 0) :
    readBuffer u (.faultless behind) content fileSize = .ok (true, []) := by
  have allocated : allocates fileSize = true := decide_eq_true (by omega)
  have loop : readLoop fileSize [2147483647] 0 = .ok 0 := by
    rw [readLoop_faultless (by omega)]
    congr 1
    omega
  have parsed : parseBuffer [] behind fileSize = some [] := parseLoop_passed (by omega) _ _
  have loaded := @readBuffer_of_parsed u (.faultless behind) content _ _ allocated loop [] parsed
  rwa [List.map_nil, ite_self] at loaded

/-- Below 4 GiB a run that goes on has loaded the old entries, or nothing at all. -/
theorem loaded_cases {r : RecordedProcess} (small : (fileText r.oldEntries).length < 4294967296)
    {loaded : List FileEntry} (isLoaded : r.process.Loaded loaded) :
    loaded = r.oldEntries.map (loadedEntry r.process.conf.unittestPath) ∨ loaded = [] := by
  obtain ⟨found, read⟩ := isLoaded
  have encodes := r.encodes
  -- three ranges of sizes: the int holds it, the allocation fails, the int is just below zero
  by_cases fits : Fits (fileText r.oldEntries)
  · obtain ⟨_, load⟩ := encodes.load fits r.process.conf.unittestPath r.process.behind
    cases read.symm.trans load
    exact Or.inl rfl
  · by_cases bounded : (fileText r.oldEntries).length + 10 < 4294967296
    · rw [encodes.aborts fits bounded] at read
      cases read
    · -- the last ten sizes wrap to negative ones that still get a buffer
      right
      cases file : r.process.oldFile with
      | none =>
        rw [file] at read
        cases read
        rfl
      | some content =>
        have lines : content = fileText r.oldEntries := by
          have whole := encodes.lines
          rwa [file] at whole
        have wrapped : toInt content.length = content.length - 4294967296 := by
          rw [lines]
          rw [toInt]
          omega
        have opens : (ReadOutcomes.faultless r.process.behind).opens = true := rfl
        rw [file, readFileHashes, if_pos opens, wrapped,
          readBuffer_of_negative _ _ _ (by rw [lines]; omega) (by rw [lines]; omega)] at read
        cases read
        rfl

/-! ## What a merge adds -/

theorem lookup_stored_put {u path : Bytes} {e x : FileEntry} {entries : List FileEntry}
    (found : lookup FileEntry.mPath path ((put FileEntry.mPath e entries).map (storedEntry u)) =
      some x) :
    x = storedEntry u e ∨ lookup FileEntry.mPath path (entries.map (storedEntry u)) = some x := by
  induction entries with
  | nil =>
    rw [put_nil, List.map_singleton, lookup_cons] at found
    split at found
    · exact Or.inl (Option.some.inj found).symm
    · cases found
  | cons b entries ih =>
    -- two paths may have one stored path, so the line that is replaced need not be the one found
    by_cases same : b.mPath = e.mPath
    · rw [put, if_pos same, List.map_cons, lookup_cons] at found
      split at found
      · exact Or.inl (Option.some.inj found).symm
      next elsewhere =>
        right
        rw [List.map_cons, lookup_cons, if_neg (by rwa [storedEntry_mPath, same]), found]
    · rw [put, if_neg same, List.map_cons, lookup_cons] at found
      rw [List.map_cons, lookup_cons]
      split at found
      next here => exact Or.inr (by rw [if_pos here, found])
      next elsewhere => exact (ih found).imp_right fun old => by rw [if_neg elsewhere, old]

theorem lookup_stored_putAll {u path : Bytes} {x : FileEntry} {entries loaded : List FileEntry}
    (found : lookup FileEntry.mPath path
      ((putAll FileEntry.mPath entries loaded).map (storedEntry u)) = some x) :
    (∃ e ∈ entries, x = storedEntry u e) ∨
      lookup FileEntry.mPath path (loaded.map (storedEntry u)) = some x := by
  induction entries using List.reverseRecOn with
  | nil => exact Or.inr found
  | append_singleton entries e ih =>
    rw [putAll_concat] at found
    rcases lookup_stored_put found with rfl | before
    · exact Or.inl ⟨e, by simp, rfl⟩
    · rcases ih before with ⟨f, mem, rfl⟩ | old
      · exact Or.inl ⟨f, List.mem_append_left _ mem, rfl⟩
      · exact Or.inr old

theorem lookup_of_eSame {u : Bytes} {e : FileEntry} {oldEntries : List FileEntry}
    (same : compareEntry e (oldEntries.map (loadedEntry u)) = .eSame) :
    ∃ o, lookup FileEntry.mPath (withoutUnittestPath u e.mPath) oldEntries = some o ∧
      o.mPath = withoutUnittestPath u e.mPath ∧ o.mHashValue = e.mHashValue := by
  obtain ⟨other, found, hash⟩ := compareEntry_eq_eSame.mp same
  obtain ⟨o, -, rfl⟩ := List.mem_map.mp (mem_of_lookup found)
  have path : e.mPath = u ++ o.mPath := (key_of_lookup found).symm
  rw [path, lookup_map_loadedEntry] at found
  obtain ⟨first, foundFirst, loadedSame⟩ := Option.map_eq_some_iff.mp found
  -- the prefix can be taken off again
  have firstSame : first = o := by
    have stored := congrArg (storedEntry u) loadedSame
    rwa [storedEntry_loadedEntry, storedEntry_loadedEntry] at stored
  rw [path, withoutUnittestPath_append]
  exact ⟨o, by rw [foundFirst, firstSame], rfl, hash⟩

theorem succeeded_of_submitted {r : RecordedProcess} {s : ProcessState} {loaded : List FileEntry}
    (returned : CreateProcess.AllReturned s.jobs) (stored : r.process.JobsStored s)
    (submitted : r.process.SubmittedBut [] loaded s.jobs) {e : FileEntry}
    (mem : e ∈ r.process.entries) (changed : compareEntry e loaded ≠ .eSame) :
    r.Succeeded s (storedEntry r.process.conf.unittestPath e).mPath e.mHashValue := by
  obtain ⟨job, inside, kind, rfl⟩ :=
    ((submitted e mem).resolve_left (by simp)).resolve_left changed
  obtain ⟨result, status⟩ := returned job inside
  obtain ⟨outcome, rfl, -⟩ := stored job inside kind result status
  exact ⟨job, inside, kind, ⟨outcome, status⟩, rfl, rfl⟩

theorem backed_merge {r : RecordedProcess} {s : ProcessState} {loaded : List FileEntry}
    (kind : loaded = r.oldEntries.map (loadedEntry r.process.conf.unittestPath) ∨ loaded = [])
    (jobs : ∀ e ∈ r.process.entries, compareEntry e loaded ≠ .eSame →
      r.Succeeded s (storedEntry r.process.conf.unittestPath e).mPath e.mHashValue) :
    r.Backed s ((mergeUpdates loaded r.process.entries).map
      (storedEntry r.process.conf.unittestPath)) := by
  -- an entry of the run: the same as an old one, or backed by its job
  have entry : ∀ e ∈ r.process.entries,
      (∃ o, lookup FileEntry.mPath (storedEntry r.process.conf.unittestPath e).mPath r.oldEntries =
        some o ∧ o.mPath = (storedEntry r.process.conf.unittestPath e).mPath ∧
          o.mHashValue = e.mHashValue) ∨
      r.Succeeded s (storedEntry r.process.conf.unittestPath e).mPath e.mHashValue := by
    intro e mem
    by_cases same : compareEntry e loaded = .eSame
    · rcases kind with rfl | rfl
      · exact Or.inl (lookup_of_eSame same)
      · rw [compareEntry_eq] at same
        cases same
    · exact Or.inr (jobs e mem same)
  have old : loaded.map (storedEntry r.process.conf.unittestPath) = r.oldEntries ∨
      loaded = [] := kind.imp_left fun all => by rw [all, map_storedEntry_loadedEntry]
  rw [mergeUpdates_eq_putAll]
  constructor
  · intro x mem
    obtain ⟨e, merged, rfl⟩ := List.mem_map.mp mem
    cases mem_putAll merged with
    | inl new =>
      rcases entry e new with ⟨o, found, path, hash⟩ | succeeded
      · exact Or.inl ⟨o, mem_of_lookup found, path, hash⟩
      · exact Or.inr succeeded
    | inr before =>
      -- a loaded line that is kept was a line of the old file
      have stored : storedEntry r.process.conf.unittestPath e ∈ r.oldEntries := by
        rcases old with all | rfl
        · rw [← all]
          exact List.mem_map_of_mem before
        · cases before
      exact Or.inl ⟨_, stored, rfl, rfl⟩
  · intro path x found
    have atPath := key_of_lookup found
    rcases lookup_stored_putAll found with ⟨e, new, rfl⟩ | before
    · rcases entry e new with ⟨o, foundOld, -, hash⟩ | succeeded
      · left
        rw [← atPath, foundOld, Option.map_some, hash]
        rfl
      · exact Or.inr (atPath ▸ succeeded)
    · rcases old with all | rfl
      · rw [all] at before
        exact Or.inl (by rw [before, Option.map_some])
      · cases before

/-- Below 4 GiB no run, in whatever interleaving, ends with a false record. -/
theorem noFalseRecord (r : RecordedProcess) (small : (fileText r.oldEntries).length < 4294967296)
    {s : ProcessState} (reachable : r.process.Reachable s) (ended : Ended s) :
    r.NoFalseRecord s := by
  obtain ⟨phase, stored⟩ := reachable.invariant
  rw [CreateProcess.PhaseInvariant] at phase
  cases ended with
  | inl finished =>
    simp only [finished] at phase
    obtain ⟨returned, -, loaded, isLoaded, submitted, file⟩ := phase
    have kind := loaded_cases small isLoaded
    right
    refine ⟨_, ⟨?_, by rw [file]; rfl⟩, backed_merge kind fun e mem changed =>
      succeeded_of_submitted returned stored submitted mem changed⟩
    intro x mem
    obtain ⟨e, merged, rfl⟩ := List.mem_map.mp mem
    rw [mergeUpdates_eq_putAll] at merged
    cases mem_putAll merged with
    | inl new => exact r.wellFormed e new
    | inr before =>
      rcases kind with rfl | rfl
      · obtain ⟨o, old, rfl⟩ := List.mem_map.mp before
        rw [storedEntry_loadedEntry]
        exact r.encodes.wellFormed o old
      · cases before
  | inr dead =>
    simp only [dead] at phase
    exact Or.inl phase

/-- A run over a new file and an unchanged one: the compressor fails, and the raw copy
of the new file is made while the main thread waits. -/
def smallProcess : RecordedProcess where
  process :=
    { conf := ⟨text "out/", text "bin/", text "/tmp/", [], false⟩
      real := rfl
      entries := [⟨text "MeowHash", text "A1", text "in/a"⟩, ⟨text "MeowHash", text "B2", text "in/b"⟩]
      distinct := by decide
      oldFile := some (text "MeowHash A1 in/a\nMeowHash C3 in/a\n")
      mainBehind := []
      behind := [0] }
  oldEntries := [⟨text "MeowHash", text "A1", text "in/a"⟩, ⟨text "MeowHash", text "C3", text "in/a"⟩]
  encodes := ⟨by decide, by decide⟩
  wellFormed := by decide

def smallSchedule : List Event :=
  [.main, .main, .main, .job 0 true, .main, .job 1 true, .job 1 true, .main, .job 0 true, .main,
    .main, .main, .job 2 true, .main, .job 2 false, .job 2 true, .main, .main, .main, .main, .main,
    .main, .main]

theorem noFalseRecord_small :
    ∃ s, smallProcess.process.runEvents smallSchedule smallProcess.process.start = some s ∧
      smallProcess.NoFalseRecord s := by
  have ran : (smallProcess.process.runEvents smallSchedule smallProcess.process.start).isSome := by
    decide
  obtain ⟨s, ran⟩ := Option.isSome_iff_exists.mp ran
  have finished : (smallProcess.process.runEvents smallSchedule smallProcess.process.start).map
      ProcessState.phase = some .finished := by decide
  rw [ran] at finished
  exact ⟨s, ran, noFalseRecord smallProcess (by decide)
    (smallProcess.process.reachable_runEvents Relation.ReflTransGen.refl ran)
    (Or.inl (Option.some.inj finished))⟩

/-! ### A database that is read in part -/

theorem reachable_noEntries {p : CreateProcess} (noEntries : p.entries = []) {e : FileEntry}
    {mainFound found : Bool}
    (mainRead : readFileHashes p.conf.unittestPath (.faultless p.mainBehind) p.oldFile =
      .ok (mainFound, [e]))
    (read : readFileHashes p.conf.unittestPath (.faultless p.behind) p.oldFile = .ok (found, [e])) :
    ∃ s, p.Reachable s ∧ s.phase = .finished ∧ s.jobs = [] ∧
      s.databaseFile = some (printEntry (storedEntry p.conf.unittestPath e)) := by
  have ran : ∃ s, p.runEvents (List.replicate 10 .main) p.start = some s ∧ s.phase = .finished ∧
      s.jobs = [] ∧ s.databaseFile = some (printEntry (storedEntry p.conf.unittestPath e)) := by
    simp [CreateProcess.runEvents, CreateProcess.fire, CreateProcess.mainStep, CreateProcess.start,
      CreateProcess.done, mainRead, read, noEntries, mergeUpdates]
  obtain ⟨s, ran, facts⟩ := ran
  exact ⟨s, p.reachable_runEvents Relation.ReflTransGen.refl ran, facts⟩

theorem fileText_inj {es fs : List FileEntry} (wfLeft : ∀ e ∈ es, e.WellFormed)
    (wfRight : ∀ e ∈ fs, e.WellFormed) (same : fileText es = fileText fs) : es = fs := by
  have left := parseBuffer_fileText wfLeft []
  have right := parseBuffer_fileText wfRight []
  rw [same, right] at left
  exact (Option.some.inj left).symm

/-- A line of 63 bytes, and what 59 of them parse to. -/
def longEntry : FileEntry :=
  ⟨text "MeowHash", text "00000000-00000000-00000000-00000000", text "in/0123456789abcd"⟩

def cutEntry : FileEntry := { longEntry with mPath := text "in/0123456789a" }

theorem longEntry_wellFormed (count : Nat) : ∀ e ∈ List.replicate count longEntry, e.WellFormed := by
  intro e mem
  rw [List.eq_of_mem_replicate mem]
  decide

/-- The file is the same line over and over, and there is nothing to back up. -/
def wrappedProcess (count : Nat) : RecordedProcess where
  process :=
    { conf := ⟨text "out/", text "bin/", text "/tmp/", [], false⟩
      real := rfl
      entries := []
      distinct := List.nodup_nil
      oldFile := some (fileText (List.replicate count longEntry))
      mainBehind := [0]
      behind := [0] }
  oldEntries := List.replicate count longEntry
  encodes := encodes_fileText (longEntry_wellFormed count)
  wellFormed := fun _ mem => by cases mem

/-- A size of 59 more than 4 GiB reads 59 bytes. -/
theorem readFileHashes_wrapped {content rest : Bytes} (starts : content = printEntry longEntry ++ rest)
    (size : content.length = 4294967355) :
    readFileHashes [] (.faultless [0]) (some content) = .ok (true, [cutEntry]) := by
  have opens : (ReadOutcomes.faultless [0]).opens = true := rfl
  have wrapped : toInt content.length = 59 := by
    rw [size]
    rfl
  have loop : readLoop 59 (ReadOutcomes.faultless [0]).freads 0 = .ok 59 := rfl
  have front : content.take 59 = (printEntry longEntry).take 59 := by
    rw [starts]
    exact List.take_append_of_le_length (by decide)
  have parsed : parseBuffer [] ((printEntry longEntry).take 59 ++ [0]) 59 = some [cutEntry] := by
    decide
  rw [← front] at parsed
  rw [readFileHashes, if_pos opens, wrapped]
  exact readBuffer_of_parsed [] rfl loop parsed

theorem not_noFalseRecord_of_size {count : Nat}
    (size : (fileText (List.replicate count longEntry)).length = 4294967355) :
    ∃ s, (wrappedProcess count).process.Reachable s ∧ Ended s ∧
      ¬ (wrappedProcess count).NoFalseRecord s := by
  obtain ⟨more, rfl⟩ : ∃ n, count = n + 1 := by
    refine ⟨count - 1, ?_⟩
    cases count with
    | zero => cases size
    | succ n => rfl
  have read := readFileHashes_wrapped
    (show fileText (List.replicate (more + 1) longEntry) =
      printEntry longEntry ++ fileText (List.replicate more longEntry) from rfl) size
  obtain ⟨s, reachable, finished, noJobs, file⟩ := reachable_noEntries
    (p := (wrappedProcess (more + 1)).process) rfl read read
  refine ⟨s, reachable, Or.inl finished, fun noFalse => ?_⟩
  have short : printEntry (storedEntry [] cutEntry) = fileText [cutEntry] := by decide
  rcases noFalse with same | ⟨newEntries, encodes, backed⟩
  · -- the file is not the old one: it is too short
    have lengths := congrArg (fun f => (f.getD []).length) (file.symm.trans same)
    have old : ((wrappedProcess (more + 1)).process.oldFile.getD []).length = 4294967355 := size
    simp only [old] at lengths
    change (printEntry (storedEntry [] cutEntry)).length = 4294967355 at lengths
    revert lengths
    decide
  · -- and the path of its only line is not in the old one, and has no job
    have lines := encodes.lines
    rw [file] at lines
    have only : [cutEntry] = newEntries :=
      fileText_inj (by decide) encodes.wellFormed (short.symm.trans lines)
    subst only
    rcases backed.lines cutEntry (List.mem_singleton_self _) with ⟨o, old, path, -⟩ | succeeded
    · rw [List.eq_of_mem_replicate old] at path
      revert path
      decide
    · obtain ⟨job, inside, -⟩ := succeeded
      rw [noJobs] at inside
      cases inside

theorem length_fileText_replicate (count : Nat) :
    (fileText (List.replicate count longEntry)).length = count * 63 := by
  have line : (printEntry longEntry).length = 63 := by decide
  induction count with
  | zero => rfl
  | succ n ih =>
    rw [List.replicate_succ, fileText_cons, List.length_append, line, ih]
    omega

/-- 68174085 of these lines are read as the first 59 bytes, and the path they are cut
to is recorded without a job. -/
theorem not_noFalseRecord :
    ∃ s, (wrappedProcess 68174085).process.Reachable s ∧ Ended s ∧
      ¬ (wrappedProcess 68174085).NoFalseRecord s :=
  not_noFalseRecord_of_size (length_fileText_replicate _)

end RecordedProcess

end BackupSuite.CtrlCenter
