import Mathlib.Data.Nat.Bitwise
import BackupSuite.CtrlCenter.CreateRun

/-! # The law of the incremental database

Over any sequence of create runs the database is a function of the history: one
line per stored path, in order of first occurrence, with the hash of the latest
run containing it (`expected`), and a run submits a job for exactly the files whose
hash is not the latest one.  The law holds as long as the database that a run
loads fits the `int` its size is stored in, and up to 4 GiB it fails beyond.
-/

namespace BackupSuite.CtrlCenter

open BackupSuite.Library

/-! ## Histories -/

/-- The database file after the runs, started without one.  Every run writes its
list into a folder of its own. -/
def databaseAfter (runs : List Run) : Option Bytes :=
  runs.foldl (fun databaseFile r => (r.perform none databaseFile).database) none

/-- The entry that the latest run containing the stored path has for it. -/
def latest (runs : List Run) (path : Bytes) : Option FileEntry :=
  runs.reverse.findSome? fun r => lookup FileEntry.mPath path r.stored

/-- One line per stored path seen so far, in order of first occurrence. -/
def expected (runs : List Run) : List FileEntry :=
  (firstOccurrences (runs.flatMap fun r => r.stored.map FileEntry.mPath)).filterMap (latest runs)

/-- What run `r` does after the runs `past`. -/
structure RunLaw (past : List Run) (r : Run) : Prop where
  ends : (r.perform none (databaseAfter past)).stopped = none
  jobs : (r.perform none (databaseAfter past)).jobs =
    (r.entries.filter fun e =>
      (latest past (withoutUnittestPath r.unittestPath e.mPath)).map FileEntry.mHashValue ≠
        some e.mHashValue).map FileEntry.mPath
  database : (r.perform none (databaseAfter past)).database =
    some (fileText (expected (past ++ [r])))

/-- Every run of the history keeps the law. -/
def IncrementalLaw (runs : List Run) : Prop :=
  ∀ past r rest, runs = past ++ r :: rest → RunLaw past r

/-- Every database that a run of the history loads fits. -/
def SizesFit (runs : List Run) : Prop :=
  ∀ past r rest, runs = past ++ r :: rest → Fits (fileText (expected past))

theorem databaseAfter_concat (past : List Run) (r : Run) :
    databaseAfter (past ++ [r]) = (r.perform none (databaseAfter past)).database := by
  simp [databaseAfter]

theorem latest_concat (past : List Run) (r : Run) (path : Bytes) :
    latest (past ++ [r]) path = (lookup FileEntry.mPath path r.stored).or (latest past path) := by
  simp only [latest, List.reverse_append, List.reverse_singleton, List.singleton_append,
    List.findSome?_cons]
  cases lookup FileEntry.mPath path r.stored <;> rfl

theorem latest_eq_lastWith (runs : List Run) (path : Bytes) :
    latest runs path = lastWith FileEntry.mPath path (runs.flatMap Run.stored) := by
  induction runs using List.reverseRecOn with
  | nil => rfl
  | append_singleton past r ih =>
    rw [latest_concat, ih, List.flatMap_append, List.flatMap_singleton, lastWith_append,
      lastWith_eq_lookup r.stored_distinct]

theorem expected_eq_putAll (runs : List Run) :
    expected runs = putAll FileEntry.mPath (runs.flatMap Run.stored) [] := by
  have paths : (runs.flatMap fun r => r.stored.map FileEntry.mPath) =
      (runs.flatMap Run.stored).map FileEntry.mPath := List.map_flatMap.symm
  rw [putAll_nil_eq, expected, paths]
  exact List.filterMap_congr fun path _ => latest_eq_lastWith runs path

theorem expected_concat (past : List Run) (r : Run) :
    expected (past ++ [r]) = r.merged (expected past) := by
  rw [expected_eq_putAll, expected_eq_putAll, List.flatMap_append, List.flatMap_singleton,
    putAll_append]
  rfl

theorem lookup_expected (runs : List Run) (path : Bytes) :
    lookup FileEntry.mPath path (expected runs) = latest runs path := by
  rw [expected_eq_putAll, lookup_putAll, latest_eq_lastWith, lookup_nil, Option.or_none]

theorem sizesFit_nil : SizesFit [] := by
  intro past r rest split
  have lengths := congrArg List.length split
  simp at lengths

theorem sizesFit_concat {past : List Run} {r : Run} :
    SizesFit (past ++ [r]) ↔ SizesFit past ∧ Fits (fileText (expected past)) := by
  constructor
  · intro fits
    refine ⟨fun before s rest split => ?_, fits past r [] rfl⟩
    apply fits before s (rest ++ [r])
    rw [split, List.append_assoc, List.cons_append]
  · rintro ⟨fits, last⟩ before s rest split
    rcases List.eq_nil_or_concat rest with rfl | ⟨rest, t, rfl⟩
    · -- nothing behind `s`: it is the run that was added
      obtain ⟨rfl, -⟩ := List.append_inj' split rfl
      exact last
    · rw [List.concat_eq_append, ← List.cons_append, ← List.append_assoc] at split
      obtain ⟨rfl, -⟩ := List.append_inj' split rfl
      exact fits before s rest rfl

/-! ## The law -/

/-- The invariant over a history: the database file holds the expected lines. -/
theorem encodes_databaseAfter {runs : List Run} (fits : SizesFit runs) :
    Encodes (databaseAfter runs) (expected runs) := by
  induction runs using List.reverseRecOn with
  | nil => exact encodes_none
  | append_singleton past r ih =>
    rw [databaseAfter_concat, expected_concat]
    exact r.encodes_perform (ih (sizesFit_concat.mp fits).1) (sizesFit_concat.mp fits).2 none

/-- A file is the same exactly when the history's latest hash for it is its hash. -/
theorem compareEntry_expected (past : List Run) (e : FileEntry) :
    compareEntry e (expected past) = .eSame ↔
      (latest past e.mPath).map FileEntry.mHashValue = some e.mHashValue := by
  rw [compareEntry_eq_eSame, lookup_expected, Option.map_eq_some_iff]

theorem runLaw_of_encodes {past : List Run} (r : Run)
    (encodes : Encodes (databaseAfter past) (expected past)) (fits : Fits (fileText (expected past))) :
    RunLaw past r where
  ends := by rw [r.perform_of_encodes encodes fits]
  jobs := by
    rw [r.perform_of_encodes encodes fits]
    simp only [r.jobs_eq, ne_eq, compareEntry_expected, storedEntry_mPath, storedEntry_mHashValue]
  database := by rw [r.perform_of_encodes encodes fits, expected_concat]

theorem SizesFit.incrementalLaw {runs : List Run} (fits : SizesFit runs) : IncrementalLaw runs := by
  intro past r rest split
  apply runLaw_of_encodes r _ (fits past r rest split)
  apply encodes_databaseAfter
  intro before s between inside
  apply fits before s (between ++ r :: rest)
  rw [split, inside, List.append_assoc, List.cons_append]

theorem IncrementalLaw.sizesFit {runs : List Run} (law : IncrementalLaw runs)
    (bounded : ∀ past r rest, runs = past ++ r :: rest →
      (fileText (expected past)).length + 10 < 4294967296) : SizesFit runs := by
  intro past r rest split
  by_contra big
  -- the runs before kept the law, so the database holds what is expected
  have encodes : Encodes (databaseAfter past) (expected past) := by
    induction past using List.reverseRecOn with
    | nil => exact absurd (show Fits (fileText (expected [])) by decide) big
    | append_singleton before s _ =>
      have earlier := law before s (r :: rest) (by rw [split, List.append_assoc]; rfl)
      have wf : ∀ e ∈ expected (before ++ [s]), e.WellFormed := by
        intro e mem
        rw [expected_eq_putAll] at mem
        have inside := (mem_putAll mem).resolve_right (by simp)
        obtain ⟨t, -, stored⟩ := List.mem_flatMap.mp inside
        exact t.stored_wellFormed e stored
      rw [databaseAfter_concat, earlier.database]
      exact encodes_fileText wf
  have ends := (law past r rest split).ends
  rw [r.perform_aborts encodes big (bounded past r rest split)] at ends
  cases ends

/-- The law of the incremental database: it holds in every history whose loaded
databases fit, and up to 4 GiB in no other. -/
theorem incrementalLaw_sizes (runs : List Run) :
    (SizesFit runs → IncrementalLaw runs) ∧
    ((∀ past r rest, runs = past ++ r :: rest →
      (fileText (expected past)).length + 10 < 4294967296) →
      IncrementalLaw runs → SizesFit runs) :=
  ⟨SizesFit.incrementalLaw, fun bounded law => law.sizesFit bounded⟩

/-! ### A history that breaks it -/

/-- A name of `width` letters for each number. -/
def bitName (width i : Nat) : Bytes :=
  (List.range width).map fun j => if i.testBit j then 98 else 97

def zeroHash : Bytes := text "00000000-00000000-00000000-00000000"

def bitEntry (i : Nat) : FileEntry := ⟨text "MeowHash", zeroHash, bitName 82 i⟩

theorem meowHash_isToken : IsToken (text "MeowHash") := by decide

theorem zeroHash_isToken : IsToken zeroHash := by decide

theorem length_bitName (width i : Nat) : (bitName width i).length = width := by
  rw [bitName, List.length_map, List.length_range]

theorem bitName_inj {width i j : Nat} (hi : i < 2 ^ width) (hj : j < 2 ^ width)
    (eq : bitName width i = bitName width j) : i = j := by
  apply Nat.eq_of_testBit_eq
  intro k
  by_cases inside : k < width
  · have at_k := congrArg (fun s => s[k]?) eq
    simp only [bitName, List.getElem?_map, List.getElem?_range inside, Option.map_some,
      Option.some.injEq] at at_k
    -- the letter at `k` tells the bit
    by_cases bi : i.testBit k = true <;> by_cases bj : j.testBit k = true <;> simp_all
  · -- bits beyond the width are zero in both
    have large : 2 ^ width ≤ 2 ^ k := Nat.pow_le_pow_right (by decide) (by omega)
    rw [Nat.testBit_lt_two_pow (by omega), Nat.testBit_lt_two_pow (by omega)]

theorem bitName_isStoredPath (i : Nat) : IsStoredPath (bitName 82 i) where
  nonempty := by simp [bitName]
  clean := by
    intro c mem
    obtain ⟨j, -, rfl⟩ := List.mem_map.mp mem
    by_cases bit : i.testBit j = true <;> simp [bit] <;> rfl
  start := by
    intro c head
    have mem : c ∈ bitName 82 i := List.mem_of_mem_head? head
    obtain ⟨j, -, rfl⟩ := List.mem_map.mp mem
    by_cases bit : i.testBit j = true <;> simp [bit] <;> rfl

/-- A run over `count` files whose lines are 128 bytes each. -/
def manyFiles (count : Nat) (bounded : count ≤ 2 ^ 82) : Run where
  unittestPath := []
  entries := (List.range count).map bitEntry
  distinct := by
    rw [List.map_map]
    apply List.Nodup.map_on _ List.nodup_range
    intro i hi j hj eq
    exact bitName_inj (Nat.lt_of_lt_of_le (List.mem_range.mp hi) bounded)
      (Nat.lt_of_lt_of_le (List.mem_range.mp hj) bounded) eq
  under := fun _ _ => List.nil_prefix
  wellFormed := by
    intro e mem
    obtain ⟨i, -, rfl⟩ := List.mem_map.mp mem
    exact ⟨meowHash_isToken, zeroHash_isToken, bitName_isStoredPath i⟩
  mainBehind := []
  behind := []

/-- A run over no files. -/
def noFiles : Run := ⟨[], [], by simp, by simp, by simp, [], []⟩

theorem length_fileText_of_forall {es : List FileEntry} {n : Nat}
    (each : ∀ e ∈ es, (printEntry e).length = n) : (fileText es).length = es.length * n := by
  induction es with
  | nil => simp
  | cons e es ih =>
    rw [fileText_cons, List.length_append, each e List.mem_cons_self,
      ih fun f mem => each f (List.mem_cons_of_mem _ mem), List.length_cons, Nat.succ_mul]
    omega

theorem length_fileText_manyFiles (count : Nat) (bounded : count ≤ 2 ^ 82) :
    (fileText (manyFiles count bounded).stored).length = count * 128 := by
  have each : ∀ e ∈ (manyFiles count bounded).stored, (printEntry e).length = 128 := by
    intro e mem
    rw [((manyFiles count bounded).stored_wellFormed e mem).printEntry]
    obtain ⟨f, inside, rfl⟩ := List.mem_map.mp mem
    obtain ⟨i, -, rfl⟩ := List.mem_map.mp inside
    have func : (text "MeowHash").length = 8 := rfl
    have value : zeroHash.length = 35 := rfl
    have root : (manyFiles count bounded).unittestPath = [] := rfl
    simp only [storedEntry, bitEntry, root, withoutUnittestPath_nil, List.length_append,
      List.length_cons, List.length_nil, func, value, length_bitName]
  rw [length_fileText_of_forall each, Run.stored, List.length_map, manyFiles, List.length_map,
    List.length_range]

/-- 2^24 of these files make a database of 2^31 bytes. -/
def tooManyFiles : Run := manyFiles (2 ^ 24) (Nat.pow_le_pow_right (by decide) (by decide))

theorem length_fileText_tooManyFiles : (fileText tooManyFiles.stored).length = 2147483648 :=
  length_fileText_manyFiles _ _

theorem tooLong {content : Bytes} (size : content.length = 2147483648) :
    ¬ Fits content ∧ content.length + 10 < 4294967296 := by
  rw [Fits]
  omega

theorem expected_singleton (r : Run) : expected [r] = r.stored := by
  rw [expected_eq_putAll, List.flatMap_singleton, putAll_of_nodup r.stored_distinct]

/-- The database of 2^31 bytes that the first run leaves cannot be loaded again. -/
theorem not_incrementalLaw : ¬ IncrementalLaw [tooManyFiles, noFiles] := by
  intro law
  have size : (fileText (expected [tooManyFiles])).length = 2147483648 := by
    rw [expected_singleton, length_fileText_tooManyFiles]
  have first := law [] tooManyFiles [noFiles] rfl
  have encodes : Encodes (databaseAfter [tooManyFiles]) (expected [tooManyFiles]) := by
    rw [expected_singleton]
    have database : databaseAfter [tooManyFiles] = some (fileText (expected [tooManyFiles])) :=
      first.database
    rw [database, expected_singleton]
    exact encodes_fileText tooManyFiles.stored_wellFormed
  have ends := (law [tooManyFiles] noFiles [] rfl).ends
  rw [noFiles.perform_aborts encodes (tooLong size).1 (tooLong size).2] at ends
  cases ends

end BackupSuite.CtrlCenter
