import BackupSuite.CtrlCenter.IncrementalLaw

/-! # A second run on unchanged input

Merging, saving, loading and comparing is a fixed point: after a run every one of
its entries is found with its hash, also in a database that holds a path more than
once, so the same run again submits no job and writes the same two files.
-/

namespace BackupSuite.CtrlCenter

open BackupSuite.Library

/-- The same run later, with other memory behind its buffers. -/
def Run.again (r : Run) (mainBehind behind : Bytes) : Run :=
  { r with mainBehind := mainBehind, behind := behind }

/-- A run over `entries` that found nothing to do and left what the run before it left. -/
structure IsNoOp (entries : List FileEntry) (first second : RunEnd) : Prop where
  ends : second.stopped = none
  compare : second.compare = entries.map fun _ => .eSame
  jobs : second.jobs = []
  filehashes : second.filehashes = first.filehashes
  database : second.database = first.database

/-- Running `r` a second time finds nothing to do and changes no file. -/
def SecondRunIsNoOp (r : Run) (mainBehind behind : Bytes)
    (filehashes databaseFile : Option Bytes) : Prop :=
  let first := r.perform filehashes databaseFile
  IsNoOp r.entries first ((r.again mainBehind behind).perform first.filehashes first.database)

@[simp] theorem Run.again_stored (r : Run) (mainBehind behind : Bytes) :
    (r.again mainBehind behind).stored = r.stored := rfl

@[simp] theorem Run.again_entries (r : Run) (mainBehind behind : Bytes) :
    (r.again mainBehind behind).entries = r.entries := rfl

@[simp] theorem Run.again_merged (r : Run) (mainBehind behind : Bytes) (es : List FileEntry) :
    (r.again mainBehind behind).merged es = r.merged es := rfl

theorem Run.merged_merged (r : Run) (es : List FileEntry) : r.merged (r.merged es) = r.merged es :=
  putAll_idem r.stored es

theorem Run.compare_merged (r : Run) (es : List FileEntry) :
    compareToFileHashes r.stored (r.merged es) = r.entries.map fun _ => .eSame := by
  rw [compareToFileHashes, Run.stored, List.map_map]
  apply List.map_congr_left
  intro e mem
  have inside : storedEntry r.unittestPath e ∈ r.stored := List.mem_map_of_mem mem
  -- the paths of a run are distinct, so what it put last for the path is this entry
  have found := lookup_of_mem r.stored_distinct inside
  apply compareEntry_eq_eSame.mpr
  refine ⟨storedEntry r.unittestPath e, ?_, rfl⟩
  rw [Run.merged, lookup_putAll, lastWith_eq_lookup r.stored_distinct, found]
  rfl

theorem compressJobs_eSame (entries : List FileEntry) :
    compressJobs entries (entries.map fun _ => .eSame) = [] := by
  have none_left : (entries.zip (entries.map fun _ => CompareResult.eSame)).filter
      (fun p => p.2 ≠ .eSame) = [] := by
    rw [← List.map_prod_left_eq_zip, List.filter_map, List.map_eq_nil_iff, List.filter_eq_nil_iff]
    simp
  rw [compressJobs, none_left, List.map_nil]

theorem secondRun_of_fits (r : Run) {databaseFile : Option Bytes} {es : List FileEntry}
    (encodes : Encodes databaseFile es) (old : Fits (fileText es))
    (new : Fits (fileText (r.merged es))) (mainBehind behind : Bytes) (filehashes : Option Bytes) :
    SecondRunIsNoOp r mainBehind behind filehashes databaseFile := by
  have first := r.perform_of_encodes encodes old filehashes
  have second := (r.again mainBehind behind).perform_of_encodes
    (encodes_fileText (r.merged_wellFormed encodes.wellFormed)) new (some (fileText r.stored))
  simp only [Run.again_stored, Run.again_entries, Run.again_merged, r.merged_merged,
    r.compare_merged, compressJobs_eSame] at second
  rw [SecondRunIsNoOp, first]
  simp only [second]
  exact ⟨rfl, rfl, rfl, rfl, rfl⟩

theorem fits_of_secondRun (r : Run) {databaseFile : Option Bytes} {es : List FileEntry}
    (encodes : Encodes databaseFile es) (old : (fileText es).length + 10 < 4294967296)
    (new : (fileText (r.merged es)).length + 10 < 4294967296) {mainBehind behind : Bytes}
    {filehashes : Option Bytes} (noOp : SecondRunIsNoOp r mainBehind behind filehashes databaseFile) :
    Fits (fileText es) ∧ Fits (fileText (r.merged es)) := by
  have ends := IsNoOp.ends noOp
  -- a first run that ends early leaves the file, and the second one ends as the first
  have oldFits : Fits (fileText es) := by
    by_contra big
    rw [r.perform_aborts encodes big old] at ends
    rw [(r.again mainBehind behind).perform_aborts encodes big old] at ends
    cases ends
  refine ⟨oldFits, ?_⟩
  by_contra big
  rw [r.perform_of_encodes encodes oldFits] at ends
  rw [(r.again mainBehind behind).perform_aborts
    (encodes_fileText (r.merged_wellFormed encodes.wellFormed)) big new] at ends
  cases ends

/-- The second run is a no-op when the database fits before and after the first,
and up to 4 GiB only then. -/
theorem secondRun_noOp (r : Run) {databaseFile : Option Bytes} {es : List FileEntry}
    (encodes : Encodes databaseFile es) (mainBehind behind : Bytes) (filehashes : Option Bytes) :
    (Fits (fileText es) ∧ Fits (fileText (r.merged es)) →
      SecondRunIsNoOp r mainBehind behind filehashes databaseFile) ∧
    ((fileText es).length + 10 < 4294967296 →
      (fileText (r.merged es)).length + 10 < 4294967296 →
      SecondRunIsNoOp r mainBehind behind filehashes databaseFile →
      Fits (fileText es) ∧ Fits (fileText (r.merged es))) :=
  ⟨fun fits => secondRun_of_fits r encodes fits.1 fits.2 mainBehind behind filehashes,
    fun old new noOp => fits_of_secondRun r encodes old new noOp⟩

/-- A run over one file whose path the database holds twice. -/
theorem secondRun_noOp_duplicate :
    SecondRunIsNoOp
      ⟨text "in/", [⟨text "MeowHash", text "A1", text "in/a"⟩], by decide, by decide, by decide,
        [], []⟩
      [0] [7] none (some (text "MeowHash B2 a\nMeowHash C3 a\n")) :=
  have encodes : Encodes (some (text "MeowHash B2 a\nMeowHash C3 a\n"))
      [⟨text "MeowHash", text "B2", text "a"⟩, ⟨text "MeowHash", text "C3", text "a"⟩] :=
    ⟨by decide, by decide⟩
  (secondRun_noOp _ encodes [0] [7] none).1 ⟨by decide, by decide⟩

/-- After a first run over 2^24 files the second one cannot load the database. -/
theorem not_secondRun_noOp : ¬ SecondRunIsNoOp tooManyFiles [] [] none none := by
  intro noOp
  have merged : tooManyFiles.merged [] = tooManyFiles.stored :=
    putAll_of_nodup tooManyFiles.stored_distinct
  have size := tooLong length_fileText_tooManyFiles
  rw [← merged] at size
  exact size.1 (fits_of_secondRun tooManyFiles encodes_none (by decide) size.2 noOp).2

end BackupSuite.CtrlCenter
