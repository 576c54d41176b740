import BackupSuite.CtrlCenter.FileHashes
import BackupSuite.CtrlCenter.OutputNames
import BackupSuite.Zpaq.Newest

/-! # Restoring the newest version

Create runs write into one output folder, each with its own database, unittest path and
input files.  A file whose hash is new or changed gets a compress job, and zpaq decides
again, by date and size, whether it looks at the file.  `newestVersion` is about what the
extraction gives behind every run of a sequence.
-/

namespace BackupSuite.CtrlCenter

open BackupSuite.Library
open BackupSuite.Zpaq (Archive BlockSplit ExternalFile WellFormed Restorable)

/-- What lies at a place of the output folder: what reading takes for an archive of
zpaq's, or the copy of an input. -/
inductive Held where
  | archive (content : Archive)
  | copy (content : Bytes)
deriving DecidableEq

abbrev Folder := Bool × List Bytes → Option Held

/-- How the compressor of a job ended: with exit code 0, or else with some archive left
and a copy made of the input, of which there may be a part or nothing. -/
inductive CompressEnd where
  | archived
  | failed (left : Option { content : Archive // WellFormed content }) (copy : Option Bytes)

/-- A scanned file, where zpaq would start blocks for it, and how its job ends if it
gets one. -/
structure BackupFile where
  entry : FileEntry
  file : ExternalFile
  split : BlockSplit
  ends : CompressEnd

/-- A create run; `database` is what it loaded. -/
structure BackupRun where
  unittestPath : Bytes
  database : List FileEntry
  files : List BackupFile

/-- The files of the zpaq class that get a compress job. -/
def BackupRun.jobs (run : BackupRun) : List BackupFile :=
  run.files.filter fun f =>
    compareEntry f.entry run.database ≠ .eSame && codecOf f.entry.mPath = .zpaq

/-- The hash function, which modes let a file be opened for writing again, and what is
read in the copy of an input. -/
structure Archiver where
  sha1 : Bytes → Bytes
  opens : Nat → Bool
  reads : Bytes → Archive

variable (zpaq : Archiver) (conf : Configuration)

def runConf (run : BackupRun) : Configuration := { conf with unittestPath := run.unittestPath }

def archivePlace (f : BackupFile) : Bool × List Bytes :=
  place (jobOutput conf f.entry.mPath .archived)

def copyPlace (f : BackupFile) : Bool × List Bytes :=
  place (jobOutput conf f.entry.mPath .copied)

/-- What zpaq reads at a place. -/
def archiveAt (folder : Folder) (file : Bool × List Bytes) : Archive :=
  match folder file with
  | some (.archive content) => content
  | some (.copy content) => zpaq.reads content
  | none => []

/-- The folder with something new at a place. -/
def leave (folder : Folder) (file : Bool × List Bytes) : Option Held → Folder
  | some held => Function.update folder file (some held)
  | none => folder

/-- A compress job. -/
def compress (folder : Folder) (f : BackupFile) : Folder :=
  match f.ends with
  | .archived =>
    leave folder (archivePlace conf f) (some (.archive
      (Zpaq.add zpaq.sha1 f.split f.entry.mPath f.file (archiveAt zpaq folder (archivePlace conf f)))))
  | .failed left copy =>
    leave (leave folder (archivePlace conf f) (left.map fun content => .archive content.1))
      (copyPlace conf f) (copy.map .copy)

/-- The jobs of a run in the order in which they end. -/
def runFolder (folder : Folder) (run : BackupRun) : Folder :=
  run.jobs.foldl (compress zpaq (runConf conf run)) folder

def folderAfter (runs : List BackupRun) : Folder := runs.foldl (runFolder zpaq conf) fun _ => none

/-- `x archive -to output`; an output that looks like an option is not written. -/
def extracted (folder : Folder) (f : BackupFile) : Option Bytes :=
  let output := conf.temporaryFolder ++ outputFilename conf f.entry.mPath
  if output.head? = some 45 then none
  else Zpaq.extract zpaq.opens (archiveAt zpaq folder (archivePlace conf f))

/-- Behind every run, what was archived in it is extracted with its content. -/
def NewestVersion (runs : List BackupRun) : Prop :=
  ∀ front run back, runs = front ++ run :: back → ∀ f ∈ run.jobs, f.ends = .archived →
    extracted zpaq (runConf conf run) (folderAfter zpaq conf (front ++ [run])) f =
      some f.file.content

/-! ## When it holds -/

/-- The places that a job may write. -/
def touched (f : BackupFile) : List (Bool × List Bytes) :=
  match f.ends with
  | .archived => [archivePlace conf f]
  | .failed _ _ => [archivePlace conf f, copyPlace conf f]

/-- What a job that is archived finds: its archive's name has no `*` or `?`, no copy of
an input lies there, and the add can be restored. -/
structure JobMeets (folder : Folder) (f : BackupFile) : Prop where
  onePart : 42 ∉ jobOutput conf f.entry.mPath .archived ∧ 63 ∉ jobOutput conf f.entry.mPath .archived
  noOption : (conf.temporaryFolder ++ outputFilename conf f.entry.mPath).head? ≠ some 45
  noCopy : ∀ content, folder (archivePlace conf f) ≠ some (.copy content)
  restorable : Restorable zpaq.opens zpaq.sha1 f.entry.mPath f.file
    (archiveAt zpaq folder (archivePlace conf f))

/-- No job writes the archive of another. -/
def JobsApart (jobs : List BackupFile) : Prop :=
  jobs.Pairwise fun f g =>
    (f.ends = .archived → archivePlace conf f ∉ touched conf g) ∧
      (g.ends = .archived → archivePlace conf g ∉ touched conf f)

structure RunMeets (folder : Folder) (run : BackupRun) : Prop where
  jobs : ∀ f ∈ run.jobs, f.ends = .archived → JobMeets zpaq (runConf conf run) folder f
  apart : JobsApart (runConf conf run) run.jobs

/-! ## A job -/

/-- All archives of zpaq's are well-formed. -/
def FolderWellFormed (folder : Folder) : Prop :=
  ∀ file content, folder file = some (.archive content) → WellFormed content

variable {zpaq conf} {folder : Folder} {f : BackupFile}

theorem leave_of_ne {file other : Bool × List Bytes} (ne : other ≠ file) (held : Option Held) :
    leave folder file held other = folder other := by
  cases held with
  | none => rfl
  | some held => exact Function.update_of_ne ne _ _

theorem compress_frame (file : Bool × List Bytes) (untouched : file ∉ touched conf f) :
    compress zpaq conf folder f file = folder file := by
  rw [touched] at untouched
  rw [compress]
  cases ends : f.ends with
  | archived =>
    simp only [ends, List.mem_singleton] at untouched
    exact leave_of_ne untouched _
  | failed left copy =>
    simp only [ends, List.mem_cons, List.not_mem_nil, or_false, not_or] at untouched
    simp only
    rw [leave_of_ne untouched.2, leave_of_ne untouched.1]

theorem FolderWellFormed.leave (wf : FolderWellFormed folder) (file : Bool × List Bytes)
    {held : Option Held} (new : ∀ content, held = some (.archive content) → WellFormed content) :
    FolderWellFormed (leave folder file held) := by
  cases held with
  | none => exact wf
  | some held =>
    intro other content here
    by_cases same : other = file
    · subst same
      rw [CtrlCenter.leave, Function.update_self] at here
      exact new content here
    · rw [leave_of_ne same] at here
      exact wf other content here

theorem JobMeets.wellFormed (meets : JobMeets zpaq conf folder f) (wf : FolderWellFormed folder) :
    WellFormed (archiveAt zpaq folder (archivePlace conf f)) := by
  rw [archiveAt]
  cases here : folder (archivePlace conf f) with
  | none => exact Zpaq.wellFormed_nil
  | some held =>
    cases held with
    | archive content => exact wf _ content here
    | copy content => exact (meets.noCopy content here).elim

theorem compress_wellFormed (wf : FolderWellFormed folder)
    (meets : f.ends = .archived → JobMeets zpaq conf folder f) :
    FolderWellFormed (compress zpaq conf folder f) := by
  rw [compress]
  cases ends : f.ends with
  | archived =>
    refine wf.leave _ fun content new => ?_
    cases new
    exact ((meets ends).restorable.extract_add ((meets ends).wellFormed wf) f.split).2
  | failed left copy =>
    refine FolderWellFormed.leave (wf.leave _ fun content new => ?_) _ fun content new => ?_
    · obtain ⟨kept, -, same⟩ := Option.map_eq_some_iff.mp new
      cases same
      exact kept.2
    · obtain ⟨_, -, same⟩ := Option.map_eq_some_iff.mp new
      cases same

theorem extracted_compress (wf : FolderWellFormed folder) (meets : JobMeets zpaq conf folder f)
    (ends : f.ends = .archived) :
    extracted zpaq conf (compress zpaq conf folder f) f = some f.file.content := by
  have held : archiveAt zpaq (compress zpaq conf folder f) (archivePlace conf f) =
      Zpaq.add zpaq.sha1 f.split f.entry.mPath f.file
        (archiveAt zpaq folder (archivePlace conf f)) := by
    simp only [compress, ends, archiveAt, leave, Function.update_self]
  rw [extracted, if_neg meets.noOption, held]
  exact (meets.restorable.extract_add (meets.wellFormed wf) f.split).1

/-! ## A run, and all of them -/

theorem extracted_congr {folder' : Folder}
    (same : folder' (archivePlace conf f) = folder (archivePlace conf f)) :
    extracted zpaq conf folder' f = extracted zpaq conf folder f := by
  simp only [extracted, archiveAt, same]

theorem JobMeets.congr {folder' : Folder} (meets : JobMeets zpaq conf folder f)
    (same : folder' (archivePlace conf f) = folder (archivePlace conf f)) :
    JobMeets zpaq conf folder' f where
  onePart := meets.onePart
  noOption := meets.noOption
  noCopy := by
    rw [same]
    exact meets.noCopy
  restorable := by
    have archive : archiveAt zpaq folder' (archivePlace conf f) =
        archiveAt zpaq folder (archivePlace conf f) := by simp only [archiveAt, same]
    rw [archive]
    exact meets.restorable

theorem foldl_frame {jobs : List BackupFile} {file : Bool × List Bytes}
    (untouched : ∀ g ∈ jobs, file ∉ touched conf g) :
    jobs.foldl (compress zpaq conf) folder file = folder file := by
  induction jobs generalizing folder with
  | nil => rfl
  | cons g jobs ih =>
    rw [List.foldl_cons, ih fun g' mem => untouched g' (List.mem_cons_of_mem _ mem),
      compress_frame file (untouched g List.mem_cons_self)]

/-- Jobs that keep to their own archives restore all that they archive. -/
theorem foldl_restores {jobs : List BackupFile} (wf : FolderWellFormed folder)
    (meets : ∀ g ∈ jobs, g.ends = .archived → JobMeets zpaq conf folder g)
    (apart : JobsApart conf jobs) :
    FolderWellFormed (jobs.foldl (compress zpaq conf) folder) ∧
      ∀ g ∈ jobs, g.ends = .archived →
        extracted zpaq conf (jobs.foldl (compress zpaq conf) folder) g = some g.file.content := by
  induction jobs generalizing folder with
  | nil => exact ⟨wf, fun _ mem => by cases mem⟩
  | cons f jobs ih =>
    obtain ⟨others, apart⟩ := List.pairwise_cons.mp apart
    have first := meets f List.mem_cons_self
    have rest := ih (compress_wellFormed wf first) (fun g mem ends =>
      (meets g (List.mem_cons_of_mem _ mem) ends).congr
        (compress_frame _ ((others g mem).2 ends))) apart
    refine ⟨rest.1, fun g mem ends => ?_⟩
    cases mem with
    | head =>
      have later : ∀ g ∈ jobs, archivePlace conf f ∉ touched conf g :=
        fun g mem => (others g mem).1 ends
      rw [List.foldl_cons, extracted_congr (foldl_frame later)]
      exact extracted_compress wf (first ends) ends
    | tail _ mem => exact rest.2 g mem ends

/-- In every sequence of runs that meet the condition, every run restores. -/
theorem newestVersion (runs : List BackupRun)
    (meets : ∀ front run back, runs = front ++ run :: back →
      RunMeets zpaq conf (folderAfter zpaq conf front) run) :
    NewestVersion zpaq conf runs := by
  have wellFormed : ∀ front back, runs = front ++ back →
      FolderWellFormed (folderAfter zpaq conf front) := by
    intro front
    induction front using List.reverseRecOn with
    | nil => exact fun _ _ _ _ none => by cases none
    | append_singleton front run ih =>
      intro back split
      have split : runs = front ++ run :: back := by simpa using split
      have run := meets front run back split
      rw [folderAfter, List.foldl_append]
      exact (foldl_restores (ih _ split) run.jobs run.apart).1
  intro front run back split f mem ends
  have before := wellFormed front (run :: back) split
  have run := meets front run back split
  rw [folderAfter, List.foldl_append]
  exact (foldl_restores before run.jobs run.apart).2 f mem ends

/-! ### Runs over one file -/

/-- All new fragments in one block. -/
def oneBlock : BlockSplit where
  split := fun frags => if frags = [] then [] else [frags]
  flatten := fun frags => by
    split
    · next none => rw [none]; rfl
    · simp
  nonempty := fun frags block mem => by
    split at mem
    · cases mem
    · next some => rwa [List.mem_singleton.mp mem]

/-- The SHA-1 of the bytes 1 and 2, and files that their owner may read and write. -/
def exampleArchiver : Archiver where
  sha1 := fun bytes =>
    if bytes = [1] then
      [0xbf, 0x8b, 0x45, 0x30, 0xd8, 0xd2, 0x46, 0xdd, 0x74, 0xac, 0x53, 0xa1, 0x34, 0x71, 0xbb, 0xa1,
        0x79, 0x41, 0xdf, 0xf7]
    else
      [0xc4, 0xea, 0x21, 0xbb, 0x36, 0x5b, 0xbe, 0xea, 0xf5, 0xf2, 0xc6, 0x54, 0x88, 0x3e, 0x56, 0xd1,
        0x1e, 0x43, 0xc4, 0x4e]
  opens := fun mode => mode / 128 % 4 = 3
  reads := fun _ => []

def newestConf : Configuration := ⟨text "out/", text "bin/", text "/tmp/", [], false⟩

/-- A file of one byte; `known` is the byte with whose hash the database has the file. -/
def oneByteFile (path : Bytes) (byte : UInt8) (mtime : Int) : BackupFile :=
  ⟨⟨text "MeowHash", [65 + byte], path⟩, ⟨[byte], mtime, 33188, true⟩, oneBlock, .archived⟩

def oneFileRun (unittestPath path : Bytes) (byte : UInt8) (known : List UInt8) : BackupRun where
  unittestPath := unittestPath
  database := known.map fun old => ⟨text "MeowHash", [65 + old], path⟩
  files := [oneByteFile path byte 0]

theorem oneFileRun_meets {unittestPath path : Bytes} {byte : UInt8} {known : List UInt8}
    (meets : JobMeets zpaq (runConf conf (oneFileRun unittestPath path byte known)) folder
      (oneByteFile path byte 0)) :
    RunMeets zpaq conf folder (oneFileRun unittestPath path byte known) where
  jobs := fun f mem _ => by
    rw [List.mem_singleton.mp (List.mem_filter.mp mem).1]
    exact meets
  apart := (List.pairwise_singleton _ _).filter _

/-- A file is archived from the folder `b`, then a changed one from `a` under its name. -/
def fromB : BackupRun := oneFileRun (text "b/") (text "b/x") 1 []

def fromA : BackupRun := oneFileRun (text "a/") (text "a/x") 2 [1]

theorem fromB_meets :
    RunMeets exampleArchiver newestConf (folderAfter exampleArchiver newestConf []) fromB :=
  oneFileRun_meets
    { onePart := by decide
      noOption := by decide
      noCopy := fun _ held => by cases held
      restorable :=
        { noticed := ⟨rfl, by decide, by decide, by decide, fun _ mem => by cases mem⟩
          apart := ⟨(fun _ mem => by cases mem), (fun _ mem => by cases mem)⟩
          ends := Zpaq.sealed_of_short (by decide) } }

/-- The archive that the second run finds. -/
def fromBArchive : Archive := [⟨[[[1]]], [⟨text "b/x", 19700101000000, 8496245, [1]⟩]⟩]

theorem fromA_restorable : Restorable exampleArchiver.opens exampleArchiver.sha1 (text "a/x")
    (oneByteFile (text "a/x") 2 0).file fromBArchive where
  noticed := ⟨rfl, by decide, by decide, by decide, by decide⟩
  apart :=
    { readable := fun p mem _ _ => by
        have all : ∀ p ∈ (Zpaq.contents fromBArchive).dt,
            exampleArchiver.opens (p.attr / 256) = true := by decide
        exact all p mem
      before := fun _ _ _ b inside shared => by
        have new : ∀ b ∈ (Zpaq.contents fromBArchive).block,
            ¬ ∃ f ∈ b.frags, f ∈ Zpaq.fragments [2] := by decide
        exact (new b inside shared).elim }
  ends := Zpaq.sealed_of_short (by decide)

theorem fromA_job : JobMeets exampleArchiver (runConf newestConf fromA)
    (folderAfter exampleArchiver newestConf [fromB]) (oneByteFile (text "a/x") 2 0) := by
  have found : folderAfter exampleArchiver newestConf [fromB]
      (archivePlace (runConf newestConf fromA) (oneByteFile (text "a/x") 2 0)) =
        some (.archive fromBArchive) := by decide
  refine ⟨by decide, by decide, fun _ held => ?_, ?_⟩
  · cases found.symm.trans held
  · rw [archiveAt, found]
    exact fromA_restorable

theorem fromA_meets :
    RunMeets exampleArchiver newestConf (folderAfter exampleArchiver newestConf [fromB]) fromA :=
  oneFileRun_meets fromA_job

theorem newestVersion_twoFolders : NewestVersion exampleArchiver newestConf [fromB, fromA] := by
  refine newestVersion [fromB, fromA] fun front run back split => ?_
  cases front with
  | nil =>
    cases split
    exact fromB_meets
  | cons first front =>
    cases front with
    | nil =>
      cases split
      exact fromA_meets
    | cons second front =>
      have lengths := congrArg List.length split
      simp at lengths

/-- A change that keeps size and second is not noticed; and of three files under one
name, the middle one is in the output when the third has the content of the first. -/
theorem not_newestVersion :
    ¬ NewestVersion exampleArchiver newestConf
      [oneFileRun [] (text "in/a") 1 [], oneFileRun [] (text "in/a") 2 [1]] ∧
    ¬ NewestVersion exampleArchiver newestConf
      [fromB, fromA, oneFileRun (text "c/") (text "c/x") 1 [2]] := by
  constructor
  · intro newest
    have restored := newest [oneFileRun [] (text "in/a") 1 []] (oneFileRun [] (text "in/a") 2 [1])
      [] rfl _ (List.mem_filter.mpr ⟨List.mem_singleton_self _, by decide⟩) rfl
    revert restored
    decide
  · intro newest
    have restored := newest [fromB, fromA] (oneFileRun (text "c/") (text "c/x") 1 [2]) []
      rfl _ (List.mem_filter.mpr ⟨List.mem_singleton_self _, by decide⟩) rfl
    revert restored
    decide

end BackupSuite.CtrlCenter
