import BackupSuite.Library.Jobs
import BackupSuite.CtrlCenter.ArchiveNames
import BackupSuite.CtrlCenter.Paths
import BackupSuite.CtrlCenter.Restore

/-! # `verifyArchive`

One job per entry of `filehashes.txt` runs `decompressFile`, and when all have returned
the hash in each result is compared with the recorded one.  The jobs share the
temporary folder; the archives are apart from it and only read.  What the
decompressors do is a parameter here.
-/

namespace BackupSuite.CtrlCenter

open BackupSuite.Library

/-! ## Files and folders -/

inductive Node where
  | file (content : Bytes)
  | folder
deriving DecidableEq, Repr

/-- What there is under each path, where the temporary folder is. -/
abbrev Nodes := FolderPath → Option Node

section

variable (cwd : FolderPath)

/-- The folders on the way to a path are there. -/
def Leads (nodes : Nodes) (path : Bytes) : Prop :=
  ∀ folder ∈ wayTo cwd path, nodes folder = some .folder

instance (nodes : Nodes) (path : Bytes) : Decidable (Leads cwd nodes path) :=
  inferInstanceAs (Decidable (∀ folder ∈ _, _))

/-- `ReadEntireFile`; no buffer can have the size that is reported for a folder. -/
def readEntireFile (nodes : Nodes) (path : Bytes) : EntireFile :=
  if Leads cwd nodes path then
    match nodes (folderOf cwd path) with
    | some (.file content) => .contents content
    | some .folder => .unallocated
    | none => .unableToLoad
  else .unableToLoad

/-- `unlink` -/
def deleteFile (path : Bytes) (nodes : Nodes) : Bool × Nodes :=
  if Leads cwd nodes path then
    match nodes (folderOf cwd path) with
    | some (.file _) => (true, Function.update nodes (folderOf cwd path) none)
    | _ => (false, nodes)
  else (false, nodes)

end

/-! ## The jobs -/

/-- A run of `verifyArchive` on the entries it has read.  `decompressor` says, for a
command line and what there is before, what can become of the process and what it leaves. -/
structure Verify where
  conf : Configuration
  inputArgument : Bytes
  cwd : FolderPath
  entries : List FileEntry
  meowHash : Bytes → MeowU128
  decompressor : List Bytes → Nodes → Child → Nodes → Prop

/-- Where a job is in `decompressFile`. -/
inductive JobState where
  | queued
  | decompressed
  | hashed (uncompressedHash : Bytes)
  | returned (result : Bytes)
deriving DecidableEq, Repr

section

variable (v : Verify)

/-- `hashFile` in the temporary folder. -/
def hashOutput (nodes : Nodes) (outputFile : Bytes) : Except Stop Bytes :=
  hashFile v.conf.toolsFolder
    (fun cmdLine =>
      let ended := meowhashMain v.meowHash (readEntireFile v.cwd nodes) cmdLine
      .exited ended.1 ended.2)
    outputFile

/-- One step of `decompressFile`. -/
inductive DecompressStep (inputFilename : Bytes) : Nodes × JobState → Nodes × JobState → Prop
  /-- the error path leaves everything as the decompressor left it -/
  | failed {nodes nodes' : Nodes} {child : Child} {message : Bytes}
      (ran : v.decompressor (decompressCommand v.conf inputFilename) nodes child nodes')
      (error : runSubprocess child = .error message) :
      DecompressStep inputFilename (nodes, .queued) (nodes', .returned (text "ERROR"))
  | decompress {nodes nodes' : Nodes} {child : Child} {value : Bytes}
      (ran : v.decompressor (decompressCommand v.conf inputFilename) nodes child nodes')
      (ok : runSubprocess child = .ok value) :
      DecompressStep inputFilename (nodes, .queued) (nodes', .decompressed)
  | hash {nodes : Nodes} {uncompressedHash : Bytes}
      (ok : hashOutput v nodes (v.conf.temporaryFolder ++ inputFilename) = .ok uncompressedHash) :
      DecompressStep inputFilename (nodes, .decompressed) (nodes, .hashed uncompressedHash)
  | delete {nodes : Nodes} {uncompressedHash : Bytes} :
      DecompressStep inputFilename (nodes, .hashed uncompressedHash)
        ((deleteFile v.cwd (v.conf.temporaryFolder ++ inputFilename) nodes).2,
          .returned uncompressedHash)

def Verify.inputFolder : Bytes := normalizeDirPath v.inputArgument

abbrev Verify.Index : Type := Fin v.entries.length

variable {v} in
def Verify.Index.entry (i : v.Index) : FileEntry := v.entries[i]

variable {v} in
def Verify.Index.filename (i : v.Index) : Bytes := v.inputFolder ++ i.entry.mPath

variable {v} in
def Verify.Index.outputFile (i : v.Index) : Bytes := v.conf.temporaryFolder ++ i.filename

/-- One step of one of the jobs. -/
def Verify.step (i : v.Index) : Nodes × JobState → Nodes × JobState → Prop :=
  DecompressStep v i.filename

def Verify.start (nodes : Nodes) : JobStates v.Index Nodes JobState := ⟨nodes, fun _ => .queued⟩

/-- `quickpool::done()` -/
def Verify.Done (s : JobStates v.Index Nodes JobState) : Prop :=
  ∀ i, ∃ result, s.job i = .returned result

/-- The run from `nodes` can come to `s`, with all jobs done. -/
def Verify.Ends (nodes : Nodes) (s : JobStates v.Index Nodes JobState) : Prop :=
  Interleaved v.step (v.start nodes) s ∧ v.Done s

end

/-! ## The comparison -/

/-- The second word of a result. -/
def hashValueOf (filehashComputed : Bytes) : Bytes :=
  let readCursor := skipNonWhitespace (cStr filehashComputed)
  let startToken := skipWhitespace readCursor
  between startToken (skipNonWhitespace startToken)

/-- What is printed for an entry and the result of its job. -/
def compareHashes (entry : FileEntry) (filehashComputed : Bytes) : Option Bytes :=
  let hashValue := hashValueOf filehashComputed
  if entry.mHashValue ≠ hashValue then
    some (text "ERROR: hash mismatch found! " ++ cStr entry.mPath ++ text " : <" ++
      cStr entry.mHashValue ++ text "> <" ++ hashValue ++ text ">\n")
  else none

/-- The line for one entry, once its job has returned. -/
def Verify.mismatch (v : Verify) (s : JobStates v.Index Nodes JobState) (i : v.Index) : Option Bytes :=
  match s.job i with
  | .returned result => compareHashes i.entry result
  | _ => none

/-- The entries that a mismatch is printed for, with the printed lines. -/
def Verify.mismatches (v : Verify) (s : JobStates v.Index Nodes JobState) : List (v.Index × Bytes) :=
  (List.finRange v.entries.length).filterMap fun i => (v.mismatch s i).map (i, ·)

/-! ## Results as hash values -/

theorem cStr_noNul (s : Bytes) : 0 ∉ cStr s := by
  intro mem
  have notNul := List.mem_takeWhile_imp mem
  simp at notNul

theorem hashValueOf_hashLine (meowHash : Bytes → MeowU128) (path content : Bytes) :
    hashValueOf (hashLine meowHash path content) = printHash (meowHash content) := by
  have token := printHash_isToken (meowHash content)
  have blank : cStr (32 :: fgets 82 path) = 32 :: cStr (fgets 82 path) := rfl
  have line : cStr (hashLine meowHash path content) =
      text "MeowHash" ++ ([32] ++ (printHash (meowHash content) ++ cStr (32 :: fgets 82 path))) := by
    have noNul : 0 ∉ hashLine meowHash path content := cStr_noNul _
    rw [cStr_of_noNul noNul, hashLine_eq]
    simp [text]
  have label : skipNonWhitespace (cStr (hashLine meowHash path content)) =
      [32] ++ (printHash (meowHash content) ++ cStr (32 :: fgets 82 path)) := by
    rw [line]
    exact advance_token (List.all_eq_true.mp rfl) (stops_cons.mpr rfl)
  have start : Stops isWhitespace (printHash (meowHash content) ++ cStr (32 :: fgets 82 path)) := by
    cases split : printHash (meowHash content) with
    | nil => exact absurd split token.nonempty
    | cons c cs =>
      have clean := token.clean c (split ▸ List.mem_cons_self)
      exact stops_cons.mpr (by simp_all [isTokenChar])
  have value : skipWhitespace ([32] ++ (printHash (meowHash content) ++ cStr (32 :: fgets 82 path))) =
      printHash (meowHash content) ++ cStr (32 :: fgets 82 path) :=
    advance_token (List.forall_mem_singleton.mpr rfl) start
  have behind : skipNonWhitespace (printHash (meowHash content) ++ cStr (32 :: fgets 82 path)) =
      cStr (32 :: fgets 82 path) := by
    refine advance_token token.clean ?_
    rw [blank]
    exact stops_cons.mpr rfl
  rw [hashValueOf, label, value, behind, between_append]

theorem compareHashes_isSome {entry : FileEntry} {result : Bytes} :
    (compareHashes entry result).isSome ↔ entry.mHashValue ≠ hashValueOf result := by
  rw [compareHashes]
  split
  case isTrue differ => simp [differ]
  case isFalse same => simpa using same

theorem mem_mismatches {v : Verify} {s : JobStates v.Index Nodes JobState} {i : v.Index} {line : Bytes} :
    (i, line) ∈ v.mismatches s ↔ v.mismatch s i = some line := by
  simp [Verify.mismatches, List.mem_filterMap]

end BackupSuite.CtrlCenter
