import BackupSuite.CtrlCenter.CompressFile

/-! # What `decompressFile` gives back

`compressFile` stores a file under its archive name or, when the compressor does not
end well, as a raw copy under the output name; `decompressFile` looks for the archive
only.  The tools are parameters with their documented behaviour (`Compressors`,
`Decompressors`).
-/

namespace BackupSuite.CtrlCenter

open BackupSuite.Library

/-! ## The tools -/

/-- The programs in the tools folder. -/
def toolNames : List Bytes :=
  [text "lepton", text "precomp-cpp", text "zpaq715", text "meowhash"]

/-- The compressors.  `restores` is what the decompressor of a codec makes of an
archive; a compressor that exits with 0 has left one that it restores. -/
structure Compressors (toolsFolder : Bytes) (restores : Codec → Bytes → Option Bytes) where
  exec : List Bytes → Files → Child × Files
  missing : ∀ exe args files, (∀ name ∈ toolNames, exe ≠ toolsFolder ++ name) →
    exec (exe :: args) files = (.notCreated, files)
  lepton : ∀ input archive files stdout,
    (exec [toolsFolder ++ text "lepton", text "-singlethread", text "-allowprogressive", input,
      archive] files).1 = .exited 0 stdout →
    ∃ content stored, files input = some content ∧
      (exec [toolsFolder ++ text "lepton", text "-singlethread", text "-allowprogressive", input,
        archive] files).2 archive = some stored ∧ restores .lepton stored = some content
  zpaq : ∀ input archive files stdout,
    (exec [toolsFolder ++ text "zpaq715", text "a", archive, input, text "-m4", text "-t1"]
      files).1 = .exited 0 stdout →
    ∃ content stored, files input = some content ∧
      (exec [toolsFolder ++ text "zpaq715", text "a", archive, input, text "-m4", text "-t1"]
        files).2 archive = some stored ∧ restores .zpaq stored = some content

/-- A decompressor run that was to write `restored` to `output`. -/
def Decompressed (restored : Option Bytes) (output : Bytes) (ran : Child × Files) : Prop :=
  match restored with
  | some content => ∃ stdout, ran.1 = .exited 0 stdout ∧ ran.2 output = some content
  | none => ∃ status stdout, ran.1 = .exited status stdout ∧ status ≠ 0

/-- The decompressors and the hash tool, for an output that is not there yet and whose
folder is. -/
structure Decompressors (toolsFolder : Bytes) (restores : Codec → Bytes → Option Bytes)
    (meowHash : Bytes → MeowU128) where
  exec : List Bytes → Files → Child × Files
  lepton : ∀ archive output files, files output = none →
    Decompressed ((files archive).bind (restores .lepton)) output
      (exec [toolsFolder ++ text "lepton", text "-singlethread", text "-allowprogressive", archive,
        output] files)
  precomp : ∀ archive output files, files output = none →
    Decompressed ((files archive).bind (restores .precomp)) output
      (exec [toolsFolder ++ text "precomp-cpp", text "-r", text "-lt1", text "-o" ++ output,
        archive] files)
  zpaq : ∀ archive output files, files output = none →
    Decompressed ((files archive).bind (restores .zpaq)) output
      (exec [toolsFolder ++ text "zpaq715", text "x", archive, text "-to", output, text "-t1"]
        files)
  meowhash : ∀ path content files, files path = some content →
    (exec (hashCommand toolsFolder path) files).1 =
      .exited 0 (hashOneFile meowHash path (.contents content))

section

variable {conf : Configuration} {restores : Codec → Bytes → Option Bytes}
  {meowHash : Bytes → MeowU128}

/-- The hash line of a content, as `hashFile` returns it for a file at `path`. -/
def hashLine (meowHash : Bytes → MeowU128) (path content : Bytes) : Bytes :=
  cStr (fgets 127 (hashOneFile meowHash path (.contents content)))

theorem hashLine_eq (path content : Bytes) :
    hashLine meowHash path content =
      text "MeowHash " ++ (printHash (meowHash content) ++ cStr (32 :: fgets 82 path)) := by
  have hash := (printHash_isToken (meowHash content)).not_mem (c := 0) (by rfl)
  have split : text "MeowHash" ++ 32 :: (printHash (meowHash content) ++ 32 :: fgets 82 path) =
      text "MeowHash " ++ (printHash (meowHash content) ++ 32 :: fgets 82 path) := by simp [text]
  rw [hashLine, fgets_hashOneFile, split, cStr_append (by decide), cStr_append hash]

theorem hashLine_eq_iff (path content other : Bytes) :
    hashLine meowHash path content = hashLine meowHash path other ↔
      printHash (meowHash content) = printHash (meowHash other) := by
  rw [hashLine_eq, hashLine_eq]
  constructor
  · intro same
    have behind := List.append_cancel_left same
    exact (List.append_inj behind (by simp)).1
  · intro same
    rw [same]

theorem hashLine_ne_error (path content : Bytes) : hashLine meowHash path content ≠ text "ERROR" := by
  intro same
  rw [hashLine_eq] at same
  have heads := congrArg List.head? same
  simp [text] at heads

/-! ## The two runs -/

/-- The compressor's run of the job. -/
def compressorRun (conf : Configuration) (tools : Compressors conf.toolsFolder restores)
    (files : Files) (inputFilename : Bytes) (tempCounter : Nat) : Child × Files :=
  tools.exec (compressCommand conf inputFilename tempCounter) files

/-- The archive that `decompressFile` asks for. -/
def lookedFor (conf : Configuration) (inputFilename : Bytes) : Bytes :=
  archiveName (outputFilename conf inputFilename) (outputFilename conf inputFilename)

/-- The raw copy does not touch the archive: it is as the compressor left it. -/
theorem compressFile_lookedFor (tools : Compressors conf.toolsFolder restores) (files : Files)
    (inputFilename : Bytes) (tempCounter : Nat) (real : conf.dryRunFlag = false) :
    (compressFile conf tools.exec files inputFilename tempCounter).2 (lookedFor conf inputFilename) =
      (compressorRun conf tools files inputFilename tempCounter).2 (lookedFor conf inputFilename) := by
  have elsewhere : lookedFor conf inputFilename ≠ outputFilename conf inputFilename :=
    archiveName_ne _ _
  simp only [compressFile, real, Bool.false_eq_true, if_false, compressorRun]
  -- after a failure the copy is written, to the name without the suffix
  generalize tools.exec (compressCommand conf inputFilename tempCounter) files = ran
  cases runSubprocess ran.1 with
  | ok value => rfl
  | error message =>
    simp only [apply_ite Prod.snd, ite_self]
    exact copyFile_of_ne elsewhere

/-- A compressor that exits with 0 leaves an archive of the input under its name; the
misspelled precomp never gets that far. -/
theorem exists_archive (tools : Compressors conf.toolsFolder restores) {files : Files}
    {inputFilename : Bytes} {tempCounter : Nat} {stdout : Bytes}
    (exited : (compressorRun conf tools files inputFilename tempCounter).1 = .exited 0 stdout) :
    ∃ content stored, files inputFilename = some content ∧
      (compressorRun conf tools files inputFilename tempCounter).2
        (archiveName inputFilename (outputFilename conf inputFilename)) = some stored ∧
      restores (codecOf inputFilename) stored = some content := by
  rw [compressorRun] at exited ⊢
  rw [compressCommand_eq] at exited ⊢
  cases codec : codecOf inputFilename with
  | lepton =>
    simp only [codec] at exited ⊢
    exact tools.lepton _ _ _ _ exited
  | zpaq =>
    simp only [codec] at exited ⊢
    exact tools.zpaq _ _ _ _ exited
  | precomp =>
    simp only [codec] at exited
    -- no tool has the misspelled name, so the run does not start
    have absent : ∀ name ∈ toolNames,
        conf.toolsFolder ++ text "precomnp-cpp" ≠ conf.toolsFolder ++ name := by
      intro name mem same
      have names := List.append_cancel_left same
      subst names
      revert mem
      decide
    rw [tools.missing _ _ _ absent] at exited
    cases exited

/-- `decompressFile` runs the decompressor of the path's codec on its archive. -/
theorem decompressed_lookedFor (tools : Decompressors conf.toolsFolder restores meowHash)
    (files : Files) (path : Bytes) (noLeftover : files (conf.temporaryFolder ++ path) = none) :
    Decompressed ((files (archiveName path path)).bind (restores (codecOf path)))
      (conf.temporaryFolder ++ path) (tools.exec (decompressCommand conf path) files) := by
  rw [decompressCommand_eq]
  cases codec : codecOf path with
  | lepton => exact tools.lepton _ _ _ noLeftover
  | precomp => exact tools.precomp _ _ _ noLeftover
  | zpaq => exact tools.zpaq _ _ _ noLeftover

/-- What comes back is the hash line of what the archive restores to, or `ERROR`. -/
theorem decompressFile_eq (tools : Decompressors conf.toolsFolder restores meowHash) (files : Files)
    (path : Bytes) (noLeftover : files (conf.temporaryFolder ++ path) = none) :
    (decompressFile conf tools.exec files path).1 =
      match (files (archiveName path path)).bind (restores (codecOf path)) with
      | some content => .ok (hashLine meowHash (conf.temporaryFolder ++ path) content)
      | none => .ok (text "ERROR") := by
  have ran := decompressed_lookedFor tools files path noLeftover
  cases restored : (files (archiveName path path)).bind (restores (codecOf path)) with
  | none =>
    rw [restored] at ran
    obtain ⟨status, stdout, exited, failed⟩ := ran
    simp only [decompressFile, exited, runSubprocess, if_pos failed]
  | some content =>
    rw [restored] at ran
    obtain ⟨stdout, exited, written⟩ := ran
    have hashed := tools.meowhash _ _ _ written
    have zero : ¬ (0 : Int) ≠ 0 := by decide
    simp only [decompressFile, exited, runSubprocess, if_neg zero, hashFile, hashed, hashLine]

theorem restored_iff_lookedFor (compressors : Compressors conf.toolsFolder restores)
    (decompressors : Decompressors conf.toolsFolder restores meowHash) {files : Files}
    {inputFilename content : Bytes} {tempCounter : Nat} (real : conf.dryRunFlag = false)
    (noLeftover : (compressFile conf compressors.exec files inputFilename tempCounter).2
      (conf.temporaryFolder ++ outputFilename conf inputFilename) = none) :
    (decompressFile conf decompressors.exec
      (compressFile conf compressors.exec files inputFilename tempCounter).2
      (outputFilename conf inputFilename)).1 =
        .ok (hashLine meowHash (conf.temporaryFolder ++ outputFilename conf inputFilename) content) ↔
    ∃ stored other,
      (compressorRun conf compressors files inputFilename tempCounter).2
        (lookedFor conf inputFilename) = some stored ∧
      restores (codecOf (outputFilename conf inputFilename)) stored = some other ∧
      printHash (meowHash other) = printHash (meowHash content) := by
  have archive := compressFile_lookedFor compressors files inputFilename tempCounter real
  rw [decompressFile_eq decompressors _ _ noLeftover, ← lookedFor, archive]
  generalize (compressorRun conf compressors files inputFilename tempCounter).2
    (lookedFor conf inputFilename) = found
  -- no archive, one that does not restore, or one that restores to something
  cases found with
  | none =>
    constructor
    · intro same
      exact absurd (Except.ok.inj same).symm (hashLine_ne_error _ _)
    · rintro ⟨stored, other, absent, -⟩
      cases absent
  | some stored =>
    cases restored : restores (codecOf (outputFilename conf inputFilename)) stored with
    | none =>
      simp only [Option.bind_some, restored]
      constructor
      · intro same
        exact absurd (Except.ok.inj same).symm (hashLine_ne_error _ _)
      · rintro ⟨_, other, same, undecodable, -⟩
        cases same
        rw [restored] at undecodable
        cases undecodable
    | some other =>
      simp only [Option.bind_some, restored]
      constructor
      · intro same
        exact ⟨stored, other, rfl, restored, (hashLine_eq_iff _ _ _).mp (Except.ok.inj same)⟩
      · rintro ⟨_, again, same, decoded, hash⟩
        cases same
        cases restored.symm.trans decoded
        rw [(hashLine_eq_iff _ _ _).mpr hash]

/-- A stored file comes back with its hash exactly when the compressor ended with 0
and the two functions chose the same codec, or when whatever lies under the archive's
name otherwise restores to the same hash. -/
theorem restored_iff (compressors : Compressors conf.toolsFolder restores)
    (decompressors : Decompressors conf.toolsFolder restores meowHash) {files : Files}
    {inputFilename content : Bytes} {tempCounter : Nat} (real : conf.dryRunFlag = false)
    (input : files inputFilename = some content)
    (noLeftover : (compressFile conf compressors.exec files inputFilename tempCounter).2
      (conf.temporaryFolder ++ outputFilename conf inputFilename) = none) :
    (decompressFile conf decompressors.exec
      (compressFile conf compressors.exec files inputFilename tempCounter).2
      (outputFilename conf inputFilename)).1 =
        .ok (hashLine meowHash (conf.temporaryFolder ++ outputFilename conf inputFilename) content) ↔
    (∃ stdout,
      (compressorRun conf compressors files inputFilename tempCounter).1 = .exited 0 stdout ∧
        codecOf (outputFilename conf inputFilename) = codecOf inputFilename) ∨
    ∃ stored other,
      (compressorRun conf compressors files inputFilename tempCounter).2
        (lookedFor conf inputFilename) = some stored ∧
      restores (codecOf (outputFilename conf inputFilename)) stored = some other ∧
      printHash (meowHash other) = printHash (meowHash content) := by
  rw [restored_iff_lookedFor compressors decompressors real noLeftover]
  constructor
  · exact Or.inr
  · rintro (⟨stdout, exited, codec⟩ | leftover)
    · -- with one codec for both, the archive that was left is the one looked for
      obtain ⟨original, stored, read, archived, restored⟩ := exists_archive compressors exited
      cases read.symm.trans input
      have name : lookedFor conf inputFilename =
          archiveName inputFilename (outputFilename conf inputFilename) := by
        rw [lookedFor, archiveName, archiveName, codec]
      exact ⟨stored, content, by rw [name, archived], by rw [codec, restored], rfl⟩
    · exact leftover

end

/-! ### Tools that store -/

/-- Copy one file to another name. -/
def storeRun (files : Files) (source dest : Bytes) : Child × Files :=
  match files source with
  | some content => (.exited 0 [], files.write dest (some content))
  | none => (.exited 1 [], files)

/-- Compressors whose archive is the content itself. -/
def storingCompressors (toolsFolder : Bytes) :
    Compressors toolsFolder (fun _ stored => some stored) where
  exec cmdLine files :=
    match cmdLine with
    | [exe, _, _, input, archive] =>
      if exe = toolsFolder ++ text "lepton" then storeRun files input archive
      else (.notCreated, files)
    | [exe, _, archive, input, _, _] =>
      if exe = toolsFolder ++ text "zpaq715" then storeRun files input archive
      else (.notCreated, files)
    | _ => (.notCreated, files)
  missing := by
    intro exe args files absent
    have noLepton := absent (text "lepton") (by decide)
    have noZpaq := absent (text "zpaq715") (by decide)
    split
    · rw [if_neg]
      rintro rfl
      simp_all
    · rw [if_neg]
      rintro rfl
      simp_all
    · rfl
  lepton := by
    intro input archive files stdout
    simp only [if_true, storeRun]
    cases read : files input with
    | none => simp
    | some content => simp [Files.write]
  zpaq := by
    intro input archive files stdout
    simp only [if_true, storeRun]
    cases read : files input with
    | none => simp
    | some content => simp [Files.write]

theorem decompressed_storeRun (files : Files) (archive output : Bytes) :
    Decompressed ((files archive).bind some) output (storeRun files archive output) := by
  rw [storeRun]
  cases files archive with
  | none => exact ⟨1, [], rfl, by decide⟩
  | some content => exact ⟨[], rfl, by simp [Files.write]⟩

/-- The decompressors to these archives. -/
def storingDecompressors (toolsFolder : Bytes) (meowHash : Bytes → MeowU128) :
    Decompressors toolsFolder (fun _ stored => some stored) meowHash where
  exec cmdLine files :=
    match cmdLine with
    | [exe, _, _, fourth, fifth] =>
      if exe = toolsFolder ++ text "lepton" then storeRun files fourth fifth
      else if exe = toolsFolder ++ text "precomp-cpp" then storeRun files fifth (fourth.drop 2)
      else (.notCreated, files)
    | [exe, _, archive, _, output, _] =>
      if exe = toolsFolder ++ text "zpaq715" then storeRun files archive output
      else (.notCreated, files)
    | [_, path, _] =>
      (.exited 0 (hashOneFile meowHash path
        (match files path with | some content => .contents content | none => .unableToLoad)), files)
    | _ => (.notCreated, files)
  lepton archive output files _ := by
    simp only [if_true]
    exact decompressed_storeRun files archive output
  precomp archive output files _ := by
    have other : toolsFolder ++ text "precomp-cpp" ≠ toolsFolder ++ text "lepton" := by simp [text]
    have name : (text "-o" ++ output).drop 2 = output := rfl
    simp only [if_true, if_neg other, name]
    exact decompressed_storeRun files archive output
  zpaq archive output files _ := by
    simp only [if_true]
    exact decompressed_storeRun files archive output
  meowhash path content files read := by simp only [hashCommand, read]

def exampleConf : Configuration := ⟨text "out/", text "bin/", text "/tmp/", [], false⟩

def oneFile (path content : Bytes) : Files := fun p => if p = path then some content else none

/-- A text file comes back. -/
theorem restored_text :
    (decompressFile exampleConf (storingDecompressors (text "bin/") fun _ => ⟨0, 0, 0, 0⟩).exec
      (compressFile exampleConf (storingCompressors (text "bin/")).exec
        (oneFile (text "in/a.txt") [1, 2]) (text "in/a.txt") 0).2 (text "out/in/a.txt")).1 =
      .ok (hashLine (fun _ => ⟨0, 0, 0, 0⟩) (text "/tmp/out/in/a.txt") [1, 2]) :=
  (restored_iff (storingCompressors exampleConf.toolsFolder)
    (storingDecompressors exampleConf.toolsFolder fun _ => ⟨0, 0, 0, 0⟩) rfl (by decide)
    (by decide)).mpr (Or.inl ⟨[], by decide, by decide⟩)

/-- A picture does not: its compressor is never found, and its raw copy is not looked for. -/
theorem not_restored_png :
    (decompressFile exampleConf (storingDecompressors (text "bin/") fun _ => ⟨0, 0, 0, 0⟩).exec
      (compressFile exampleConf (storingCompressors (text "bin/")).exec
        (oneFile (text "in/a.png") [1, 2]) (text "in/a.png") 0).2 (text "out/in/a.png")).1 ≠
      .ok (hashLine (fun _ => ⟨0, 0, 0, 0⟩) (text "/tmp/out/in/a.png") [1, 2]) := by
  intro same
  obtain ⟨stored, other, found, -⟩ := (restored_iff_lookedFor
    (storingCompressors exampleConf.toolsFolder)
    (storingDecompressors exampleConf.toolsFolder fun _ => ⟨0, 0, 0, 0⟩) rfl (by decide)).mp same
  have nothing : (compressorRun exampleConf (storingCompressors exampleConf.toolsFolder)
      (oneFile (text "in/a.png") [1, 2]) (text "in/a.png") 0).2
        (lookedFor exampleConf (text "in/a.png")) = none := by decide
  rw [nothing] at found
  cases found

end BackupSuite.CtrlCenter
