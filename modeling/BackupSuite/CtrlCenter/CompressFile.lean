import BackupSuite.CtrlCenter.HashStage

/-! # `compressFile` and `decompressFile`

The command lines the two build, the names they use and what they do to the files.
They choose executable, suffix and arguments each for itself; `compressCommand_eq`
and `decompressCommand_eq` read both off one codec.
-/

namespace BackupSuite.CtrlCenter

open BackupSuite.Library

structure Configuration where
  outputFolder : Bytes
  toolsFolder : Bytes
  temporaryFolder : Bytes
  unittestPath : Bytes
  dryRunFlag : Bool

/-- The contents of the files, by path. -/
abbrev Files := Bytes → Option Bytes

/-! ## Names -/

/-- What follows the last dot, wherever it stands. -/
def extractFileExtensionFromFilePatch (input : Bytes) : Bytes :=
  if 46 ∈ input then (input.reverse.takeWhile (· != 46)).reverse else []

def toLower (s : Bytes) : Bytes := s.map fun ch => if 65 ≤ ch ∧ ch ≤ 90 then ch + 32 else ch

def outputFilename (conf : Configuration) (inputFilename : Bytes) : Bytes :=
  conf.outputFolder ++ withoutUnittestPath conf.unittestPath inputFilename

/-! ## Command lines -/

def compressCommand (conf : Configuration) (inputFilename : Bytes) (tempCounter : Nat) :
    List Bytes :=
  let extension := toLower (extractFileExtensionFromFilePatch inputFilename)
  let output := outputFilename conf inputFilename
  let tempFile := text "-u" ++ conf.temporaryFolder ++ text "/~precomp_temp_" ++
    text (toString tempCounter)
  if extension = text "jpg" ∨ extension = text "jpeg" then
    [conf.toolsFolder ++ text "lepton", text "-singlethread", text "-allowprogressive",
      inputFilename, output ++ text ".lepton"]
  else if extension = text "mp3" then
    -- the tool is called precomp-cpp
    [conf.toolsFolder ++ text "precomnp-cpp", text "-lt1", text "-cn",
      text "-o" ++ output ++ text ".pcf", tempFile, inputFilename]
  else if extension = text "png" ∨ extension = text "pdf" ∨ extension = text "zip" ∨
      extension = text "gzip" ∨ extension = text "bzip2" then
    [conf.toolsFolder ++ text "precomnp-cpp", text "-lt1", text "-cl",
      text "-o" ++ output ++ text ".pcf", tempFile, inputFilename]
  else
    [conf.toolsFolder ++ text "zpaq715", text "a", output ++ text ".zpaq", inputFilename,
      text "-m4", text "-t1"]

def decompressCommand (conf : Configuration) (inputFilename : Bytes) : List Bytes :=
  let extension := toLower (extractFileExtensionFromFilePatch inputFilename)
  let outputFile := conf.temporaryFolder ++ inputFilename
  if extension = text "jpg" ∨ extension = text "jpeg" then
    [conf.toolsFolder ++ text "lepton", text "-singlethread", text "-allowprogressive",
      inputFilename ++ text ".lepton", outputFile]
  else if extension = text "mp3" ∨ extension = text "png" ∨ extension = text "pdf" ∨
      extension = text "zip" ∨ extension = text "gzip" ∨ extension = text "bzip2" then
    [conf.toolsFolder ++ text "precomp-cpp", text "-r", text "-lt1", text "-o" ++ outputFile,
      inputFilename ++ text ".pcf"]
  else
    [conf.toolsFolder ++ text "zpaq715", text "x", inputFilename ++ text ".zpaq", text "-to",
      outputFile, text "-t1"]

/-! ## Effects -/

def Files.write (files : Files) (path : Bytes) (content : Option Bytes) : Files :=
  Function.update files path content

/-- `copyFile` when every read and write succeeds; it fails without a source. -/
def copyFile (files : Files) (sourcePath destPath : Bytes) : Bool × Files :=
  match files sourcePath with
  | none => (false, files)
  | some content => (true, files.write destPath (some content))

section

variable (conf : Configuration) (exec : List Bytes → Files → Child × Files)

/-- What `compressFile` returns and the files it leaves. -/
def compressFile (files : Files) (inputFilename : Bytes) (tempCounter : Nat) :
    Except Stop Bytes × Files :=
  if conf.dryRunFlag then (.ok [], files)
  else
    let ran := exec (compressCommand conf inputFilename tempCounter) files
    match runSubprocess ran.1 with
    | .ok value => (.ok value, ran.2)
    | .error _ =>
      -- the copy gets the output name, without the archive's suffix
      let copied := copyFile ran.2 inputFilename (outputFilename conf inputFilename)
      if copied.1 then (.ok (text "ERROR"), copied.2) else (.error .exits, copied.2)

/-- What `decompressFile` returns and the files it leaves. -/
def decompressFile (files : Files) (inputFilename : Bytes) : Except Stop Bytes × Files :=
  let outputFile := conf.temporaryFolder ++ inputFilename
  let ran := exec (decompressCommand conf inputFilename) files
  match runSubprocess ran.1 with
  -- a file that was stored as a copy is not looked for (the source has a TODO here)
  | .error _ => (.ok (text "ERROR"), ran.2)
  | .ok _ =>
    match hashFile conf.toolsFolder (fun cmdLine => (exec cmdLine ran.2).1) outputFile with
    | .error stop => (.error stop, ran.2)
    | .ok uncompressedHash => (.ok uncompressedHash, ran.2.write outputFile none)

end

theorem copyFile_of_ne {files : Files} {sourcePath destPath path : Bytes} (ne : path ≠ destPath) :
    (copyFile files sourcePath destPath).2 path = files path := by
  rw [copyFile]
  cases files sourcePath with
  | none => rfl
  | some content => exact Function.update_of_ne ne _ _

/-! ## One codec for both -/

inductive Codec where
  | lepton
  | precomp
  | zpaq
deriving DecidableEq, Repr

/-- The codec of a path, by its extension. -/
def codecOf (path : Bytes) : Codec :=
  let extension := toLower (extractFileExtensionFromFilePatch path)
  if extension = text "jpg" ∨ extension = text "jpeg" then .lepton
  else if extension = text "mp3" ∨ extension = text "png" ∨ extension = text "pdf" ∨
      extension = text "zip" ∨ extension = text "gzip" ∨ extension = text "bzip2" then .precomp
  else .zpaq

def Codec.suffix : Codec → Bytes
  | .lepton => text ".lepton"
  | .precomp => text ".pcf"
  | .zpaq => text ".zpaq"

theorem Codec.suffix_ne_nil (c : Codec) : c.suffix ≠ [] := by cases c <;> decide

/-- The archive `compressFile` asks for, and the one `decompressFile` looks for. -/
def archiveName (path output : Bytes) : Bytes := output ++ (codecOf path).suffix

/-- `compressFile` starts its tool on the archive name; for precomp it misspells the tool. -/
theorem compressCommand_eq (conf : Configuration) (inputFilename : Bytes) (tempCounter : Nat) :
    let archive := archiveName inputFilename (outputFilename conf inputFilename)
    compressCommand conf inputFilename tempCounter =
      match codecOf inputFilename with
      | .lepton => [conf.toolsFolder ++ text "lepton", text "-singlethread",
          text "-allowprogressive", inputFilename, archive]
      | .precomp => [conf.toolsFolder ++ text "precomnp-cpp", text "-lt1",
          if toLower (extractFileExtensionFromFilePatch inputFilename) = text "mp3" then text "-cn"
          else text "-cl",
          text "-o" ++ archive, text "-u" ++ conf.temporaryFolder ++ text "/~precomp_temp_" ++
            text (toString tempCounter), inputFilename]
      | .zpaq => [conf.toolsFolder ++ text "zpaq715", text "a", archive, inputFilename,
          text "-m4", text "-t1"] := by
  simp only [compressCommand, archiveName, codecOf]
  -- the codec groups the extensions of `decompressFile`, where mp3 is one of the others
  generalize toLower (extractFileExtensionFromFilePatch inputFilename) = extension
  by_cases jpg : extension = text "jpg" ∨ extension = text "jpeg"
  · simp only [if_pos jpg, Codec.suffix]
  · by_cases mp3 : extension = text "mp3"
    · have precomp : extension = text "mp3" ∨ extension = text "png" ∨ extension = text "pdf" ∨
          extension = text "zip" ∨ extension = text "gzip" ∨ extension = text "bzip2" := Or.inl mp3
      simp only [if_neg jpg, if_pos mp3, if_pos precomp, Codec.suffix, List.append_assoc]
    · by_cases others : extension = text "png" ∨ extension = text "pdf" ∨
          extension = text "zip" ∨ extension = text "gzip" ∨ extension = text "bzip2"
      · have precomp := Or.inr (a := extension = text "mp3") others
        simp only [if_neg jpg, if_neg mp3, if_pos others, if_pos precomp, Codec.suffix,
          List.append_assoc]
      · have zpaq := not_or.mpr ⟨mp3, others⟩
        simp only [if_neg jpg, if_neg mp3, if_neg others, if_neg zpaq, Codec.suffix]

theorem decompressCommand_eq (conf : Configuration) (inputFilename : Bytes) :
    decompressCommand conf inputFilename =
      match codecOf inputFilename with
      | .lepton => [conf.toolsFolder ++ text "lepton", text "-singlethread",
          text "-allowprogressive", archiveName inputFilename inputFilename,
          conf.temporaryFolder ++ inputFilename]
      | .precomp => [conf.toolsFolder ++ text "precomp-cpp", text "-r", text "-lt1",
          text "-o" ++ (conf.temporaryFolder ++ inputFilename),
          archiveName inputFilename inputFilename]
      | .zpaq => [conf.toolsFolder ++ text "zpaq715", text "x",
          archiveName inputFilename inputFilename, text "-to", conf.temporaryFolder ++ inputFilename,
          text "-t1"] := by
  simp only [decompressCommand, archiveName, codecOf]
  generalize toLower (extractFileExtensionFromFilePatch inputFilename) = extension
  by_cases jpg : extension = text "jpg" ∨ extension = text "jpeg"
  · simp only [if_pos jpg, Codec.suffix]
  · simp only [if_neg jpg]
    split <;> simp only [Codec.suffix]

theorem archiveName_ne (path output : Bytes) : archiveName path output ≠ output := by
  intro same
  exact (codecOf path).suffix_ne_nil (List.append_right_eq_self.mp same)

end BackupSuite.CtrlCenter
