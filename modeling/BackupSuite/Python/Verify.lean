import BackupSuite.CtrlCenter.HashStage
import BackupSuite.Library.LexicalPath
import BackupSuite.Library.Substring
import BackupSuite.Python.MergeFilehashes

/-! # `verify` of the script

`uncompressAndGenerateHash` on the archives of a folder, and the comparison of what it
returns with `filehashes.txt`.
-/

namespace BackupSuite.Python

open BackupSuite.Library BackupSuite.CtrlCenter

def normalizePath (path : Str) : Str := path.map fun c => if c = '\\' then '/' else c

def tmp : Str := "/tmp/".toList

/-- What a decompressor leaves at its output: what `meowhash` reads there, and whether
`os.remove` works on it. -/
structure Output where
  read : EntireFile
  removable : Bool
deriving DecidableEq, Repr

/-- The arguments of the script with a slash behind the input. -/
def inputOf (argument : Str) : Str :=
  if argument.getLast? = some '/' ∨ argument.getLast? = some '\\' then argument else argument ++ ['/']

def filehashpathOf (argument : Str) : Str := normalizePath (join (inputOf argument) "filehashes.txt".toList)

/-- A folder to verify, before anything has been restored from it. -/
structure ArchiveFolder where
  inputArgument : Str
  tools : Str
  /-- `generateFilelist` of the input -/
  files : List Str
  filehashes_mem : filehashpathOf inputArgument ∈ files
  /-- what lies under `/tmp` when the script starts -/
  leftover : Str → Bool
  meowHash : Bytes → MeowU128
  isprintable : Char → Bool

namespace ArchiveFolder

variable (folder : ArchiveFolder)

def inputpath : Str := normalizePath (inputOf folder.inputArgument)

/-- `files` without `filehashes.txt`. -/
def archives : List Str := folder.files.erase (filehashpathOf folder.inputArgument)

def outputfile (file : Str) : Str := join tmp (eraseAll folder.inputpath (splitext file).1)

/-- The decompressor for the extension. -/
def command (file : Str) : Option (List Str) :=
  let lowerExt := lower (splitext file).2
  if lowerExt = ".lepton".toList then
    some [folder.tools ++ "/lepton".toList, "-singlethread".toList, "-allowprogressive".toList, file,
      folder.outputfile file]
  else if lowerExt = ".pcf".toList then
    some [folder.tools ++ "/precomp-cpp".toList, "-r".toList, "-lt1".toList,
      "-o".toList ++ folder.outputfile file, file]
  else if lowerExt = ".zpaq".toList then
    some [folder.tools ++ "/zpaq715".toList, "x".toList, file, "-to".toList, folder.outputfile file,
      "-t1".toList]
  else none

/-- The position of an archive. -/
abbrev Index : Type := Fin folder.archives.length

variable {folder} in
def Index.file (i : folder.Index) : Str := folder.archives[i]

variable {folder} in
/-- The place that the output names. -/
def Index.place (i : folder.Index) : Bool × List Str := resolve '/' '.' (folder.outputfile i.file)

variable {folder} in
/-- What `meowhash` reads after the decompressor cannot come from elsewhere: the output is no other
archive's, and `zpaq` neither leaves a file that lies there nor takes the name for that of a part. -/
structure Index.Own (i : folder.Index) : Prop where
  alone : ∀ j : folder.Index, j ≠ i → j.place ≠ i.place
  fresh : lower (splitext i.file).2 = ".zpaq".toList → folder.leftover (folder.outputfile i.file) = false
  onePart : lower (splitext i.file).2 = ".zpaq".toList → '?' ∉ i.file ∧ '*' ∉ i.file

end ArchiveFolder

/-- A run of the decompressors on the archives, each in its process. -/
structure Uncompression (folder : ArchiveFolder) where
  /-- what an archive restores to -/
  restores : Str → Option Bytes
  /-- what a command line comes to in the process of an archive, unless it fails -/
  exec : folder.Index → List Str → Option Output
  exec_own : ∀ (i : folder.Index) cmd bytes removable, i.Own → folder.command i.file = some cmd →
    exec i cmd = some ⟨.contents bytes, removable⟩ → restores i.file = some bytes

namespace Uncompression

variable {folder : ArchiveFolder} (run : Uncompression folder) (i : folder.Index)

/-- What the decompressor leaves at the output. -/
def output : Option Output := (folder.command i.file).bind (run.exec i)

/-- The string that is returned; nothing when an exception ends the script. -/
def uncompressAndGenerateHash : Option Str :=
  match run.output i with
  -- `VERIFY ERROR(1)` and `VERIFY ERROR(2)`
  | none => some []
  | some output =>
    let result := meowhashMain folder.meowHash (fun _ => output.read)
      [utf8Encode (folder.tools ++ "/meowhash".toList), utf8Encode (folder.outputfile i.file), text "--nologo"]
    -- `VERIFY ERROR(3)`
    if result.1 ≠ 0 then some []
    else if output.removable then utf8Decode result.2
    else none

end Uncompression

/-! ## The comparison -/

/-- The state of the loop over `filehashes.txt`, with what it has printed. -/
structure Verification where
  allOK : Bool
  notFoundFiles : List Str
  printed : List Str
deriving DecidableEq, Repr

def Verification.start : Verification := ⟨true, [], []⟩

def hasChanged (filepath origFile filehashvalue : Str) : Str :=
  filepath ++ ": HASH HAS CHANGED!(".toList ++ origFile ++ ",".toList ++ filehashvalue ++ ")".toList

def moreThanOne (filepath : Str) : Str :=
  "More than one entry in database found for file ".toList ++ filepath ++ ", dunno what to do?".toList

/-- `x.endswith(" "+filepath)` -/
def endsWithPath (filepath x : Str) : Bool := (' ' :: filepath) <:+ x

/-- One round of the loop. -/
def compareLine (isprintable : Char → Bool) (verifyResults : List Str) (v : Verification) (line : Str) :
    Verification :=
  let item := itemOf line
  match verifyResults.filter (endsWithPath item.filepath) with
  | [] => { v with allOK := false, notFoundFiles := v.notFoundFiles ++ [item.filepath] }
  | [x] =>
    let origFile := strOfList isprintable x
    if item.filehashvalue <:+: origFile then v
    else { v with
      allOK := false
      printed := v.printed ++ [hasChanged item.filepath origFile item.filehashvalue] }
  | _ => { v with allOK := false, printed := v.printed ++ [moreThanOne item.filepath] }

def allEqual : Str := "Verification: all hashes in the file found on disc and are equal".toList

/-- What is printed at the end. -/
def Verification.report (v : Verification) : List Str :=
  if v.allOK then [allEqual]
  else "! There were errors during verification !".toList ::
    "The following files are present in the filehashes-file, but are not found on disk:".toList ::
      v.notFoundFiles

/-- The results in the order in which they come in; an undecodable `filehashes.txt` ends
the script with an exception. -/
def ArchiveFolder.verify (folder : ArchiveFolder) (rawVerifyResults : List Str) (filehashes : Bytes) :
    Option Verification :=
  let verifyResults := rawVerifyResults.map (eraseAll tmp)
  (readText filehashes).map fun text =>
    (lines text).foldl (compareLine folder.isprintable verifyResults) .start

/-! ## When a line passes -/

/-- One result ends in the path, and the value occurs in it. -/
def Passes (isprintable : Char → Bool) (verifyResults : List Str) (item : Item) : Prop :=
  ∃ x, verifyResults.filter (endsWithPath item.filepath) = [x] ∧ item.filehashvalue <:+: strOfList isprintable x

theorem Verification.report_eq_iff (v : Verification) : v.report = [allEqual] ↔ v.allOK := by
  rw [report]
  split
  case isTrue ok => simp [ok]
  case isFalse notOK => simp [notOK]

theorem compareLine_allOK (isprintable : Char → Bool) (verifyResults : List Str) (v : Verification) (line : Str) :
    (compareLine isprintable verifyResults v line).allOK ↔
      v.allOK ∧ Passes isprintable verifyResults (itemOf line) := by
  rw [compareLine, Passes]
  split
  case h_1 none => simp [none]
  case h_2 x one =>
    dsimp only
    split
    case isTrue inside => simp [one, inside]
    case isFalse outside => simp [one, outside]
  case h_3 several =>
    have noOne : ¬ ∃ x, verifyResults.filter (endsWithPath (itemOf line).filepath) = [x] ∧
        (itemOf line).filehashvalue <:+: strOfList isprintable x := by
      rintro ⟨x, one, -⟩
      exact several x one
    simp [noOne]

theorem foldl_compareLine_allOK (isprintable : Char → Bool) (verifyResults : List Str) (v : Verification)
    (ls : List Str) :
    (ls.foldl (compareLine isprintable verifyResults) v).allOK ↔
      v.allOK ∧ ∀ line ∈ ls, Passes isprintable verifyResults (itemOf line) := by
  induction ls generalizing v with
  | nil => simp
  | cons line ls ih =>
    rw [List.foldl_cons, ih, compareLine_allOK, List.forall_mem_cons, and_assoc]

end BackupSuite.Python
