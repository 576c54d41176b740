import BackupSuite.CtrlCenter.CompressFile

/-! # One archive name for both directions

`compressFile` sees a file under the path it was scanned at, `decompressFile` sees
the stored path below the output folder, and both take the text behind the last dot
of all they see for the extension.  That text differs when the last dot stands in a
folder in front, but then it has a slash in it and stands in neither list of
extensions (`codecOf_below`).
-/

namespace BackupSuite.CtrlCenter

open BackupSuite.Library

/-! ## What a command line works on -/

/-- The command lines that compress `input` to `archive`, by the codec. -/
inductive Compresses (conf : Configuration) (input archive : Bytes) : Codec → List Bytes → Prop
  | lepton : Compresses conf input archive .lepton
      [conf.toolsFolder ++ text "lepton", text "-singlethread", text "-allowprogressive", input,
        archive]
  /-- under the name that `compressFile` has for the tool -/
  | precomp (mode tempFile : Bytes) : Compresses conf input archive .precomp
      [conf.toolsFolder ++ text "precomnp-cpp", text "-lt1", mode, text "-o" ++ archive, tempFile,
        input]
  | zpaq : Compresses conf input archive .zpaq
      [conf.toolsFolder ++ text "zpaq715", text "a", archive, input, text "-m4", text "-t1"]

/-- The command lines that decompress `archive` to `output`. -/
inductive Decompresses (conf : Configuration) (archive output : Bytes) : Codec → List Bytes → Prop
  | lepton : Decompresses conf archive output .lepton
      [conf.toolsFolder ++ text "lepton", text "-singlethread", text "-allowprogressive", archive,
        output]
  | precomp : Decompresses conf archive output .precomp
      [conf.toolsFolder ++ text "precomp-cpp", text "-r", text "-lt1", text "-o" ++ output, archive]
  | zpaq : Decompresses conf archive output .zpaq
      [conf.toolsFolder ++ text "zpaq715", text "x", archive, text "-to", output, text "-t1"]

theorem compresses_compressCommand (conf : Configuration) (inputFilename : Bytes) (tempCounter : Nat) :
    Compresses conf inputFilename (archiveName inputFilename (outputFilename conf inputFilename))
      (codecOf inputFilename) (compressCommand conf inputFilename tempCounter) := by
  rw [compressCommand_eq]
  cases codecOf inputFilename with
  | lepton => exact .lepton
  | precomp => exact .precomp _ _
  | zpaq => exact .zpaq

theorem decompresses_decompressCommand (conf : Configuration) (inputFilename : Bytes) :
    Decompresses conf (archiveName inputFilename inputFilename) (conf.temporaryFolder ++ inputFilename)
      (codecOf inputFilename) (decompressCommand conf inputFilename) := by
  rw [decompressCommand_eq]
  cases codecOf inputFilename with
  | lepton => exact .lepton
  | precomp => exact .precomp
  | zpaq => exact .zpaq

theorem Compresses.unique {conf : Configuration} {input archive archive' : Bytes} {codec codec' : Codec}
    {cmdLine cmdLine' : List Bytes} (first : Compresses conf input archive codec cmdLine)
    (second : Compresses conf input archive' codec' cmdLine') (same : cmdLine' = cmdLine) :
    codec' = codec ∧ archive' = archive := by
  cases first <;> cases second <;> simp_all [text]

theorem Decompresses.unique {conf : Configuration} {archive archive' output output' : Bytes}
    {codec codec' : Codec} {cmdLine cmdLine' : List Bytes}
    (first : Decompresses conf archive output codec cmdLine)
    (second : Decompresses conf archive' output' codec' cmdLine') (same : cmdLine' = cmdLine) :
    codec' = codec ∧ archive' = archive ∧ output' = output := by
  cases first <;> cases second <;> simp_all [text]

/-! ## The extension behind a folder -/

/-- Nothing, or a path that ends in a slash. -/
def IsFolder (folder : Bytes) : Prop := folder = [] ∨ folder.getLast? = some 47

/-- A folder in front changes the extension only of a path without a dot. -/
theorem extension_append_of_dot {folder path : Bytes} (dot : 46 ∈ path) :
    extractFileExtensionFromFilePatch (folder ++ path) = extractFileExtensionFromFilePatch path := by
  rw [extractFileExtensionFromFilePatch, extractFileExtensionFromFilePatch,
    if_pos (List.mem_append_right _ dot), if_pos dot, List.reverse_append]
  -- seen from the end, the dot of the path comes first
  have stops : (path.reverse.takeWhile (· != 46)).length ≠ path.reverse.length := by
    intro all
    have whole := (List.takeWhile_prefix (p := (· != 46)) (l := path.reverse)).eq_of_length all
    have notDot := List.takeWhile_eq_self_iff.mp whole 46 (List.mem_reverse.mpr dot)
    simp at notDot
  rw [List.takeWhile_append, if_neg stops]

/-- Without a dot in the path the extension is nothing or reaches into the folder. -/
theorem extension_append_of_no_dot {folder path : Bytes} (slash : IsFolder folder) (noDot : 46 ∉ path) :
    extractFileExtensionFromFilePatch (folder ++ path) = [] ∨
      47 ∈ extractFileExtensionFromFilePatch (folder ++ path) := by
  rw [extractFileExtensionFromFilePatch]
  split
  case isFalse => exact Or.inl rfl
  case isTrue inFolder =>
    have dot : 46 ∈ folder := (List.mem_append.mp inFolder).resolve_right noDot
    cases slash with
    | inl empty => simp [empty] at dot
    | inr last =>
      obtain ⟨front, rfl⟩ := List.getLast?_eq_some_iff.mp last
      have clean : ∀ c ∈ path.reverse, (c != 46) = true := by
        intro c mem
        have ne : c ≠ 46 := by
          rintro rfl
          exact noDot (List.mem_reverse.mp mem)
        simpa using ne
      refine Or.inr (List.mem_reverse.mpr ?_)
      rw [List.reverse_append, List.takeWhile_append_of_pos clean, List.reverse_append]
      simp

/-- The extensions in the two lists. -/
def knownExtensions : List Bytes :=
  [text "jpg", text "jpeg", text "mp3", text "png", text "pdf", text "zip", text "gzip", text "bzip2"]

theorem codecOf_of_unknown {path : Bytes}
    (unknown : toLower (extractFileExtensionFromFilePatch path) ∉ knownExtensions) :
    codecOf path = .zpaq := by
  simp only [knownExtensions, List.mem_cons, List.not_mem_nil, or_false, not_or] at unknown
  obtain ⟨jpg, jpeg, rest⟩ := unknown
  rw [codecOf, if_neg (not_or.mpr ⟨jpg, jpeg⟩), if_neg]
  simpa only [not_or] using rest

/-- What is empty or has a slash in it is none of the extensions. -/
theorem codecOf_of_slash {path : Bytes} (h : extractFileExtensionFromFilePatch path = [] ∨
    47 ∈ extractFileExtensionFromFilePatch path) : codecOf path = .zpaq := by
  apply codecOf_of_unknown
  intro known
  have proper : ∀ e ∈ knownExtensions, e ≠ [] ∧ 47 ∉ e := by decide
  obtain ⟨nonempty, noSlash⟩ := proper _ known
  cases h with
  | inl empty => exact nonempty (by rw [empty]; rfl)
  | inr slash => exact noSlash (List.mem_map.mpr ⟨47, slash, by decide⟩)

/-- The codec does not depend on the folder in front. -/
theorem codecOf_below {folder : Bytes} (slash : IsFolder folder) (path : Bytes) :
    codecOf (folder ++ path) = codecOf path := by
  by_cases dot : 46 ∈ path
  · rw [codecOf, codecOf, extension_append_of_dot dot]
  · have alone : extractFileExtensionFromFilePatch path = [] := if_neg dot
    rw [codecOf_of_slash (extension_append_of_no_dot slash dot), codecOf_of_slash (Or.inl alone)]

/-! ## Agreement -/

theorem outputFilename_below {conf : Configuration} {inputFilename path : Bytes}
    (input : inputFilename = conf.unittestPath ++ path) :
    outputFilename conf inputFilename = conf.outputFolder ++ path := by
  rw [outputFilename, input, withoutUnittestPath_append]

/-- `decompressFile` on the stored path below the output folder asks for the archive, and takes
the codec, that `compressFile` had for the file; the codec is that of the stored path. -/
theorem archive_agrees (conf : Configuration) (path inputFilename : Bytes) (tempCounter : Nat)
    (unittest : IsFolder conf.unittestPath) (output : conf.outputFolder.getLast? = some 47)
    (input : inputFilename = conf.unittestPath ++ path) (archive : Bytes) (codec : Codec) :
    (Compresses conf inputFilename archive codec (compressCommand conf inputFilename tempCounter) ↔
      codec = codecOf path ∧ archive = conf.outputFolder ++ path ++ codec.suffix) ∧
    (Decompresses conf archive (conf.temporaryFolder ++ (conf.outputFolder ++ path)) codec
        (decompressCommand conf (conf.outputFolder ++ path)) ↔
      codec = codecOf path ∧ archive = conf.outputFolder ++ path ++ codec.suffix) := by
  have compressed := compresses_compressCommand conf inputFilename tempCounter
  have decompressed := decompresses_decompressCommand conf (conf.outputFolder ++ path)
  rw [outputFilename_below input, archiveName, input, codecOf_below unittest] at compressed
  rw [archiveName, codecOf_below (Or.inr output)] at decompressed
  rw [input]
  constructor
  · constructor
    · intro other
      obtain ⟨codecs, archives⟩ := compressed.unique other rfl
      exact ⟨codecs, codecs ▸ archives⟩
    · rintro ⟨rfl, rfl⟩
      exact compressed
  · constructor
    · intro other
      obtain ⟨codecs, archives, -⟩ := decompressed.unique other rfl
      exact ⟨codecs, codecs ▸ archives⟩
    · rintro ⟨rfl, rfl⟩
      exact decompressed

/-- Folders with known extensions. -/
def dottedFolders : Configuration := ⟨text "out.jpg/", text "t/", text "tmp/", text "v1.png/", false⟩

/-- A file without extension below such folders. -/
theorem archive_agrees_dotted :
    Compresses dottedFolders (text "v1.png/b.zip/c") (text "out.jpg/b.zip/c.zpaq") .zpaq
        (compressCommand dottedFolders (text "v1.png/b.zip/c") 0) ∧
      Decompresses dottedFolders (text "out.jpg/b.zip/c.zpaq") (text "tmp/out.jpg/b.zip/c") .zpaq
        (decompressCommand dottedFolders (text "out.jpg/b.zip/c")) := by
  have agrees := archive_agrees dottedFolders (text "b.zip/c") (text "v1.png/b.zip/c") 0
    (Or.inr (by decide)) (by decide) (by decide) (text "out.jpg/b.zip/c.zpaq") .zpaq
  exact ⟨agrees.1.mpr (by decide), agrees.2.mpr (by decide)⟩

end BackupSuite.CtrlCenter
