import BackupSuite.Library.LexicalPath
import BackupSuite.Python.Create
import BackupSuite.Python.TempNames

/-! # Relative paths in `create` of the script

`generateFilelist` joins the names below the input, and three places cut the input off
again: the lines of `filehashes.txt`, the folders that are made and the output of each
file.  Each cuts every occurrence, and with a database the outputs are those of the paths
that the search has stripped.  `relativePaths_iff` says for which trees, databases and output
folders all three come to the path relative to the input.
-/

namespace BackupSuite.Python

open BackupSuite.Library BackupSuite.CtrlCenter

/-- What is below a folder, one entry after the other. -/
inductive Tree where
  | nil
  | file (name : Str) (rest : Tree)
  | folder (name : Str) (inner rest : Tree)

inductive EntryKind where
  | folders
  | files
deriving DecidableEq, Repr

namespace Tree

/-- The names of one kind that are listed for the folder itself. -/
def entries (kind : EntryKind) : Tree → List Str
  | nil => []
  | file name rest => if kind = .files then name :: rest.entries kind else rest.entries kind
  | folder name _ rest => if kind = .folders then name :: rest.entries kind else rest.entries kind

def names : Tree → List Str
  | nil => []
  | file name rest => name :: rest.names
  | folder name _ rest => name :: rest.names

/-- Names that can be listed, each once. -/
def Valid : Tree → Prop
  | nil => True
  | file name rest => IsName '/' '.' name ∧ name ∉ rest.names ∧ rest.Valid
  | folder name inner rest => IsName '/' '.' name ∧ name ∉ rest.names ∧ inner.Valid ∧ rest.Valid

/-- The paths of one kind, relative to the folder. -/
def paths (kind : EntryKind) : Tree → List Str
  | nil => []
  | file name rest => if kind = .files then name :: rest.paths kind else rest.paths kind
  | folder name inner rest =>
    let below := (inner.paths kind).map (name ++ '/' :: ·) ++ rest.paths kind
    if kind = .folders then name :: below else below

end Tree

/-! ## The scan -/

/-- What `os.walk` yields for a folder. -/
structure Row where
  root : Str
  directories : List Str
  filenames : List Str

def rowOf (root : Str) (tree : Tree) : Row := ⟨root, tree.entries .folders, tree.entries .files⟩

/-- The rows below the folder; a link to a folder is not followed, as if that were empty. -/
def walkBelow (root : Str) : Tree → List Row
  | .nil => []
  | .file _ rest => walkBelow root rest
  | .folder name inner rest =>
    (rowOf (join root name) inner :: walkBelow (join root name) inner) ++ walkBelow root rest

/-- `os.walk` -/
def walk (path : Str) (tree : Tree) : List Row := rowOf path tree :: walkBelow path tree

def generateFilelist (path : Str) (tree : Tree) : List Str × List Str :=
  ((walk path tree).flatMap fun row => row.directories.map fun directory => normalizePath (join row.root directory),
    (walk path tree).flatMap fun row => row.filenames.map fun filename => normalizePath (join row.root filename))

/-! ## The run -/

/-- `args.output` with a slash behind it, unless it is empty. -/
def outputOf (argument : Str) : Str := if argument = [] then [] else inputOf argument

/-- The output of a job, in front of the suffix. -/
def outputfile (args : CompressArgs) (file : Str) : Str := join args.outputpath (eraseAll args.inputpath file)

/-- What `create` is called with and finds: the files, the hashes in the order in which they
come in, and the entries of the database file when there is one. -/
structure RelativeRun where
  inputArgument : Str
  outputArgument : Str
  tools : Str
  tempfolder : Str
  tree : Tree
  hash : Str → MeowU128
  arrivals : List Str
  database : Option (List Item)
  valid : tree.Valid
  arrivals_perm : arrivals.Perm (generateFilelist (normalizePath (inputOf inputArgument)) tree).2

namespace RelativeRun

variable (run : RelativeRun)

def inputpath : Str := normalizePath (inputOf run.inputArgument)

def output : Str := outputOf run.outputArgument

def dirs : List Str := (generateFilelist run.inputpath run.tree).1

/-- What `meowhash` prints for a file. -/
def hashLine (file : Str) : Str := itemStr ⟨label, hashText (run.hash file), file⟩

/-- The incremental mode on all hashes. -/
def searched (database : List Item) : Incremental :=
  (run.arrivals.map run.hashLine).foldl Incremental.search ⟨database, [], []⟩

/-- What `filehashes.txt` is written from. -/
def hashestowrite : List Str :=
  match run.database with
  | none => run.arrivals.map run.hashLine
  | some database => (run.searched database).filelistToProcess

/-- What `compressFiles` gets. -/
def files : List Str :=
  match run.database with
  | none => (generateFilelist run.inputpath run.tree).2
  | some database => (run.searched database).newfilelist

/-- `compressArgs`: the output as it was given. -/
def args : CompressArgs := ⟨run.tools, run.output, run.inputpath, run.tempfolder⟩

/-- The path that the folder loop makes, of the normalised output. -/
def madePath (dir : Str) : Str := join (normalizePath run.output) (eraseAll run.inputpath dir)

/-- `os.makedirs` for one of the folders, with those in front of it. -/
def Made (folder : Str) : Prop := ∃ dir ∈ run.dirs, folder ++ ['/'] <+: run.madePath dir ++ ['/']

/-- How the file with this relative path is listed. -/
def fileOf (relative : Str) : Str := normalizePath (run.inputpath ++ relative)

/-- The path that `compressFiles` gets for a listed one. -/
def given (file : Str) : Str :=
  match run.database with
  | none => file
  | some _ => (itemOf (run.hashLine file)).filepath

/-- The relative path of a file that the run takes up. -/
def Processed (relative : Str) : Prop :=
  relative ∈ run.tree.paths .files ∧ run.hashLine (run.fileOf relative) ∈ run.hashestowrite

/-- The three places come to the relative paths. -/
structure RelativePaths : Prop where
  derived : ∀ relative, run.Processed relative →
    outputfile run.args (run.given (run.fileOf relative)) = join run.output relative
  distinct : (run.files.map (outputfile run.args)).Nodup
  -- `filehashes.txt` has been opened in the output folder itself
  parents : ∀ file ∈ run.files, ∀ folder name, outputfile run.args file = folder ++ '/' :: name → '/' ∉ name →
    folder ++ ['/'] = join run.output [] ∨ run.Made folder
  listed : ∀ relative, run.Processed relative →
    eraseAll run.inputpath (run.hashLine (run.fileOf relative)) =
      itemStr ⟨label, hashText (run.hash (run.fileOf relative)), relative⟩

/-- What `strip` leaves of the input. -/
def strippedInput : Str := run.inputpath.dropWhile isspace

/-- `strip` leaves the input as it is, or leaves the output of it, and then nothing is cut. -/
def KeepsInput (relative : Str) : Prop :=
  run.strippedInput = run.inputpath ∨
    join run.output [] = run.strippedInput ∧ run.strippedInput.head? = some '/' ∧
      ¬ run.inputpath <:+: run.strippedInput ++ relative

/-- The input does not occur in the relative path of a file, and no backslash does; a backslash
in the output has no files below subfolders; and with a database there is no white space at the
end of the path, nor in front of the input. -/
structure Unambiguous : Prop where
  noBackslash : ∀ relative, run.Processed relative → '\\' ∉ relative
  noInput : ∀ relative, run.Processed relative → ¬ run.inputpath <:+: relative
  noSpace : run.database.isSome → ∀ relative, run.Processed relative → relative.rdropWhile isspace = relative
  input : run.database.isSome → ∀ relative, run.Processed relative → run.KeepsInput relative
  output : '\\' ∈ run.output → ∀ relative, run.Processed relative → '/' ∉ relative

end RelativeRun

/-- The command of a job has its output as an argument, with something around it. -/
theorem outputfile_mem_compressCommand (args : CompressArgs) (file : Str) (value : Int) :
    ∃ before suffix, before ++ outputfile args file ++ suffix ∈ compressCommand args file value := by
  rw [compressCommand]
  split
  · exact ⟨[], ".lepton".toList, by simp [outputfile]⟩
  · split
    · exact ⟨"-o".toList, ".pcf".toList, by simp [outputfile]⟩
    · split
      · exact ⟨"-o".toList, ".pcf".toList, by simp [outputfile]⟩
      · exact ⟨[], ".zpaq".toList, by simp [outputfile]⟩

/-! ## Joining -/

theorem join_nil (folder : Str) :
    join folder [] = if folder = [] ∨ folder.getLast? = some '/' then folder else folder ++ ['/'] := by
  simp [join]

theorem join_eq_append {path : Str} (relative : path.head? ≠ some '/') (folder : Str) :
    join folder path = join folder [] ++ path := by
  rw [join_nil, join, if_neg relative]
  split
  · rfl
  · simp

theorem join_of_getLast {folder : Str} (slash : folder.getLast? = some '/') : join folder [] = folder := by
  rw [join_nil, if_pos (Or.inr slash)]

/-- In front of what is joined there is nothing or a slash. -/
theorem getLast_join (folder : Str) : join folder [] = [] ∨ (join folder []).getLast? = some '/' := by
  rw [join_nil]
  split
  case isTrue here => exact here
  case isFalse => simp

/-- One folder further down. -/
theorem join_join {name : Str} (isName : IsName '/' '.' name) (root : Str) :
    join (join root name) [] = join root [] ++ name ++ ['/'] := by
  have relative : name.head? ≠ some '/' := fun slash => isName.noSep (List.mem_of_head? slash)
  have last : (join root [] ++ name).getLast? ≠ some '/' := by
    rw [List.getLast?_append_of_ne_nil _ isName.nonempty]
    exact fun slash => isName.noSep (List.mem_of_getLast? slash)
  have nonempty : join root [] ++ name ≠ [] := by simp [isName.nonempty]
  rw [join_eq_append relative, join_nil, if_neg (not_or.mpr ⟨nonempty, last⟩)]

theorem mem_join {c : Char} {folder path : Str} (mem : c ∈ join folder path) : c ∈ folder ∨ c ∈ path ∨ c = '/' := by
  rw [join] at mem
  split at mem
  · exact Or.inr (Or.inl mem)
  · split at mem
    · exact (List.mem_append.mp mem).imp_right Or.inl
    · rw [List.mem_append, List.mem_cons] at mem
      exact mem.imp_right Or.symm

theorem noBackslash_normalizePath (path : Str) : '\\' ∉ normalizePath path := by
  rw [normalizePath, List.mem_map]
  rintro ⟨c, -, isBackslash⟩
  split at isBackslash
  · cases isBackslash
  · contradiction

theorem normalizePath_of_noBackslash {path : Str} (noBackslash : '\\' ∉ path) : normalizePath path = path := by
  rw [normalizePath]
  apply map_eq_self
  intro c mem
  have ne : c ≠ '\\' := fun isBackslash => noBackslash (isBackslash ▸ mem)
  exact if_neg ne

/-! ## The relative paths of a tree -/

namespace Tree

section

variable {kind : EntryKind} {name path : Str} {inner rest : Tree}

theorem mem_paths_file :
    path ∈ (file name rest).paths kind ↔ kind = .files ∧ path = name ∨ path ∈ rest.paths kind := by
  rw [paths]
  split
  case isTrue isFile => simp [isFile]
  case isFalse isFolder => simp [isFolder]

theorem mem_paths_folder :
    path ∈ (folder name inner rest).paths kind ↔ kind = .folders ∧ path = name ∨
      (∃ below ∈ inner.paths kind, path = name ++ '/' :: below) ∨ path ∈ rest.paths kind := by
  rw [paths]
  split
  case isTrue isFolder => simp [isFolder, eq_comm]
  case isFalse isFile => simp [isFile, eq_comm]

end

theorem takeWhile_of_noSep {name : Str} (noSep : '/' ∉ name) : name.takeWhile (· != '/') = name := by
  rw [List.takeWhile_eq_self_iff]
  intro c mem
  have ne : c ≠ '/' := fun slash => noSep (slash ▸ mem)
  simpa using ne

theorem takeWhile_append_slash {name : Str} (noSep : '/' ∉ name) (below : Str) :
    (name ++ '/' :: below).takeWhile (· != '/') = name := by
  rw [List.takeWhile_append, takeWhile_of_noSep noSep]
  simp

/-- A relative path starts with a name of the folder, which ends at the first slash. -/
theorem takeWhile_mem_names {kind : EntryKind} {tree : Tree} (valid : tree.Valid) {path : Str}
    (mem : path ∈ tree.paths kind) :
    path.takeWhile (· != '/') ∈ tree.names ∧ IsName '/' '.' (path.takeWhile (· != '/')) := by
  induction tree with
  | nil => cases mem
  | file name rest ih =>
    obtain ⟨isName, -, restValid⟩ := valid
    rcases mem_paths_file.mp mem with ⟨-, rfl⟩ | later
    · rw [takeWhile_of_noSep isName.noSep]
      exact ⟨List.mem_cons_self, isName⟩
    · exact (ih restValid later).imp_left (List.mem_cons_of_mem _)
  | folder name inner rest _ ih =>
    obtain ⟨isName, -, -, restValid⟩ := valid
    rcases mem_paths_folder.mp mem with ⟨-, rfl⟩ | ⟨below, -, rfl⟩ | later
    · rw [takeWhile_of_noSep isName.noSep]
      exact ⟨List.mem_cons_self, isName⟩
    · rw [takeWhile_append_slash isName.noSep]
      exact ⟨List.mem_cons_self, isName⟩
    · exact (ih restValid later).imp_left (List.mem_cons_of_mem _)

theorem relative_of_mem_paths {kind : EntryKind} {tree : Tree} (valid : tree.Valid) {path : Str}
    (mem : path ∈ tree.paths kind) : path.head? ≠ some '/' := by
  intro slash
  obtain ⟨rest, rfl⟩ := List.head?_eq_some_iff.mp slash
  exact (takeWhile_mem_names valid mem).2.nonempty (by simp)

theorem nodup_paths (kind : EntryKind) {tree : Tree} (valid : tree.Valid) : (tree.paths kind).Nodup := by
  induction tree with
  | nil => exact List.nodup_nil
  | file name rest ih =>
    obtain ⟨isName, new, restValid⟩ := valid
    have notLater : name ∉ rest.paths kind := by
      intro mem
      have first := (takeWhile_mem_names restValid mem).1
      rw [takeWhile_of_noSep isName.noSep] at first
      exact new first
    rw [paths]
    split
    · exact List.nodup_cons.mpr ⟨notLater, ih restValid⟩
    · exact ih restValid
  | folder name inner rest ihInner ihRest =>
    obtain ⟨isName, new, innerValid, restValid⟩ := valid
    have notLater {path : Str} (first : path.takeWhile (· != '/') = name) : path ∉ rest.paths kind := by
      intro mem
      exact new (first ▸ (takeWhile_mem_names restValid mem).1)
    have below : ((inner.paths kind).map (name ++ '/' :: ·) ++ rest.paths kind).Nodup := by
      refine List.nodup_append.mpr ⟨?_, ihRest restValid, ?_⟩
      · apply (ihInner innerValid).map
        intro path path' same
        exact (List.cons.inj (List.append_cancel_left same)).2
      · intro path mem path' later same
        obtain ⟨below, -, rfl⟩ := List.mem_map.mp mem
        exact notLater (takeWhile_append_slash isName.noSep below) (same ▸ later)
    rw [paths]
    split
    · refine List.nodup_cons.mpr ⟨?_, below⟩
      intro mem
      rcases List.mem_append.mp mem with mem | later
      · obtain ⟨below, -, same⟩ := List.mem_map.mp mem
        simp at same
      · exact notLater (takeWhile_of_noSep isName.noSep) later
    · exact below

/-- The folder of a path is one of the folders. -/
theorem mem_paths_folders {tree : Tree} (valid : tree.Valid) {kind : EntryKind} {front last : Str}
    (mem : front ++ '/' :: last ∈ tree.paths kind) (noSep : '/' ∉ last) : front ∈ tree.paths .folders := by
  induction tree generalizing front with
  | nil => cases mem
  | file name rest ih =>
    obtain ⟨isName, -, restValid⟩ := valid
    rcases mem_paths_file.mp mem with ⟨-, same⟩ | later
    · exact absurd (same ▸ by simp) isName.noSep
    · exact mem_paths_file.mpr (Or.inr (ih restValid later))
  | folder name inner rest ihInner ihRest =>
    obtain ⟨isName, -, innerValid, restValid⟩ := valid
    rcases mem_paths_folder.mp mem with ⟨-, same⟩ | ⟨below, inInner, same⟩ | later
    · exact absurd (same ▸ by simp) isName.noSep
    · by_cases deeper : '/' ∈ below
      · obtain ⟨sub, last', rfl, noSep'⟩ := exists_last_sep deeper
        rw [← List.cons_append, ← List.append_assoc] at same
        obtain ⟨rfl, rfl⟩ := append_sep_inj noSep noSep' same
        exact mem_paths_folder.mpr (Or.inr (Or.inl ⟨sub, ihInner innerValid inInner, rfl⟩))
      · obtain ⟨rfl, -⟩ := append_sep_inj noSep deeper same
        exact mem_paths_folder.mpr (Or.inl ⟨rfl, rfl⟩)
    · exact mem_paths_folder.mpr (Or.inr (Or.inr (ihRest restValid later)))

end Tree

/-! ## What the scan finds -/

/-- One kind of the names in a row, joined to its root. -/
def Row.joined (kind : EntryKind) (row : Row) : List Str :=
  (match kind with
    | .folders => row.directories
    | .files => row.filenames).map (join row.root)

theorem joined_rowOf (kind : EntryKind) (root : Str) (tree : Tree) :
    (rowOf root tree).joined kind = (tree.entries kind).map (join root) := by
  cases kind with
  | folders => rfl
  | files => rfl

/-- The scan finds the relative paths below the folder it starts in. -/
theorem walk_joined_perm (kind : EntryKind) {tree : Tree} (valid : tree.Valid) (root : Str) :
    ((walk root tree).flatMap (Row.joined kind)).Perm ((tree.paths kind).map (join root [] ++ ·)) := by
  rw [walk, List.flatMap_cons, joined_rowOf]
  induction tree generalizing root with
  | nil => exact .refl _
  | file name rest ih =>
    obtain ⟨isName, -, restValid⟩ := valid
    have relative : name.head? ≠ some '/' := fun slash => isName.noSep (List.mem_of_head? slash)
    rw [Tree.entries, Tree.paths, walkBelow]
    split
    · rw [List.map_cons, List.map_cons, List.cons_append, join_eq_append relative]
      exact (ih restValid root).cons _
    · exact ih restValid root
  | folder name inner rest ihInner ihRest =>
    obtain ⟨isName, -, innerValid, restValid⟩ := valid
    have relative : name.head? ≠ some '/' := fun slash => isName.noSep (List.mem_of_head? slash)
    have inside := ihInner innerValid (join root name)
    have shifted : (inner.paths kind).map (join (join root name) [] ++ ·) =
        ((inner.paths kind).map (name ++ '/' :: ·)).map (join root [] ++ ·) := by
      rw [List.map_map, join_join isName]
      simp
    rw [shifted] at inside
    -- the rows below this folder come before the rest of the rows, behind all names of this one
    have below : ((rest.entries kind).map (join root) ++
        (walkBelow root (.folder name inner rest)).flatMap (Row.joined kind)).Perm
        (((inner.paths kind).map (name ++ '/' :: ·) ++ rest.paths kind).map (join root [] ++ ·)) := by
      rw [walkBelow, List.flatMap_append, List.flatMap_cons, joined_rowOf, List.map_append]
      exact List.perm_append_comm_assoc _ _ _ |>.trans (inside.append (ihRest restValid root))
    rw [Tree.entries, Tree.paths]
    split
    · rw [List.map_cons, List.map_cons, List.cons_append, join_eq_append relative]
      exact below.cons _
    · exact below

theorem generateFilelist_files (path : Str) (tree : Tree) :
    (generateFilelist path tree).2 = ((walk path tree).flatMap (Row.joined .files)).map normalizePath := by
  simp only [generateFilelist, List.map_flatMap, Row.joined, List.map_map]
  rfl

theorem generateFilelist_dirs (path : Str) (tree : Tree) :
    (generateFilelist path tree).1 = ((walk path tree).flatMap (Row.joined .folders)).map normalizePath := by
  simp only [generateFilelist, List.map_flatMap, Row.joined, List.map_map]
  rfl

namespace RelativeRun

variable {run : RelativeRun}

theorem getLast_inputpath : run.inputpath.getLast? = some '/' := getLast_normalizePath_inputOf _

theorem filelist_perm : (generateFilelist run.inputpath run.tree).2.Perm ((run.tree.paths .files).map run.fileOf) := by
  have found := (walk_joined_perm .files run.valid run.inputpath).map normalizePath
  rw [join_of_getLast getLast_inputpath, List.map_map] at found
  rw [generateFilelist_files]
  exact found

theorem arrivals_perm_fileOf : run.arrivals.Perm ((run.tree.paths .files).map run.fileOf) :=
  run.arrivals_perm.trans filelist_perm

theorem mem_dirs {folder : Str} (mem : folder ∈ run.tree.paths .folders) : run.fileOf folder ∈ run.dirs := by
  have found := (walk_joined_perm .folders run.valid run.inputpath).map normalizePath
  rw [join_of_getLast getLast_inputpath, List.map_map] at found
  rw [dirs, generateFilelist_dirs]
  exact found.mem_iff.mpr (List.mem_map_of_mem mem)

theorem noBackslash_of_mem_dirs {dir : Str} (mem : dir ∈ run.dirs) : '\\' ∉ dir := by
  rw [dirs, generateFilelist_dirs] at mem
  obtain ⟨path, -, rfl⟩ := List.mem_map.mp mem
  exact noBackslash_normalizePath path

/-! ## Cutting the input off -/

theorem slash_mem_inputpath : '/' ∈ run.inputpath := slash_mem_normalizePath_inputOf _

theorem inputpath_ne_nil : run.inputpath ≠ [] := List.ne_nil_of_mem slash_mem_inputpath

theorem fileOf_eq (relative : Str) : run.fileOf relative = run.inputpath ++ normalizePath relative := by
  have input : normalizePath run.inputpath = run.inputpath :=
    normalizePath_of_noBackslash (noBackslash_normalizePath _)
  rw [fileOf, normalizePath, List.map_append, ← normalizePath, ← normalizePath, input]

theorem eraseAll_fileOf (relative : Str) :
    eraseAll run.inputpath (run.fileOf relative) = eraseAll run.inputpath (normalizePath relative) := by
  have slash : '/' ∈ run.inputpath := slash_mem_inputpath
  have cut := eraseAll_append_of_mem slash (List.not_mem_nil (a := '/')) (normalizePath relative)
  rwa [List.nil_append, List.nil_append, ← fileOf_eq] at cut

/-- Cutting gives the relative path only where nothing is missing and nothing is cut. -/
theorem eraseAll_eq_iff {path relative : Str} (short : path.length ≤ relative.length) :
    eraseAll run.inputpath path = relative ↔ path = relative ∧ ¬ run.inputpath <:+: relative := by
  constructor
  · intro same
    have whole : eraseAll run.inputpath path = path :=
      (eraseAllFrom_sublist _ _ _).eq_of_length_le (by rwa [← eraseAll, same])
    rw [eraseAll_eq_self_iff inputpath_ne_nil] at whole
    obtain rfl : path = relative := by rwa [(eraseAll_eq_self_iff inputpath_ne_nil).mpr whole] at same
    exact ⟨rfl, whole⟩
  · rintro ⟨rfl, noInput⟩
    exact (eraseAll_eq_self_iff inputpath_ne_nil).mpr noInput

theorem normalizePath_eq_self_iff {path : Str} : normalizePath path = path ↔ '\\' ∉ path :=
  ⟨fun normal => normal ▸ noBackslash_normalizePath path, normalizePath_of_noBackslash⟩

theorem length_normalizePath (path : Str) : (normalizePath path).length = path.length := List.length_map _

/-- Cutting gives the relative path where it has no backslash and the input does not occur in it. -/
theorem eraseAll_normalizePath_iff {relative : Str} :
    eraseAll run.inputpath (normalizePath relative) = relative ↔
      '\\' ∉ relative ∧ ¬ run.inputpath <:+: relative := by
  rw [eraseAll_eq_iff (length_normalizePath relative).le, normalizePath_eq_self_iff]

/-- The joined paths are the same only if the output is joined to the same: a path that starts
with a slash would be longer. -/
theorem join_eraseAll_iff {path relative : Str} (isRelative : relative.head? ≠ some '/')
    (short : path.length ≤ relative.length) :
    join run.output (eraseAll run.inputpath path) = join run.output relative ↔
      eraseAll run.inputpath path = relative := by
  constructor
  · intro same
    rw [join_eq_append isRelative] at same
    by_cases absolute : (eraseAll run.inputpath path).head? = some '/'
    · rw [join, if_pos absolute] at same
      have shorter := (eraseAllFrom_sublist run.inputpath 0 path).length_le
      rw [← eraseAll, same, List.length_append] at shorter
      have nothing : join run.output [] = [] := List.length_eq_zero_iff.mp (by omega)
      rw [same, nothing, List.nil_append]
    · rw [join_eq_append absolute] at same
      exact List.append_cancel_left same
  · intro same
    rw [same]

theorem listed_iff (relative : Str) :
    eraseAll run.inputpath (run.hashLine (run.fileOf relative)) =
        itemStr ⟨label, hashText (run.hash (run.fileOf relative)), relative⟩ ↔
      eraseAll run.inputpath (normalizePath relative) = relative := by
  rw [hashLine, fileOf_eq, eraseAll_line slash_mem_inputpath]
  simp [itemStr]

/-! ## With a database -/

/-- The entry of a line that `meowhash` has printed. -/
theorem itemOf_hashLine (file : Str) : itemOf (run.hashLine file) = ⟨label, hashText (run.hash file), strip file⟩ := by
  have noBlank : ' ' ∉ label := fun mem => (mem_label mem).1 rfl
  have noBlank' : ' ' ∉ hashText (run.hash file) := fun mem => (mem_hashText mem).2.1 rfl
  rw [itemOf, hashLine, itemStr, partition_append noBlank]
  simp only [partition_append noBlank']

theorem hashLine_inj {file file' : Str} (same : run.hashLine file = run.hashLine file') : file = file' := by
  have lengths : ∀ hash : MeowU128, (hashText hash).length = 35 := fun hash => by simp [hashText]
  have rest := (List.cons.inj (List.append_cancel_left same)).2
  exact (List.cons.inj (List.append_inj rest (by rw [lengths, lengths])).2).2

/-- A round takes the hash up with its path or leaves both out. -/
theorem search_cases (s : Incremental) (hash : Str) :
    (s.search hash).filelistToProcess = s.filelistToProcess ++ [hash] ∧
        (s.search hash).newfilelist = s.newfilelist ++ [(itemOf hash).filepath] ∨
      (s.search hash).filelistToProcess = s.filelistToProcess ∧ (s.search hash).newfilelist = s.newfilelist := by
  simp only [Incremental.search]
  split
  · exact Or.inl ⟨rfl, rfl⟩
  · exact Or.inr ⟨rfl, rfl⟩

theorem foldl_search_hashLine (run : RelativeRun) (files : List Str) (s : Incremental) : ∃ selected : List Str,
    selected.Sublist files ∧
      ((files.map run.hashLine).foldl Incremental.search s).filelistToProcess =
        s.filelistToProcess ++ selected.map run.hashLine ∧
      ((files.map run.hashLine).foldl Incremental.search s).newfilelist =
        s.newfilelist ++ selected.map fun file => (itemOf (run.hashLine file)).filepath := by
  induction files generalizing s with
  | nil => exact ⟨[], .refl _, by simp, by simp⟩
  | cons file files ih =>
    obtain ⟨selected, among, lines, paths⟩ := ih (s.search (run.hashLine file))
    rw [List.map_cons, List.foldl_cons, lines, paths]
    obtain ⟨line, path⟩ | ⟨line, path⟩ := search_cases s (run.hashLine file)
    · exact ⟨file :: selected, among.cons_cons file, by simp [line], by simp [path]⟩
    · exact ⟨selected, among.cons file, by rw [line], by rw [path]⟩

/-- The files that are taken up, in the order of the hashes. -/
theorem exists_processed (run : RelativeRun) : ∃ selected : List Str, selected.Sublist run.arrivals ∧
    run.hashestowrite = selected.map run.hashLine ∧ run.files.Perm (selected.map run.given) := by
  cases database : run.database with
  | none =>
    have given : run.given = id := by
      funext file
      rw [RelativeRun.given, database]
      rfl
    refine ⟨run.arrivals, .refl _, by rw [hashestowrite, database], ?_⟩
    rw [files, database, given, List.map_id]
    exact run.arrivals_perm.symm
  | some items =>
    have given : run.given = fun file => (itemOf (run.hashLine file)).filepath := by
      funext file
      rw [RelativeRun.given, database]
    obtain ⟨selected, among, lines, paths⟩ := run.foldl_search_hashLine run.arrivals ⟨items, [], []⟩
    refine ⟨selected, among, by rw [hashestowrite, database]; exact lines, ?_⟩
    rw [files, database, given]
    exact .of_eq paths

theorem given_mem_files {relative : Str} (processed : run.Processed relative) :
    run.given (run.fileOf relative) ∈ run.files := by
  obtain ⟨selected, -, lines, perm⟩ := run.exists_processed
  obtain ⟨file, mem, line⟩ := List.mem_map.mp (lines ▸ processed.2)
  rw [perm.mem_iff, ← hashLine_inj line]
  exact List.mem_map_of_mem mem

/-- What is given to `compressFiles` is a file that the run takes up. -/
theorem exists_of_mem_files {file : Str} (mem : file ∈ run.files) :
    ∃ relative, run.Processed relative ∧ file = run.given (run.fileOf relative) := by
  obtain ⟨selected, among, lines, perm⟩ := run.exists_processed
  obtain ⟨listed, inSelected, rfl⟩ := List.mem_map.mp (perm.mem_iff.mp mem)
  obtain ⟨relative, inTree, rfl⟩ := List.mem_map.mp (arrivals_perm_fileOf.mem_iff.mp (among.subset inSelected))
  exact ⟨relative, ⟨inTree, lines ▸ List.mem_map_of_mem inSelected⟩, rfl⟩

/-! ## What `strip` leaves of a path -/

theorem slash_mem_strippedInput : '/' ∈ run.strippedInput := by
  obtain ⟨front, base⟩ := List.getLast?_eq_some_iff.mp (@getLast_inputpath run)
  rw [strippedInput, base, List.dropWhile_append]
  split
  · simp [isspace]
  · simp

theorem getLast_strippedInput : run.strippedInput.getLast? = some '/' := by
  obtain ⟨front, base⟩ := List.getLast?_eq_some_iff.mp (@getLast_inputpath run)
  rw [strippedInput, base, List.dropWhile_append]
  split
  · simp [isspace]
  · simp

theorem strip_fileOf (relative : Str) :
    strip (run.fileOf relative) = run.strippedInput ++ (normalizePath relative).rdropWhile isspace := by
  rw [fileOf_eq, strip_append getLast_inputpath (by decide), strippedInput]

theorem length_rdropWhile_normalizePath (relative : Str) :
    ((normalizePath relative).rdropWhile isspace).length ≤ relative.length :=
  (List.rdropWhile_prefix _ _).length_le.trans (length_normalizePath relative).le

/-- A path comes through both when it has no backslash and no white space at the end. -/
theorem rdropWhile_normalizePath_iff {relative : Str} :
    (normalizePath relative).rdropWhile isspace = relative ↔
      '\\' ∉ relative ∧ relative.rdropWhile isspace = relative := by
  constructor
  · intro same
    have whole : (normalizePath relative).rdropWhile isspace = normalizePath relative :=
      (List.rdropWhile_prefix _ _).eq_of_length (by rw [same, length_normalizePath])
    have normal : normalizePath relative = relative := whole.symm.trans same
    exact ⟨normalizePath_eq_self_iff.mp normal, by rwa [normal] at whole⟩
  · rintro ⟨noBackslash, noSpace⟩
    rwa [normalizePath_of_noBackslash noBackslash]

def solid (c : Char) : Bool := !isspace c

theorem countP_rdropWhile (s : Str) : (s.rdropWhile isspace).countP solid = s.countP solid := by
  induction s using List.reverseRecOn with
  | nil => rfl
  | append_singleton s c ih =>
    rw [List.rdropWhile_concat]
    split
    case isTrue space => rw [ih, List.countP_append]; simp [solid, space]
    case isFalse => rfl

theorem countP_normalizePath (s : Str) : (normalizePath s).countP solid = s.countP solid := by
  rw [normalizePath, List.countP_map]
  refine List.countP_congr fun c _ => ?_
  rw [Function.comp_apply]
  split
  next backslash => rw [backslash]; decide
  next => rfl

/-- Only the input itself can stand in front of the stripped path. -/
theorem strippedInput_append_eq {front relative : Str}
    (same : run.strippedInput ++ (normalizePath relative).rdropWhile isspace = front ++ relative) :
    front = run.strippedInput ∧ (normalizePath relative).rdropWhile isspace = relative := by
  have short := length_rdropWhile_normalizePath relative
  have lengths := congrArg List.length same
  rw [List.length_append, List.length_append] at lengths
  obtain ⟨between, split⟩ : front <+: run.strippedInput :=
    List.prefix_of_prefix_length_le (List.prefix_append _ _) (same ▸ List.prefix_append _ _) (by omega)
  rw [← split, List.append_assoc, List.append_cancel_left_eq] at same
  -- white space alone is between them, and the input ends in a slash
  have counts := congrArg (List.countP solid) same
  rw [List.countP_append, countP_rdropWhile, countP_normalizePath] at counts
  have spaces : between.countP solid = 0 := by omega
  have nothing : between = [] := by
    by_contra nonempty
    have last : between.getLast? = some '/' := by
      rw [← List.getLast?_append_of_ne_nil front nonempty, split]
      exact getLast_strippedInput
    exact List.countP_eq_zero.mp spaces '/' (List.mem_of_getLast? last) (by decide)
  rw [nothing] at split same
  exact ⟨by rw [← split, List.append_nil], same⟩

/-- With white space in front of the input a stripped path comes to the relative one only where
the output is the stripped input. -/
theorem outputfile_strip_iff {relative : Str} (isRelative : relative.head? ≠ some '/')
    (stripped : run.strippedInput ≠ run.inputpath) :
    outputfile run.args (strip (run.fileOf relative)) = join run.output relative ↔
      (normalizePath relative).rdropWhile isspace = relative ∧ join run.output [] = run.strippedInput ∧
        run.strippedInput.head? = some '/' ∧ ¬ run.inputpath <:+: run.strippedInput ++ relative := by
  have shorter : run.strippedInput.length < run.inputpath.length := by
    refine lt_of_le_of_ne (List.dropWhile_sublist _).length_le fun same => stripped ?_
    exact (List.dropWhile_sublist _).eq_of_length same
  have short := length_rdropWhile_normalizePath relative
  have nonempty : run.strippedInput ≠ [] := List.ne_nil_of_mem slash_mem_strippedInput
  rw [outputfile, args, strip_fileOf, join_eq_append isRelative]
  constructor
  · intro same
    have notIn : ¬ run.inputpath <:+: run.strippedInput ++ (normalizePath relative).rdropWhile isspace := by
      intro found
      have cut := length_eraseAll_of_infix found
      rw [List.length_append] at cut
      -- too little would be left
      by_cases absolute : (eraseAll run.inputpath
          (run.strippedInput ++ (normalizePath relative).rdropWhile isspace)).head? = some '/'
      · rw [join, if_pos absolute] at same
        rw [same, List.length_append] at cut
        omega
      · rw [join_eq_append absolute] at same
        rw [List.append_cancel_left same] at cut
        omega
    rw [(eraseAll_eq_self_iff inputpath_ne_nil).mpr notIn] at same
    by_cases absolute : (run.strippedInput ++ (normalizePath relative).rdropWhile isspace).head? = some '/'
    · rw [join, if_pos absolute] at same
      obtain ⟨front, path⟩ := strippedInput_append_eq same
      rw [List.head?_append_of_ne_nil _ nonempty] at absolute
      exact ⟨path, front, absolute, path ▸ notIn⟩
    · rw [join_eq_append absolute] at same
      have front := (@strippedInput_append_eq run [] relative (List.append_cancel_left same)).1
      exact absurd front.symm nonempty
  · rintro ⟨path, front, absolute, notIn⟩
    rw [path, (eraseAll_eq_self_iff inputpath_ne_nil).mpr notIn, join,
      if_pos (by rwa [List.head?_append_of_ne_nil _ nonempty]), front]

/-! ## The output of a file -/

theorem given_none (database : run.database = none) (file : Str) : run.given file = file := by rw [given, database]

theorem given_some {items : List Item} (database : run.database = some items) (file : Str) :
    run.given file = strip file := by
  rw [given, database]
  exact congrArg Item.filepath (itemOf_hashLine file)

theorem outputfile_fileOf (front path : Str) (same : front = run.inputpath) :
    outputfile run.args (front ++ path) = join run.output (eraseAll run.inputpath path) := by
  have cut := eraseAll_append_of_mem (@slash_mem_inputpath run) (List.not_mem_nil (a := '/')) path
  rw [List.nil_append, List.nil_append] at cut
  rw [outputfile, args, same, cut]

/-- Where the output of a file that the run takes up is the relative path below the output. -/
theorem outputfile_given_iff {relative : Str} (isRelative : relative.head? ≠ some '/') :
    outputfile run.args (run.given (run.fileOf relative)) = join run.output relative ↔
      '\\' ∉ relative ∧ ¬ run.inputpath <:+: relative ∧
        (run.database.isSome → relative.rdropWhile isspace = relative ∧ run.KeepsInput relative) := by
  cases database : run.database with
  | none =>
    rw [given_none database, fileOf_eq, outputfile_fileOf _ _ rfl,
      join_eraseAll_iff isRelative (length_normalizePath relative).le, eraseAll_normalizePath_iff]
    simp
  | some items =>
    rw [given_some database]
    by_cases kept : run.strippedInput = run.inputpath
    · have keeps : run.KeepsInput relative := Or.inl kept
      have short := length_rdropWhile_normalizePath relative
      rw [strip_fileOf, outputfile_fileOf _ _ kept, join_eraseAll_iff isRelative short, eraseAll_eq_iff short,
        rdropWhile_normalizePath_iff]
      simp only [Option.isSome_some, keeps, and_true, true_implies]
      tauto
    · rw [outputfile_strip_iff isRelative kept, rdropWhile_normalizePath_iff, KeepsInput]
      have outside : ¬ run.inputpath <:+: run.strippedInput ++ relative → ¬ run.inputpath <:+: relative :=
        fun notIn inside => notIn (inside.trans (List.suffix_append _ _).isInfix)
      simp only [Option.isSome_some, kept, false_or, true_implies]
      tauto

/-! ## The folders -/

/-- What is joined to the output and below a folder of the input lies in a folder that is made. -/
theorem made_of_mem {folder : Str} (mem : folder ∈ run.tree.paths .folders)
    (cut : eraseAll run.inputpath (normalizePath folder) = folder) (output : '\\' ∉ run.output) :
    run.Made (join run.output folder) := by
  refine ⟨run.fileOf folder, mem_dirs mem, ?_⟩
  rw [madePath, eraseAll_fileOf, cut, normalizePath_of_noBackslash output]

/-- No folder with a backslash is made. -/
theorem noBackslash_of_made {folder : Str} (made : run.Made folder) : '\\' ∉ folder := by
  obtain ⟨dir, mem, front⟩ := made
  have noBackslash : '\\' ∉ run.madePath dir := by
    intro inPath
    rcases mem_join inPath with inOutput | inDir | slash
    · exact noBackslash_normalizePath _ inOutput
    · exact noBackslash_of_mem_dirs mem ((eraseAllFrom_sublist _ _ _).subset inDir)
    · cases slash
  intro inFolder
  have inside := front.subset (List.mem_append_left _ inFolder)
  rw [List.mem_append, List.mem_singleton] at inside
  exact inside.elim noBackslash (by decide)

theorem noBackslash_outputOf {argument : Str} : '\\' ∉ join (outputOf argument) [] ↔ '\\' ∉ outputOf argument := by
  rw [join_nil]
  split
  · rfl
  · simp

/-- The relative path of a file, with the folder it is in, if it is not the input folder. -/
theorem parent_of_outputfile {relative folder name : Str} (noSep : '/' ∉ name)
    (split : join run.output [] ++ relative = folder ++ '/' :: name) :
    folder ++ ['/'] = join run.output [] ∨
      ∃ sub, relative = sub ++ '/' :: name ∧ folder = join run.output [] ++ sub := by
  by_cases deeper : '/' ∈ relative
  · obtain ⟨sub, last, rfl, noSep'⟩ := exists_last_sep deeper
    rw [← List.append_assoc] at split
    obtain ⟨rfl, rfl⟩ := append_sep_inj noSep' noSep split
    exact Or.inr ⟨sub, rfl, rfl⟩
  · rcases getLast_join run.output with nothing | slash
    · rw [nothing, List.nil_append] at split
      exact absurd (split ▸ by simp) deeper
    · obtain ⟨front, base⟩ := List.getLast?_eq_some_iff.mp slash
      rw [base, List.append_assoc, List.singleton_append] at split
      rw [base, (append_sep_inj deeper noSep split).1]
      exact Or.inl rfl

namespace Processed

variable {relative : Str} (processed : run.Processed relative)

include processed

theorem isRelative : relative.head? ≠ some '/' := Tree.relative_of_mem_paths run.valid processed.1

end Processed

namespace Unambiguous

variable (unambiguous : run.Unambiguous)

include unambiguous

theorem cut {relative : Str} (processed : run.Processed relative) :
    eraseAll run.inputpath (normalizePath relative) = relative :=
  eraseAll_normalizePath_iff.mpr ⟨unambiguous.noBackslash relative processed, unambiguous.noInput relative processed⟩

theorem derived {relative : Str} (processed : run.Processed relative) :
    outputfile run.args (run.given (run.fileOf relative)) = join run.output relative :=
  (outputfile_given_iff processed.isRelative).mpr ⟨unambiguous.noBackslash relative processed,
    unambiguous.noInput relative processed,
    fun database => ⟨unambiguous.noSpace database relative processed, unambiguous.input database relative processed⟩⟩

/-- The outputs of all that are listed like a file that is taken up. -/
theorem distinct : (run.files.map (outputfile run.args)).Nodup := by
  obtain ⟨selected, among, lines, perm⟩ := run.exists_processed
  let taken (file : Str) : Bool := decide (run.hashLine file ∈ run.hashestowrite)
  have outputs : (((run.tree.paths .files).filter (taken ∘ run.fileOf)).map
      (outputfile run.args ∘ run.given ∘ run.fileOf)).Nodup := by
    refine ((Tree.nodup_paths .files run.valid).filter _).map_on fun relative mem relative' mem' same => ?_
    obtain ⟨inTree, inLines⟩ := List.mem_filter.mp mem
    obtain ⟨inTree', inLines'⟩ := List.mem_filter.mp mem'
    have processed : run.Processed relative := ⟨inTree, of_decide_eq_true inLines⟩
    have processed' : run.Processed relative' := ⟨inTree', of_decide_eq_true inLines'⟩
    rw [Function.comp_apply, Function.comp_apply, Function.comp_apply, Function.comp_apply,
      unambiguous.derived processed, unambiguous.derived processed', join_eq_append processed.isRelative,
      join_eq_append processed'.isRelative] at same
    exact List.append_cancel_left same
  have found : (run.arrivals.filter taken).Perm
      (((run.tree.paths .files).filter (taken ∘ run.fileOf)).map run.fileOf) := by
    rw [← List.filter_map]
    exact arrivals_perm_fileOf.filter _
  have inFilter : selected.Sublist (run.arrivals.filter taken) := by
    have all : selected.filter taken = selected :=
      List.filter_eq_self.mpr fun file mem => decide_eq_true (lines ▸ List.mem_map_of_mem mem)
    exact all ▸ among.filter taken
  rw [(perm.map _).nodup_iff, List.map_map]
  refine (inFilter.map _).nodup ?_
  rw [(found.map _).nodup_iff, List.map_map]
  exact outputs

/-- The folder of a file is one that the scan has found, and it is cut as the file is. -/
theorem made_folder {sub name : Str} (processed : run.Processed (sub ++ '/' :: name)) (noSep : '/' ∉ name) :
    run.Made (join run.output [] ++ sub) := by
  have inFolders : sub ∈ run.tree.paths .folders := Tree.mem_paths_folders run.valid processed.1 noSep
  have noBackslash : '\\' ∉ sub := by
    intro backslash
    exact unambiguous.noBackslash _ processed (List.mem_append_left _ backslash)
  have noInput : ¬ run.inputpath <:+: sub := by
    intro input
    exact unambiguous.noInput _ processed (input.trans (List.prefix_append _ _).isInfix)
  have output : '\\' ∉ run.output := by
    intro backslash
    exact unambiguous.output backslash _ processed (by simp)
  have made := made_of_mem inFolders (eraseAll_normalizePath_iff.mpr ⟨noBackslash, noInput⟩) output
  rwa [join_eq_append (Tree.relative_of_mem_paths run.valid inFolders)] at made

theorem parents {file : Str} (found : file ∈ run.files) {folder name : Str}
    (output : outputfile run.args file = folder ++ '/' :: name) (noSep : '/' ∉ name) :
    folder ++ ['/'] = join run.output [] ∨ run.Made folder := by
  obtain ⟨relative, processed, rfl⟩ := exists_of_mem_files found
  rw [unambiguous.derived processed, join_eq_append processed.isRelative] at output
  rcases parent_of_outputfile noSep output with itself | ⟨sub, rfl, rfl⟩
  · exact Or.inl itself
  · exact Or.inr (unambiguous.made_folder processed noSep)

end Unambiguous

/-- The folder of a file below a subfolder is made only if the output has no backslash. -/
theorem RelativePaths.noSep_of_backslash (paths : run.RelativePaths) (backslash : '\\' ∈ run.output) {relative : Str}
    (processed : run.Processed relative) : '/' ∉ relative := by
  intro deeper
  obtain ⟨sub, last, rfl, noSep⟩ := exists_last_sep deeper
  have output := paths.derived _ processed
  rw [join_eq_append processed.isRelative, ← List.append_assoc] at output
  rcases paths.parents _ (given_mem_files processed) _ last output noSep with itself | made
  · have length := congrArg List.length itself
    simp only [List.length_append, List.length_singleton] at length
    omega
  · have noBackslash := noBackslash_of_made made
    rw [List.mem_append, not_or] at noBackslash
    exact noBackslash_outputOf.mp noBackslash.1 backslash

/-- The files `b/c` and `b/a/c`. -/
def nestedTree : Tree := .folder ['b'] (.file ['c'] (.folder ['a'] (.file ['c'] .nil) .nil)) .nil

theorem isName_singleton {c : Char} (noSep : c ≠ '/') (notDot : c ≠ '.') : IsName '/' '.' [c] where
  nonempty := by simp
  noSep := by simpa using Ne.symm noSep
  notDot := by simpa using notDot
  notDots := by simp

theorem nestedTree_valid : nestedTree.Valid := by
  refine ⟨isName_singleton (by decide) (by decide), by simp [Tree.names], ⟨?_, ?_, ?_⟩, trivial⟩
  · exact isName_singleton (by decide) (by decide)
  · simp [Tree.names]
  · exact ⟨isName_singleton (by decide) (by decide), by simp [Tree.names],
      ⟨isName_singleton (by decide) (by decide), by simp [Tree.names], trivial⟩, trivial⟩

/-- A backup of an input to `out`, with hashes that come in as the files were found. -/
def plainRun (input : Str) (tree : Tree) (database : Option (List Item)) (valid : tree.Valid) : RelativeRun where
  inputArgument := input
  outputArgument := "out".toList
  tools := "bin".toList
  tempfolder := "/tmp".toList
  tree := tree
  hash _ := ⟨0, 0, 0, 0⟩
  arrivals := (generateFilelist (normalizePath (inputOf input)) tree).2
  database := database
  valid := valid
  arrivals_perm := .refl _

def nestedRun : RelativeRun := plainRun "a".toList nestedTree none nestedTree_valid

/-- A file with a blank at the end of its name, and a database without entries. -/
def blankRun : RelativeRun :=
  plainRun "in".toList (.file "a ".toList .nil) (some [])
    ⟨⟨by decide, by decide, by decide, by decide⟩, by simp [Tree.names], trivial⟩

end RelativeRun

end BackupSuite.Python
