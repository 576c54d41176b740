import BackupSuite.CtrlCenter.VerifyProcess

/-! # The decompressors of a verify

`lepton` and `precomp` open their output for writing and make no folders.  `zpaq` leaves
an output alone that exists already; else it makes every folder that a slash or a backslash
in the output ends, and opens the output then.
-/

namespace BackupSuite.CtrlCenter

open BackupSuite.Library

/-! ## The decompressors -/

/-- What `zpaq x` does with an archive when its output does not exist. -/
inductive Extraction where
  /-- no archive, or an error before the outputs are looked at -/
  | unreadable
  /-- no file with fragments in it: the exit status is 0 and nothing is written -/
  | nothing
  | failed
  | content (bytes : Bytes)
deriving DecidableEq, Repr

/-- The decompressors, by what they make of the contents of an archive. -/
structure Tools where
  lepton : Bytes → Option Bytes
  precomp : Bytes → Option Bytes
  zpaq : Bytes → Extraction

section

variable (cwd : FolderPath) (output : Bytes)

/-- `fopen` for writing -/
def Writable (nodes : Nodes) : Prop :=
  Leads cwd nodes output ∧ nodes (folderOf cwd output) ≠ some .folder

instance (nodes : Nodes) : Decidable (Writable cwd output nodes) :=
  inferInstanceAs (Decidable (_ ∧ _))

/-- `exists`: a slash at the end is taken off. -/
def OutputExists (nodes : Nodes) : Prop :=
  let filename := if output.getLast? = some 47 then output.dropLast else output
  filename ≠ [] ∧ Leads cwd nodes filename ∧ nodes (folderOf cwd filename) ≠ none

/-- The folders that `makepath` makes, where a backslash is a separator as well. -/
def makepathFolders : List FolderPath := wayTo cwd (replaceAll output 92 47)

/-- `mkdir` for one folder after the other; nothing can be made below a file. -/
def makeFolders : List FolderPath → Nodes → Nodes
  | [], nodes => nodes
  | folder :: rest, nodes =>
    match nodes folder with
    | none => makeFolders rest (Function.update nodes folder (some .folder))
    | some .folder => makeFolders rest nodes
    | some (.file _) => nodes

def makepath (nodes : Nodes) : Nodes := makeFolders (makepathFolders cwd output) nodes

/-- `lepton` and `precomp`, for an archive that restores to `restored`. -/
inductive Opens (restored : Option Bytes) : Nodes → Child → Nodes → Prop
  | writes {nodes : Nodes} {content stdout : Bytes} (restorable : restored = some content)
      (writable : Writable cwd output nodes) :
      Opens restored nodes (.exited 0 stdout)
        (Function.update nodes (folderOf cwd output) (some (.file content)))
  | unrestored {nodes : Nodes} {status : Int} {stdout : Bytes} (broken : restored = none)
      (writable : Writable cwd output nodes) (failed : status ≠ 0) (left : Option Bytes) :
      Opens restored nodes (.exited status stdout)
        (Function.update nodes (folderOf cwd output) (left.map .file))
  | unopened {nodes : Nodes} {status : Int} {stdout : Bytes}
      (unopened : restored = none ∨ ¬ Writable cwd output nodes) (failed : status ≠ 0) :
      Opens restored nodes (.exited status stdout) nodes

/-- `Jidac::extract` -/
inductive Extracts (extraction : Extraction) : Nodes → Child → Nodes → Prop
  | unreadable {nodes : Nodes} {status : Int} {stdout : Bytes} (unreadable : extraction = .unreadable)
      (failed : status ≠ 0) : Extracts extraction nodes (.exited status stdout) nodes
  /-- `? output`, and the exit status does not show it -/
  | skipped {nodes : Nodes} {stdout : Bytes} (readable : extraction ≠ .unreadable)
      (already : OutputExists cwd output nodes) : Extracts extraction nodes (.exited 0 stdout) nodes
  | nothing {nodes nodes' : Nodes} {stdout : Bytes} (empty : extraction = .nothing)
      (absent : ¬ OutputExists cwd output nodes)
      -- an archive of folders only makes the way to them
      (made : nodes' = nodes ∨ nodes' = makepath cwd output nodes) :
      Extracts extraction nodes (.exited 0 stdout) nodes'
  | extracted {nodes : Nodes} {content stdout : Bytes} (restorable : extraction = .content content)
      (absent : ¬ OutputExists cwd output nodes) (writable : Writable cwd output (makepath cwd output nodes)) :
      Extracts extraction nodes (.exited 0 stdout)
        (Function.update (makepath cwd output nodes) (folderOf cwd output) (some (.file content)))
  | broken {nodes : Nodes} {status : Int} {stdout : Bytes} (broken : extraction = .failed)
      (absent : ¬ OutputExists cwd output nodes) (writable : Writable cwd output (makepath cwd output nodes))
      (failed : status ≠ 0) (left : Option Bytes) :
      Extracts extraction nodes (.exited status stdout)
        (Function.update (makepath cwd output nodes) (folderOf cwd output) (left.map .file))
  | unopened {nodes : Nodes} {status : Int} {stdout : Bytes}
      (files : extraction = .failed ∨ ∃ content, extraction = .content content)
      (absent : ¬ OutputExists cwd output nodes)
      (unopened : ¬ Writable cwd output (makepath cwd output nodes)) (failed : status ≠ 0) :
      Extracts extraction nodes (.exited status stdout) (makepath cwd output nodes)

end

/-- How the decompressors can run on the archives. -/
def Tools.run (tools : Tools) (conf : Configuration) (cwd : FolderPath) (archives : Bytes → Option Bytes)
    (cmdLine : List Bytes) (nodes : Nodes) (child : Child) (nodes' : Nodes) : Prop :=
  ∃ archive output codec, Decompresses conf archive output codec cmdLine ∧
    match codec with
    | .lepton => Opens cwd output ((archives archive).bind tools.lepton) nodes child nodes'
    | .precomp => Opens cwd output ((archives archive).bind tools.precomp) nodes child nodes'
    | .zpaq => Extracts cwd output ((archives archive).elim .unreadable tools.zpaq) nodes child nodes'

/-- An archive folder with its `filehashes.txt`, and what it is verified with. -/
structure Backup where
  conf : Configuration
  inputArgument : Bytes
  cwd : FolderPath
  entries : List FileEntry
  meowHash : Bytes → MeowU128
  tools : Tools
  archives : Bytes → Option Bytes

def Backup.verify (b : Backup) : Verify where
  conf := b.conf
  inputArgument := b.inputArgument
  cwd := b.cwd
  entries := b.entries
  meowHash := b.meowHash
  decompressor := b.tools.run b.conf b.cwd b.archives

/-! ## Outcomes -/

/-- The outcome of an archive that restores or does not. -/
def outcomeOf : Option Bytes → Outcome
  | some content => .content content
  | none => .failed

theorem runSubprocess_eq_ok {child : Child} {value : Bytes} (ok : runSubprocess child = .ok value) :
    ∃ stdout, child = .exited 0 stdout := by
  cases child with
  | notCreated => cases ok
  | notJoined => cases ok
  | exited status stdout =>
    by_cases zero : status = 0
    · exact ⟨stdout, by rw [zero]⟩
    · rw [runSubprocess, if_pos zero] at ok
      cases ok

theorem runSubprocess_exited_zero (stdout : Bytes) :
    runSubprocess (.exited 0 stdout) = .ok (cStr (fgets 127 stdout)) := by
  rw [runSubprocess, if_neg (fun ne => ne rfl)]

section

variable {b : Backup}

/-- What the entry's archive does to `zpaq`. -/
def Backup.extraction (b : Backup) (i : b.verify.Index) : Extraction :=
  (b.archives (archiveName i.filename i.filename)).elim .unreadable b.tools.zpaq

/-- What the entry's archive restores to with `lepton` or `precomp`. -/
def Backup.restored (b : Backup) (i : b.verify.Index) : Option Bytes :=
  (b.archives (archiveName i.filename i.filename)).bind
    (if codecOf i.filename = .lepton then b.tools.lepton else b.tools.precomp)

def Extraction.outcome : Extraction → Outcome
  | .unreadable => .failed
  | .nothing => .nothing
  | .failed => .failed
  | .content bytes => .content bytes

def Backup.outcome (b : Backup) (i : b.verify.Index) : Outcome :=
  if codecOf i.filename = .zpaq then (b.extraction i).outcome else outcomeOf (b.restored i)

/-! ## Making folders -/

theorem makeFolders_absent {folder : FolderPath} {nodes : Nodes} (absent : nodes folder = none)
    (rest : List FolderPath) : makeFolders (folder :: rest) nodes =
      makeFolders rest (Function.update nodes folder (some .folder)) := by
  rw [makeFolders, absent]

theorem makeFolders_present {folder : FolderPath} {nodes : Nodes} (isFolder : nodes folder = some .folder)
    (rest : List FolderPath) : makeFolders (folder :: rest) nodes = makeFolders rest nodes := by
  rw [makeFolders, isFolder]

theorem makeFolders_apply (folders : List FolderPath) (nodes : Nodes) (path : FolderPath) :
    makeFolders folders nodes path = nodes path ∨
      path ∈ folders ∧ nodes path = none ∧ makeFolders folders nodes path = some .folder := by
  induction folders generalizing nodes with
  | nil => exact Or.inl rfl
  | cons folder rest ih =>
    cases found : nodes folder with
    | none =>
      rw [makeFolders_absent found]
      cases ih (Function.update nodes folder (some .folder)) with
      | inl kept =>
        -- made here, or left as it was
        by_cases here : path = folder
        · subst here
          rw [Function.update_self] at kept
          exact Or.inr ⟨List.mem_cons_self, found, kept⟩
        · rw [Function.update_of_ne here] at kept
          exact Or.inl kept
      | inr made =>
        obtain ⟨mem, absent, isFolder⟩ := made
        have here : path ≠ folder := by
          rintro rfl
          rw [Function.update_self] at absent
          cases absent
        rw [Function.update_of_ne here] at absent
        exact Or.inr ⟨List.mem_cons_of_mem _ mem, absent, isFolder⟩
    | some node =>
      cases node with
      | folder =>
        rw [makeFolders_present found]
        exact (ih nodes).imp_right fun made => ⟨List.mem_cons_of_mem _ made.1, made.2⟩
      | file content =>
        rw [makeFolders, found]
        exact Or.inl rfl

theorem makeFolders_folder {folders : List FolderPath} {nodes : Nodes} {path : FolderPath}
    (isFolder : nodes path = some .folder) : makeFolders folders nodes path = some .folder := by
  cases makeFolders_apply folders nodes path with
  | inl kept => rw [kept, isFolder]
  | inr made => exact made.2.2

theorem makeFolders_of_mem {folders : List FolderPath} {nodes : Nodes}
    (free : ∀ folder ∈ folders, nodes folder = none ∨ nodes folder = some .folder) {path : FolderPath}
    (mem : path ∈ folders) : makeFolders folders nodes path = some .folder := by
  induction folders generalizing nodes with
  | nil => cases mem
  | cons folder rest ih =>
    cases free folder List.mem_cons_self with
    | inl absent =>
      have free' : ∀ f ∈ rest, Function.update nodes folder (some .folder) f = none ∨
          Function.update nodes folder (some .folder) f = some .folder := by
        intro f restMem
        by_cases same : f = folder
        · exact Or.inr (by rw [same, Function.update_self])
        · rw [Function.update_of_ne same]
          exact free f (List.mem_cons_of_mem _ restMem)
      rw [makeFolders_absent absent]
      cases List.mem_cons.mp mem with
      | inl first => exact makeFolders_folder (by rw [first, Function.update_self])
      | inr later => exact ih free' later
    | inr isFolder =>
      rw [makeFolders_present isFolder]
      cases List.mem_cons.mp mem with
      | inl first => exact makeFolders_folder (by rw [first, isFolder])
      | inr later => exact ih (fun f restMem => free f (List.mem_cons_of_mem _ restMem)) later

/-! ## What a run does at its output -/

theorem not_outputExists {cwd : FolderPath} {output : Bytes} {nodes : Nodes}
    (absent : nodes (folderOf cwd output) = none) : ¬ OutputExists cwd output nodes := by
  rintro ⟨nonempty, -, present⟩
  split at nonempty
  case isTrue slash =>
    rw [if_pos slash] at present
    obtain ⟨front, rfl⟩ := List.getLast?_eq_some_iff.mp slash
    rw [List.dropLast_concat] at nonempty present
    have same : folderOf cwd (front ++ [47]) = folderOf cwd front := by
      rw [folderOf, walk_concat_sep, startOf_append nonempty, folderOf]
    exact present (same ▸ absent)
  case isFalse noSlash =>
    rw [if_neg noSlash] at present
    exact present absent

theorem runSubprocess_exited_of_ne {status : Int} (failed : status ≠ 0) (stdout : Bytes) :
    ∃ message, runSubprocess (.exited status stdout) = .error message :=
  ⟨_, by rw [runSubprocess, if_pos failed]⟩

variable {i : b.verify.Index} {nodes nodes' : Nodes} {child : Child}

theorem Backup.runs_zpaq (zpaq : codecOf i.filename = .zpaq)
    (ran : b.verify.decompressor (decompressCommand b.conf i.filename) nodes child nodes') :
    Extracts b.cwd i.outputFile (b.extraction i) nodes child nodes' := by
  obtain ⟨archive, output, codec, command, effect⟩ := ran
  obtain ⟨rfl, rfl, rfl⟩ := (decompresses_decompressCommand b.conf i.filename).unique command rfl
  rw [zpaq] at effect
  exact effect

theorem Backup.runs_other (other : codecOf i.filename ≠ .zpaq)
    (ran : b.verify.decompressor (decompressCommand b.conf i.filename) nodes child nodes') :
    Opens b.cwd i.outputFile (b.restored i) nodes child nodes' := by
  obtain ⟨archive, output, codec, command, effect⟩ := ran
  obtain ⟨rfl, rfl, rfl⟩ := (decompresses_decompressCommand b.conf i.filename).unique command rfl
  rw [Backup.restored]
  cases kind : codecOf i.filename with
  | lepton =>
    rw [kind] at effect
    exact effect
  | precomp =>
    rw [kind] at effect
    exact effect
  | zpaq => exact absurd kind other

/-- A run changes its output, and `zpaq` makes the folders for it. -/
theorem Backup.ran (ran : b.verify.decompressor (decompressCommand b.conf i.filename) nodes child nodes') :
    ∃ grown found, nodes' = Function.update grown i.outputNode found ∧
      (grown = nodes ∨ codecOf i.filename = .zpaq ∧ b.extraction i ≠ .unreadable ∧
        grown = makepath b.cwd i.outputFile nodes) := by
  have kept : ∃ grown found, nodes = Function.update grown i.outputNode found ∧
      (grown = nodes ∨ codecOf i.filename = .zpaq ∧ b.extraction i ≠ .unreadable ∧
        grown = makepath b.cwd i.outputFile nodes) :=
    ⟨nodes, _, (Function.update_eq_self _ _).symm, Or.inl rfl⟩
  by_cases zpaq : codecOf i.filename = .zpaq
  · cases Backup.runs_zpaq zpaq ran with
    | unreadable unreadable failed => exact kept
    | skipped readable already => exact kept
    | nothing empty absent made =>
      have readable : b.extraction i ≠ .unreadable := by rw [empty]; exact Extraction.noConfusion
      cases made with
      | inl same => exact same ▸ kept
      | inr folders =>
        exact ⟨_, _, (Function.update_eq_self _ _).symm, Or.inr ⟨zpaq, readable, folders⟩⟩
    | extracted restorable absent writable =>
      have readable : b.extraction i ≠ .unreadable := by rw [restorable]; exact Extraction.noConfusion
      exact ⟨_, _, rfl, Or.inr ⟨zpaq, readable, rfl⟩⟩
    | broken broken absent writable failed left =>
      have readable : b.extraction i ≠ .unreadable := by rw [broken]; exact Extraction.noConfusion
      exact ⟨_, _, rfl, Or.inr ⟨zpaq, readable, rfl⟩⟩
    | unopened files absent unopened failed =>
      have readable : b.extraction i ≠ .unreadable := by
        rintro unreadable
        obtain broken | ⟨content, restorable⟩ := files
        · cases unreadable.symm.trans broken
        · cases unreadable.symm.trans restorable
      exact ⟨_, _, (Function.update_eq_self _ _).symm, Or.inr ⟨zpaq, readable, rfl⟩⟩
  · cases Backup.runs_other zpaq ran with
    | writes restorable writable => exact ⟨_, _, rfl, Or.inl rfl⟩
    | unrestored broken writable failed left => exact ⟨_, _, rfl, Or.inl rfl⟩
    | unopened unopened failed => exact kept

theorem exists_opens (cwd : FolderPath) (output : Bytes) (restored : Option Bytes) (nodes : Nodes) :
    ∃ child nodes', Opens cwd output restored nodes child nodes' := by
  by_cases writable : Writable cwd output nodes
  · cases restored with
    | none => exact ⟨.exited 1 [], _, .unrestored rfl writable (by decide) none⟩
    | some content => exact ⟨.exited 0 [], _, .writes rfl writable⟩
  · exact ⟨.exited 1 [], _, .unopened (Or.inr writable) (by decide)⟩

theorem exists_extracts (cwd : FolderPath) (output : Bytes) (extraction : Extraction) (nodes : Nodes) :
    ∃ child nodes', Extracts cwd output extraction nodes child nodes' := by
  by_cases unreadable : extraction = .unreadable
  · exact ⟨.exited 1 [], _, .unreadable unreadable (by decide)⟩
  · by_cases already : OutputExists cwd output nodes
    · exact ⟨.exited 0 [], _, .skipped unreadable already⟩
    · by_cases writable : Writable cwd output (makepath cwd output nodes)
      · cases extraction with
        | unreadable => exact absurd rfl unreadable
        | nothing => exact ⟨.exited 0 [], _, .nothing rfl already (Or.inl rfl)⟩
        | failed => exact ⟨.exited 1 [], _, .broken rfl already writable (by decide) none⟩
        | content bytes => exact ⟨.exited 0 [], _, .extracted rfl already writable⟩
      · cases extraction with
        | unreadable => exact absurd rfl unreadable
        | nothing => exact ⟨.exited 0 [], _, .nothing rfl already (Or.inl rfl)⟩
        | failed => exact ⟨.exited 1 [], _, .unopened (Or.inl rfl) already writable (by decide)⟩
        | content bytes =>
          exact ⟨.exited 1 [], _, .unopened (Or.inr ⟨_, rfl⟩) already writable (by decide)⟩

theorem Backup.starts (b : Backup) (i : b.verify.Index) (nodes : Nodes) : ∃ child nodes',
    b.verify.decompressor (decompressCommand b.conf i.filename) nodes child nodes' := by
  have command := decompresses_decompressCommand b.conf i.filename
  cases codec : codecOf i.filename with
  | lepton =>
    obtain ⟨child, nodes', ran⟩ := exists_opens b.cwd i.outputFile
      ((b.archives (archiveName i.filename i.filename)).bind b.tools.lepton) nodes
    exact ⟨child, nodes', _, _, _, codec ▸ command, ran⟩
  | precomp =>
    obtain ⟨child, nodes', ran⟩ := exists_opens b.cwd i.outputFile
      ((b.archives (archiveName i.filename i.filename)).bind b.tools.precomp) nodes
    exact ⟨child, nodes', _, _, _, codec ▸ command, ran⟩
  | zpaq =>
    obtain ⟨child, nodes', ran⟩ := exists_extracts b.cwd i.outputFile (b.extraction i) nodes
    exact ⟨child, nodes', _, _, _, codec ▸ command, ran⟩

end

end BackupSuite.CtrlCenter
