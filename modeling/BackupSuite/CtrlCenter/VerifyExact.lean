import BackupSuite.CtrlCenter.VerifyTools

/-! # A verify into an empty place

The outputs are not there yet and the folders in front of them are.  `zpaq` takes a
backslash in an output for a separator and makes a folder for what is in front, so one
archive can bring a folder to where another one's output belongs.  Exactly when it does not,
a mismatch is printed for the entries whose archives do not restore to the recorded hash
and for no others, in whatever order the jobs take their steps (`exact_iff_clear`).
-/

namespace BackupSuite.CtrlCenter

open BackupSuite.Library

/-- A relative path without empty, `.` and `..` components. -/
def IsProper (path : Bytes) : Prop :=
  ∃ folders name, (∀ folder ∈ folders, IsName 47 46 folder) ∧ IsName 47 46 name ∧
    path = relative 47 folders name

section

variable {v : Verify}

/-! ## Outputs of different entries -/

theorem outputNode_eq {i : v.Index} {folders : List Bytes} {name : Bytes}
    (areNames : ∀ folder ∈ folders, IsName 47 46 folder) (isName : IsName 47 46 name)
    (path : i.entry.mPath = relative 47 folders name) :
    i.outputNode = name :: (folders.reverse ++ folderOf v.cwd (v.conf.temporaryFolder ++ v.inputFolder)) := by
  obtain ⟨front, slash⟩ := List.getLast?_eq_some_iff.mp (getLast_normalizeDirPath v.inputArgument)
  have base : v.conf.temporaryFolder ++ v.inputFolder = v.conf.temporaryFolder ++ front ++ [47] := by
    rw [Verify.inputFolder, slash, List.append_assoc]
  have output : i.outputFile = v.conf.temporaryFolder ++ front ++ [47] ++ relative 47 folders name := by
    rw [Verify.Index.outputFile, Verify.Index.filename, path, ← List.append_assoc, base]
  have start := @startOf_append v.cwd (v.conf.temporaryFolder ++ front ++ [47]) (by simp)
    (relative 47 folders name)
  have split : v.conf.temporaryFolder ++ front ++ [47] ++ relative 47 folders name =
      v.conf.temporaryFolder ++ front ++ 47 :: relative 47 folders name := by simp
  rw [Verify.Index.outputNode, output, folderOf, start, split, walk_append_sep,
    walk_relative areNames isName, base, folderOf, walk_concat_sep]

theorem apart_of_absent (proper : ∀ e ∈ v.entries, IsProper e.mPath)
    (distinct : (v.entries.map FileEntry.mPath).Nodup) {nodes : Nodes}
    (parents : ∀ i : v.Index, Leads v.cwd nodes i.outputFile)
    (absent : ∀ i : v.Index, nodes i.outputNode = none) : v.Apart where
  outputs i j different same := by
    obtain ⟨folders, name, areNames, isName, path⟩ := proper i.entry (List.getElem_mem _)
    obtain ⟨folders', name', areNames', isName', path'⟩ := proper j.entry (List.getElem_mem _)
    rw [outputNode_eq areNames isName path, outputNode_eq areNames' isName' path'] at same
    obtain ⟨names, below⟩ := List.cons.inj same
    have reversed := List.append_cancel_right below
    have paths : j.entry.mPath = i.entry.mPath := by
      rw [path, path', names, List.reverse_inj.mp reversed]
    have bound : ∀ k : v.Index, k.val < (v.entries.map FileEntry.mPath).length := fun k => by simp
    have boundJ := bound j
    have boundI := bound i
    have positions : (v.entries.map FileEntry.mPath)[j.val] = (v.entries.map FileEntry.mPath)[i.val] := by
      simpa [Verify.Index.entry] using paths
    exact different (Fin.ext (distinct.getElem_inj_iff.mp positions))
  passed i j onWay := by
    -- what is on the way is a folder, and the output is not there
    have folder := parents j _ onWay
    rw [absent i] at folder
    cases folder

end

/-! ## Exactness -/

/-- The archive that `decompressFile` derives for an entry restores to content with the recorded hash. -/
def Backup.Restores (b : Backup) (i : b.verify.Index) : Prop :=
  ∃ content, b.outcome i = .content content ∧ printHash (b.meowHash content) = i.entry.mHashValue

/-- A mismatch is printed for exactly the entries whose archives do not restore. -/
def Backup.Exact (b : Backup) (nodes : Nodes) : Prop :=
  ∀ s, b.verify.Ends nodes s → ∀ i, (∃ line, (i, line) ∈ b.verify.mismatches s) ↔ ¬ b.Restores i

/-- Entries and a temporary folder that `filehashes.txt` and an empty place for the outputs give. -/
structure Backup.Fresh (b : Backup) (nodes : Nodes) : Prop where
  proper : ∀ e ∈ b.entries, IsProper e.mPath
  distinct : (b.entries.map FileEntry.mPath).Nodup
  recorded : ∀ e ∈ b.entries, ∃ hash, e.mHashValue = printHash hash
  parents : ∀ i : b.verify.Index, Leads b.cwd nodes i.outputFile
  absent : ∀ i : b.verify.Index, nodes i.outputNode = none

/-- Where an archive restores to, `zpaq` makes no folder for an archive that it can read. -/
def Backup.Clear (b : Backup) (nodes : Nodes) : Prop :=
  ∀ i j : b.verify.Index, b.Restores i → codecOf j.filename = .zpaq → b.extraction j ≠ .unreadable →
    makepath b.cwd j.outputFile nodes i.outputNode = none

section

variable {b : Backup} {start : Nodes}

theorem Backup.Fresh.apart (fresh : b.Fresh start) : b.verify.Apart :=
  apart_of_absent fresh.proper fresh.distinct fresh.parents fresh.absent

/-! ## Results as verdicts -/

/-- The output is a file with the recorded hash. -/
def Backup.Bears (b : Backup) (i : b.verify.Index) (nodes : Nodes) : Prop :=
  ∃ content, nodes i.outputNode = some (.file content) ∧
    printHash (b.meowHash content) = i.entry.mHashValue

theorem hashValueOf_unable (rest : Bytes) :
    hashValueOf (cStr (fgets 127 (text "ERROR: Unable to load \"" ++ rest))) = text "Unable" := by
  have front : text "ERROR: Unable to load \"" ++ rest =
      text "ERROR: Unable " ++ (text "to load \"" ++ rest) := by simp [text]
  rw [front, fgets_append (by decide) (by decide)]
  generalize fgets (127 - (text "ERROR: Unable ").length) (text "to load \"" ++ rest) = tail
  have line : cStr (cStr (text "ERROR: Unable " ++ tail)) =
      text "ERROR:" ++ ([32] ++ (text "Unable" ++ (32 :: cStr tail))) := by
    rw [cStr_of_noNul (cStr_noNul _)]
    rfl
  have label : skipNonWhitespace (text "ERROR:" ++ ([32] ++ (text "Unable" ++ (32 :: cStr tail)))) =
      [32] ++ (text "Unable" ++ (32 :: cStr tail)) :=
    advance_token (List.all_eq_true.mp rfl) (stops_cons.mpr rfl)
  have word : skipWhitespace ([32] ++ (text "Unable" ++ (32 :: cStr tail))) =
      text "Unable" ++ (32 :: cStr tail) :=
    advance_token (List.all_eq_true.mp rfl) (stops_cons.mpr rfl)
  have behind : skipNonWhitespace (text "Unable" ++ (32 :: cStr tail)) = 32 :: cStr tail :=
    advance_token (List.all_eq_true.mp rfl) (stops_cons.mpr rfl)
  rw [hashValueOf, line, label, word, behind, between_append]

/-- No error text is a recorded hash. -/
theorem Backup.Fresh.recorded_ne (fresh : b.Fresh start) (i : b.verify.Index) {value : Bytes}
    (short : value.length < 35) : value ≠ i.entry.mHashValue := by
  obtain ⟨hash, recorded⟩ := fresh.recorded i.entry (List.getElem_mem _)
  rintro rfl
  rw [recorded, length_printHash] at short
  exact Nat.lt_irrefl _ short

/-- The hash line of an output has the recorded hash exactly when the output bears it. -/
theorem Backup.Fresh.hashValueOf_resultIn (fresh : b.Fresh start) {i : b.verify.Index} {nodes : Nodes}
    (leads : Leads b.cwd nodes i.outputFile) :
    hashValueOf (i.resultIn nodes) = i.entry.mHashValue ↔ b.Bears i nodes := by
  have result : i.resultIn nodes =
      cStr (fgets 127 (hashOneFile b.meowHash i.outputFile (readEntireFile b.cwd nodes i.outputFile))) := rfl
  have isOutput : folderOf b.cwd i.outputFile = i.outputNode := rfl
  rw [result, Backup.Bears]
  cases found : nodes i.outputNode with
  | none =>
    have unable : readEntireFile b.cwd nodes i.outputFile = .unableToLoad := by
      simp only [readEntireFile, if_pos leads, isOutput, found]
    rw [unable, hashOneFile, List.append_assoc, hashValueOf_unable]
    exact iff_of_false (fresh.recorded_ne i (by decide)) (by simp)
  | some node =>
    cases node with
    | folder =>
      have unallocated : readEntireFile b.cwd nodes i.outputFile = .unallocated := by
        simp only [readEntireFile, if_pos leads, isOutput, found]
      have nothing : hashValueOf (cStr (fgets 127 (hashOneFile b.meowHash i.outputFile .unallocated))) = [] := rfl
      rw [unallocated, nothing]
      exact iff_of_false (fresh.recorded_ne i (by decide)) (by simp)
    | file content =>
      have contents : readEntireFile b.cwd nodes i.outputFile = .contents content := by
        simp only [readEntireFile, if_pos leads, isOutput, found]
      have value : hashValueOf (hashLine b.meowHash i.outputFile content) = printHash (b.meowHash content) :=
        hashValueOf_hashLine _ _ _
      have line : cStr (fgets 127 (hashOneFile b.meowHash i.outputFile (.contents content))) =
          hashLine b.meowHash i.outputFile content := rfl
      simp [contents, line, value]

/-! ## What stays as it was -/

/-- The files of the start are still there, and the folders in front of the outputs. -/
structure Backup.Around (b : Backup) (start nodes : Nodes) : Prop where
  files : ∀ path content, start path = some (.file content) → nodes path = some (.file content)
  leads : ∀ i : b.verify.Index, Leads b.cwd nodes i.outputFile

theorem Backup.Fresh.around (fresh : b.Fresh start) : b.Around start start :=
  ⟨fun _ _ => id, fresh.parents⟩

theorem Backup.Around.update (fresh : b.Fresh start) {nodes : Nodes} (around : b.Around start nodes)
    (i : b.verify.Index) (found : Option Node) :
    b.Around start (Function.update nodes i.outputNode found) where
  files path content file := by
    have other : path ≠ i.outputNode := by
      rintro rfl
      cases (fresh.absent i).symm.trans file
    rw [Function.update_of_ne other]
    exact around.files path content file
  leads j := Leads.update (v := b.verify) (around.leads j) (fresh.apart.passed i j) found

theorem Backup.Around.grown {nodes : Nodes} (around : b.Around start nodes) (output : Bytes) :
    b.Around start (makepath b.cwd output nodes) where
  files path content file := by
    cases makeFolders_apply (makepathFolders b.cwd output) nodes path with
    | inl kept => exact kept.trans (around.files path content file)
    | inr made => cases made.2.1.symm.trans (around.files path content file)
  leads j folder mem := makeFolders_folder (around.leads j folder mem)

theorem free_or_file (nodes : Nodes) (path : FolderPath) :
    (nodes path = none ∨ nodes path = some .folder) ∨ ∃ content, nodes path = some (.file content) := by
  cases nodes path with
  | none => exact Or.inl (Or.inl rfl)
  | some node =>
    cases node with
    | folder => exact Or.inl (Or.inr rfl)
    | file content => exact Or.inr ⟨content, rfl⟩

theorem makeFolders_cons {folder : FolderPath} {nodes : Nodes}
    (free : nodes folder = none ∨ nodes folder = some .folder) (rest : List FolderPath) :
    makeFolders (folder :: rest) nodes = makeFolders rest (Function.update nodes folder (some .folder)) := by
  cases free with
  | inl absent => exact makeFolders_absent absent rest
  | inr isFolder => rw [makeFolders_present isFolder, ← isFolder, Function.update_eq_self]

/-- With the files of the start in the way as well, no folder is made where none was made then. -/
theorem makeFolders_eq_none {folders : List FolderPath} {start nodes : Nodes} {path : FolderPath}
    (files : ∀ path content, start path = some (.file content) → nodes path = some (.file content))
    (absent : nodes path = none) (unmade : makeFolders folders start path = none) :
    makeFolders folders nodes path = none := by
  induction folders generalizing start nodes with
  | nil => exact absent
  | cons folder rest ih =>
    have stops : ∀ {content}, nodes folder = some (.file content) →
        makeFolders (folder :: rest) nodes path = none := by
      intro content file
      rw [makeFolders, file]
      exact absent
    obtain before | ⟨content, file⟩ := free_or_file start folder
    · obtain now | ⟨content, file⟩ := free_or_file nodes folder
      · rw [makeFolders_cons before] at unmade
        rw [makeFolders_cons now]
        have other : path ≠ folder := by
          rintro rfl
          cases (makeFolders_folder (Function.update_self _ _ _)).symm.trans unmade
        refine ih ?_ (by rwa [Function.update_of_ne other]) unmade
        intro p content file
        by_cases here : p = folder
        · rw [here, Function.update_self] at file
          cases file
        · rw [Function.update_of_ne here] at file ⊢
          exact files p content file
      · exact stops file
    · exact stops (files folder content file)

/-! ## One run of a decompressor -/

variable {i : b.verify.Index} {nodes nodes' : Nodes} {child : Child}

theorem Backup.Around.ran (fresh : b.Fresh start) (around : b.Around start nodes)
    (ran : b.verify.decompressor (decompressCommand b.conf i.filename) nodes child nodes') :
    b.Around start nodes' := by
  obtain ⟨grown, found, rfl, made⟩ := Backup.ran ran
  obtain rfl | ⟨-, -, rfl⟩ := made
  · exact around.update fresh i found
  · exact (around.grown i.outputFile).update fresh i found

/-- At the output of another entry there is what was there, or a folder that `zpaq` would have
made at the start as well. -/
theorem Backup.Around.ran_elsewhere (fresh : b.Fresh start) (around : b.Around start nodes)
    {j : b.verify.Index} (different : j ≠ i)
    (ran : b.verify.decompressor (decompressCommand b.conf i.filename) nodes child nodes') :
    nodes' j.outputNode = nodes j.outputNode ∨
      nodes j.outputNode = none ∧ nodes' j.outputNode = some .folder ∧ codecOf i.filename = .zpaq ∧
        b.extraction i ≠ .unreadable ∧ makepath b.cwd i.outputFile start j.outputNode ≠ none := by
  obtain ⟨grown, found, rfl, made⟩ := Backup.ran ran
  rw [Function.update_of_ne (fresh.apart.outputs i j different)]
  obtain rfl | ⟨zpaq, readable, rfl⟩ := made
  · exact Or.inl rfl
  · refine (makeFolders_apply (makepathFolders b.cwd i.outputFile) nodes j.outputNode).imp_right ?_
    rintro ⟨-, absent, folder⟩
    refine ⟨absent, folder, zpaq, readable, fun unmade => ?_⟩
    cases (makeFolders_eq_none around.files absent unmade).symm.trans folder

theorem not_bears (free : nodes i.outputNode = none ∨ nodes i.outputNode = some .folder) : ¬ b.Bears i nodes := by
  rintro ⟨content, file, -⟩
  obtain absent | folder := free
  · cases absent.symm.trans file
  · cases folder.symm.trans file

/-- Only an archive that restores leaves the recorded hash, and only where no folder is. -/
theorem restores_of_bears (free : nodes i.outputNode = none ∨ nodes i.outputNode = some .folder)
    (ran : b.verify.decompressor (decompressCommand b.conf i.filename) nodes child nodes') {value : Bytes}
    (ok : runSubprocess child = .ok value) (bears : b.Bears i nodes') :
    nodes i.outputNode = none ∧ b.Restores i := by
  have exits : ∀ {status stdout}, child = .exited status stdout → status = 0 := by
    intro status stdout exited
    obtain ⟨_, exitedZero⟩ := runSubprocess_eq_ok ok
    cases exited.symm.trans exitedZero
    rfl
  have restored : ∀ {grown : Nodes} {content}, grown i.outputNode ≠ some .folder →
      (nodes i.outputNode = some .folder → grown i.outputNode = some .folder) →
      b.outcome i = .content content →
      nodes' = Function.update grown i.outputNode (some (.file content)) →
      nodes i.outputNode = none ∧ b.Restores i := by
    rintro grown content open' kept outcome rfl
    obtain ⟨content', file, hash⟩ := bears
    rw [Function.update_self] at file
    cases file
    exact ⟨free.resolve_right fun folder => open' (kept folder), content, outcome, hash⟩
  by_cases zpaq : codecOf i.filename = .zpaq
  · have outcome : b.outcome i = (b.extraction i).outcome := if_pos zpaq
    cases Backup.runs_zpaq zpaq ran with
    | unreadable unreadable failed => exact absurd (exits rfl) failed
    | skipped readable already => exact absurd bears (not_bears free)
    | nothing empty absent made =>
      obtain rfl | rfl := made
      · exact absurd bears (not_bears free)
      · refine absurd bears (not_bears ?_)
        cases makeFolders_apply (makepathFolders b.cwd i.outputFile) nodes i.outputNode with
        | inl kept =>
          have same : makepath b.cwd i.outputFile nodes i.outputNode = nodes i.outputNode := kept
          rwa [same]
        | inr made => exact Or.inr made.2.2
    | extracted restorable absent writable =>
      exact restored writable.2 makeFolders_folder (by rw [outcome, restorable]; rfl) rfl
    | broken broken absent writable failed left => exact absurd (exits rfl) failed
    | unopened files absent unopened failed => exact absurd (exits rfl) failed
  · have outcome : b.outcome i = outcomeOf (b.restored i) := if_neg zpaq
    cases Backup.runs_other zpaq ran with
    | writes restorable writable => exact restored writable.2 id (by rw [outcome, restorable]; rfl) rfl
    | unrestored broken writable failed left => exact absurd (exits rfl) failed
    | unopened unopened failed => exact absurd (exits rfl) failed

theorem Backup.extraction_eq {content : Bytes} (zpaq : codecOf i.filename = .zpaq)
    (outcome : b.outcome i = .content content) : b.extraction i = .content content := by
  have found : (b.extraction i).outcome = .content content := (if_pos zpaq).symm.trans outcome
  cases kind : b.extraction i with
  | unreadable => rw [kind] at found; cases found
  | nothing => rw [kind] at found; cases found
  | failed => rw [kind] at found; cases found
  | content bytes =>
    rw [kind] at found
    cases found
    rfl

theorem Backup.restored_eq {content : Bytes} (other : codecOf i.filename ≠ .zpaq)
    (outcome : b.outcome i = .content content) : b.restored i = some content := by
  have found : outcomeOf (b.restored i) = .content content := (if_neg other).symm.trans outcome
  cases kind : b.restored i with
  | none => rw [kind] at found; cases found
  | some bytes =>
    rw [kind] at found
    cases found
    rfl

/-- An archive that restores does so where no folder stands or is made. -/
theorem Backup.Around.ran_of_restores (around : b.Around start nodes) (restores : b.Restores i)
    (absent : nodes i.outputNode = none)
    (unmade : codecOf i.filename = .zpaq → makepath b.cwd i.outputFile nodes i.outputNode = none)
    (ran : b.verify.decompressor (decompressCommand b.conf i.filename) nodes child nodes') :
    (∃ value, runSubprocess child = .ok value) ∧ b.Bears i nodes' := by
  obtain ⟨content, outcome, hash⟩ := restores
  have written : ∀ grown : Nodes, b.Bears i (Function.update grown i.outputNode (some (.file content))) :=
    fun grown => ⟨content, Function.update_self _ _ _, hash⟩
  by_cases zpaq : codecOf i.filename = .zpaq
  · have extraction := Backup.extraction_eq zpaq outcome
    have writable : Writable b.cwd i.outputFile (makepath b.cwd i.outputFile nodes) := by
      refine ⟨(around.grown i.outputFile).leads i, ?_⟩
      have unmade' : makepath b.cwd i.outputFile nodes (folderOf b.cwd i.outputFile) = none := unmade zpaq
      simp [unmade']
    have runs := Backup.runs_zpaq zpaq ran
    rw [extraction] at runs
    cases runs with
    | unreadable unreadable failed => cases unreadable
    | skipped readable already => exact absurd already (not_outputExists absent)
    | nothing empty => cases empty
    | extracted restorable =>
      cases restorable
      exact ⟨⟨_, runSubprocess_exited_zero _⟩, written _⟩
    | broken broken => cases broken
    | unopened files notExists unopened => exact absurd writable unopened
  · have restored := Backup.restored_eq zpaq outcome
    have writable : Writable b.cwd i.outputFile nodes := by
      have absent' : nodes (folderOf b.cwd i.outputFile) = none := absent
      refine ⟨around.leads i, ?_⟩
      simp [absent']
    have runs := Backup.runs_other zpaq ran
    rw [restored] at runs
    cases runs with
    | writes restorable =>
      cases restorable
      exact ⟨⟨_, runSubprocess_exited_zero _⟩, written _⟩
    | unrestored broken => cases broken
    | unopened unopened =>
      obtain broken | blocked := unopened
      · cases broken
      · exact absurd writable blocked

/-! ## Every interleaving -/

/-- What decides whether the entry's job returns the recorded hash. -/
def Backup.Verdict (b : Backup) (i : b.verify.Index) (verdict : Prop) (nodes : Nodes) : JobState → Prop
  | .queued => nodes i.outputNode = none ∧ (verdict ↔ b.Restores i) ∨
      nodes i.outputNode = some .folder ∧ ¬ verdict
  | .decompressed => b.Bears i nodes ↔ verdict
  | .hashed uncompressedHash => hashValueOf uncompressedHash = i.entry.mHashValue ↔ verdict
  | .returned result => hashValueOf result = i.entry.mHashValue ↔ verdict

/-- No run makes a folder at the output, where one would be in the way. -/
def Backup.Spared (b : Backup) (start : Nodes) (i : b.verify.Index) : Prop :=
  ∀ j : b.verify.Index, codecOf j.filename = .zpaq → b.extraction j ≠ .unreadable →
    makepath b.cwd j.outputFile start i.outputNode = none

variable {verdict : Prop} {job job' : JobState}

theorem Backup.Around.step (fresh : b.Fresh start) (around : b.Around start nodes)
    (moves : b.verify.step i (nodes, job) (nodes', job')) : b.Around start nodes' := by
  cases moves with
  | failed ran error => exact around.ran fresh ran
  | decompress ran ok => exact around.ran fresh ran
  | hash ok => exact around
  | delete =>
    cases deleteFile_eq b.cwd i.outputFile nodes with
    | inl kept =>
      have kept' : (deleteFile b.verify.cwd (b.verify.conf.temporaryFolder ++ i.filename) nodes).2 = nodes := kept
      rwa [kept']
    | inr erased =>
      have erased' : (deleteFile b.verify.cwd (b.verify.conf.temporaryFolder ++ i.filename) nodes).2 =
          Function.update nodes i.outputNode none := erased
      rw [erased']
      exact around.update fresh i none

theorem Backup.Verdict.own (fresh : b.Fresh start) (around : b.Around start nodes)
    (spared : verdict → b.Spared start i) (inv : b.Verdict i verdict nodes job)
    (moves : b.verify.step i (nodes, job) (nodes', job')) : b.Verdict i verdict nodes' job' := by
  -- a job that is to return the recorded hash finds its place free, and its run succeeds
  have succeeds : ∀ {child nodes'}, verdict → nodes i.outputNode = none ∧ (verdict ↔ b.Restores i) →
      b.verify.decompressor (decompressCommand b.conf i.filename) nodes child nodes' →
      (∃ value, runSubprocess child = .ok value) ∧ b.Bears i nodes' := by
    intro child nodes' holds free ran
    have restores := free.2.mp holds
    refine around.ran_of_restores restores free.1 (fun zpaq => ?_) ran
    refine makeFolders_eq_none around.files free.1 (spared holds i zpaq fun unreadable => ?_)
    obtain ⟨content, outcome, -⟩ := restores
    rw [Backup.outcome, if_pos zpaq, unreadable] at outcome
    cases outcome
  cases moves with
  | failed ran error =>
    refine iff_of_false (fresh.recorded_ne i (by decide)) fun holds => ?_
    obtain free | blocked := inv
    · obtain ⟨⟨value, ok⟩, -⟩ := succeeds holds free ran
      cases error.symm.trans ok
    · exact blocked.2 holds
  | decompress ran ok =>
    constructor
    · intro bears
      obtain free | blocked := inv
      · exact free.2.mpr (restores_of_bears (Or.inl free.1) ran ok bears).2
      · have absent := (restores_of_bears (Or.inr blocked.1) ran ok bears).1
        cases absent.symm.trans blocked.1
    · intro holds
      obtain free | blocked := inv
      · exact (succeeds holds free ran).2
      · exact absurd holds blocked.2
  | hash ok =>
    have line := Except.ok.inj (ok.symm.trans (hashOutput_eq nodes _))
    rw [Backup.Verdict, line]
    exact (fresh.hashValueOf_resultIn (around.leads i)).trans inv
  | delete => exact inv

theorem Backup.Verdict.of_kept (inv : b.Verdict i verdict nodes job)
    (kept : nodes' i.outputNode = nodes i.outputNode) : b.Verdict i verdict nodes' job := by
  cases job with
  | queued =>
    rw [Backup.Verdict, kept]
    exact inv
  | decompressed =>
    rw [Backup.Verdict, Backup.Bears, kept]
    exact inv
  | hashed uncompressedHash => exact inv
  | returned result => exact inv

theorem Backup.Verdict.of_made (inv : b.Verdict i verdict nodes job)
    (folder : nodes' i.outputNode = some .folder) (unspared : ¬ verdict) : b.Verdict i verdict nodes' job := by
  cases job with
  | queued => exact Or.inr ⟨folder, unspared⟩
  | decompressed => exact iff_of_false (not_bears (Or.inr folder)) unspared
  | hashed uncompressedHash => exact inv
  | returned result => exact inv

theorem Backup.Verdict.others (fresh : b.Fresh start) (around : b.Around start nodes)
    (spared : verdict → b.Spared start i) {k : b.verify.Index} (different : i ≠ k) {other : JobState}
    (inv : b.Verdict i verdict nodes other) (moves : b.verify.step k (nodes, job) (nodes', job')) :
    b.Verdict i verdict nodes' other := by
  have ran_keeps : ∀ {child nodes'},
      b.verify.decompressor (decompressCommand b.conf k.filename) nodes child nodes' →
      b.Verdict i verdict nodes' other := by
    intro child nodes' ran
    obtain kept | ⟨-, folder, zpaq, readable, made⟩ := around.ran_elsewhere fresh different ran
    · exact inv.of_kept kept
    · exact inv.of_made folder fun holds => made (spared holds k zpaq readable)
  cases moves with
  | failed ran error => exact ran_keeps ran
  | decompress ran ok => exact ran_keeps ran
  | hash ok => exact inv
  | delete =>
    cases deleteFile_eq b.cwd k.outputFile nodes with
    | inl kept => exact inv.of_kept (congrFun kept _)
    | inr erased =>
      exact inv.of_kept ((congrFun erased _).trans
        (Function.update_of_ne (fresh.apart.outputs k i different) _ _))

theorem Backup.Verdict.undisturbed (fresh : b.Fresh start) (spared : verdict → b.Spared start i) :
    Undisturbed b.verify.step fun k nodes job =>
      b.Around start nodes ∧ (k = i → b.Verdict i verdict nodes job) where
  own k nodes job nodes' job' inv moves := by
    refine ⟨inv.1.step fresh moves, ?_⟩
    rintro rfl
    exact (inv.2 rfl).own fresh inv.1 spared moves
  others k j nodes job nodes' job' other different inv otherInv moves := by
    refine ⟨inv.1.step fresh moves, ?_⟩
    rintro rfl
    exact (otherInv.2 rfl).others fresh inv.1 spared different moves

/-- Once the verdict on an entry stands, every run prints the line that belongs to it. -/
theorem Backup.Verdict.mismatch_iff (fresh : b.Fresh start) (spared : verdict → b.Spared start i)
    {s s' : JobStates b.verify.Index Nodes JobState} (around : b.Around start s.shared)
    (inv : b.Verdict i verdict s.shared (s.job i)) (run : Interleaved b.verify.step s s')
    (done : b.verify.Done s') : (∃ line, (i, line) ∈ b.verify.mismatches s') ↔ ¬ verdict := by
  have stands := (Backup.Verdict.undisturbed fresh spared).reachable
    (fun k => ⟨around, fun same => by rwa [same]⟩) run i
  obtain ⟨result, returned⟩ := done i
  have value : hashValueOf result = i.entry.mHashValue ↔ verdict := by
    have final := stands.2 rfl
    rwa [returned] at final
  have printed : b.verify.mismatch s' i = compareHashes i.entry result := by rw [Verify.mismatch, returned]
  simp only [mem_mismatches, printed]
  rw [← Option.isSome_iff_exists, compareHashes_isSome, ne_comm]
  exact not_congr value

/-! ## A folder in the way -/

theorem exists_extracts_makepath {cwd : FolderPath} {output : Bytes} {extraction : Extraction}
    (readable : extraction ≠ .unreadable) (notExists : ¬ OutputExists cwd output start) :
    ∃ child nodes', Extracts cwd output extraction start child nodes' ∧
      ∀ path, path ≠ folderOf cwd output → nodes' path = makepath cwd output start path := by
  by_cases empty : extraction = .nothing
  · exact ⟨.exited 0 [], _, .nothing empty notExists (Or.inr rfl), fun _ _ => rfl⟩
  · have files : extraction = .failed ∨ ∃ content, extraction = .content content := by
      cases extraction with
      | unreadable => exact absurd rfl readable
      | nothing => exact absurd rfl empty
      | failed => exact Or.inl rfl
      | content bytes => exact Or.inr ⟨bytes, rfl⟩
    by_cases writable : Writable cwd output (makepath cwd output start)
    · obtain broken | ⟨content, restorable⟩ := files
      · exact ⟨.exited 1 [], _, .broken broken notExists writable (by decide) none,
          fun _ elsewhere => Function.update_of_ne elsewhere _ _⟩
      · exact ⟨.exited 0 [], _, .extracted restorable notExists writable,
          fun _ elsewhere => Function.update_of_ne elsewhere _ _⟩
    · exact ⟨.exited 1 [], _, .unopened files notExists writable (by decide), fun _ _ => rfl⟩

theorem exists_step_of_ran (queued : job = .queued)
    (ran : b.verify.decompressor (decompressCommand b.conf i.filename) nodes child nodes') :
    ∃ job', b.verify.step i (nodes, job) (nodes', job') := by
  subst queued
  cases exit : runSubprocess child with
  | ok value => exact ⟨_, .decompress ran exit⟩
  | error message => exact ⟨_, .failed ran exit⟩

/-- The job that makes the folder goes first, and the archive that restores is condemned. -/
theorem Backup.Fresh.exists_condemned (fresh : b.Fresh start) {i j : b.verify.Index} (restores : b.Restores i)
    (zpaq : codecOf j.filename = .zpaq) (readable : b.extraction j ≠ .unreadable)
    (made : makepath b.cwd j.outputFile start i.outputNode ≠ none) :
    ∃ s, b.verify.Ends start s ∧ ∃ line, (i, line) ∈ b.verify.mismatches s := by
  have folder : makepath b.cwd j.outputFile start i.outputNode = some .folder := by
    cases makeFolders_apply (makepathFolders b.cwd j.outputFile) start i.outputNode with
    | inl kept => exact absurd (kept.trans (fresh.absent i)) made
    | inr made => exact made.2.2
  have first : ∃ s, JobsStep b.verify.step (b.verify.start start) s ∧ b.Verdict i False s.shared (s.job i) := by
    by_cases own : i = j
    · -- the folder is in the way of the output it is made for
      subst own
      obtain ⟨content, outcome, -⟩ := restores
      have unopened : ¬ Writable b.cwd i.outputFile (makepath b.cwd i.outputFile start) :=
        fun writable => writable.2 folder
      have ran : b.verify.decompressor (decompressCommand b.conf i.filename) start (.exited 1 [])
          (makepath b.cwd i.outputFile start) :=
        ⟨_, _, .zpaq, zpaq ▸ decompresses_decompressCommand b.conf i.filename,
          .unopened (Or.inr ⟨content, Backup.extraction_eq zpaq outcome⟩)
            (not_outputExists (fresh.absent i)) unopened (by decide)⟩
      obtain ⟨message, error⟩ := runSubprocess_exited_of_ne (by decide : (1 : Int) ≠ 0) []
      refine ⟨_, .job i (.failed ran error), ?_⟩
      have returned : Function.update (fun _ : b.verify.Index => JobState.queued) i
          (.returned (text "ERROR")) i = .returned (text "ERROR") := Function.update_self _ _ _
      change b.Verdict i False _ (Function.update (fun _ : b.verify.Index => JobState.queued) i
          (.returned (text "ERROR")) i)
      rw [returned]
      exact iff_of_false (fresh.recorded_ne i (by decide)) id
    · obtain ⟨child, nodes', extracts, grown⟩ :=
        exists_extracts_makepath readable (not_outputExists (fresh.absent j))
      have ran : b.verify.decompressor (decompressCommand b.conf j.filename) start child nodes' :=
        ⟨_, _, .zpaq, zpaq ▸ decompresses_decompressCommand b.conf j.filename, extracts⟩
      obtain ⟨job', moves⟩ := exists_step_of_ran rfl ran
      refine ⟨_, .job j moves, ?_⟩
      have queued : Function.update (fun _ : b.verify.Index => JobState.queued) j job' i = .queued :=
        Function.update_of_ne own _ _
      change b.Verdict i False nodes' (Function.update (fun _ : b.verify.Index => JobState.queued) j job' i)
      rw [queued]
      have blocked : nodes' i.outputNode = some .folder :=
        (grown _ (fresh.apart.outputs j i own)).trans folder
      exact Or.inr ⟨blocked, id⟩
  obtain ⟨s₁, moved, inv⟩ := first
  obtain ⟨s, run, finished⟩ := exists_finished (exists_step b.starts) s₁
  have done : b.verify.Done s := done_of_rank finished
  have around : b.Around start s₁.shared := by
    cases moved with
    | job k moves => exact fresh.around.step fresh moves
  refine ⟨s, ⟨.head moved run, done⟩, ?_⟩
  exact (inv.mismatch_iff fresh False.elim around run done).mpr id

/-! ## The condition -/

/-- Without a backslash `zpaq` makes only folders on the way to its output. -/
theorem Backup.Fresh.clear_of_plain (fresh : b.Fresh start) (plain : ∀ i : b.verify.Index, 92 ∉ i.outputFile) :
    b.Clear start := by
  intro i j _ _ _
  have folders : makepathFolders b.cwd j.outputFile = wayTo b.cwd j.outputFile :=
    congrArg (wayTo b.cwd) (replaceAll_of_not_mem (plain j) 47)
  cases makeFolders_apply (makepathFolders b.cwd j.outputFile) start i.outputNode with
  | inl kept => exact kept.trans (fresh.absent i)
  | inr made => exact absurd (folders ▸ made.1) (fresh.apart.passed i j)

/-- In a fresh place a verify is exact exactly when no folder is made where an archive restores to. -/
theorem exact_iff_clear (b : Backup) (nodes : Nodes) (fresh : b.Fresh nodes) :
    b.Exact nodes ↔ b.Clear nodes := by
  constructor
  · intro exact i j restores zpaq readable
    by_contra made
    obtain ⟨s, ends, printed⟩ := fresh.exists_condemned restores zpaq readable made
    exact (exact s ends i).mp printed restores
  · intro clear s ends i
    have inv : b.Verdict i (b.Restores i) nodes .queued := Or.inl ⟨fresh.absent i, Iff.rfl⟩
    exact inv.mismatch_iff fresh (fun restores j => clear i j restores) fresh.around ends.1 ends.2

end

/-! ### Two entries -/

/-- The archive of `a.txt` is there and that of `b.jpg` is not. -/
def oneArchive : Bytes → Option Bytes := oneFile (text "in/a.txt.zpaq") [1, 2]

/-- Only the folder of the outputs. -/
def emptyPlace : Nodes := fun path =>
  if path ∈ [[], [text "tmp"], [text "in", text "tmp"]] then some .folder else none

/-- A backup of two files, with tools that restore every archive to its own bytes. -/
def pairBackup (first second : Bytes) (archives : Bytes → Option Bytes) : Backup where
  conf := exampleConf
  inputArgument := text "in"
  cwd := []
  entries := [⟨text "MeowHash", printHash ⟨0, 0, 0, 0⟩, first⟩,
    ⟨text "MeowHash", printHash ⟨0, 0, 0, 0⟩, second⟩]
  meowHash _ := ⟨0, 0, 0, 0⟩
  tools := ⟨some, some, .content⟩
  archives := archives

variable {first second : Bytes} {archives : Bytes → Option Bytes}

def firstEntry : (pairBackup first second archives).verify.Index := ⟨0, Nat.two_pos⟩

def secondEntry : (pairBackup first second archives).verify.Index := ⟨1, Nat.one_lt_two⟩

theorem forall_entry {P : (pairBackup first second archives).verify.Index → Prop} (one : P firstEntry)
    (two : P secondEntry) (i : (pairBackup first second archives).verify.Index) : P i := by
  have all : ∀ k : Fin 2, k = 0 ∨ k = 1 := by decide
  obtain rfl | rfl := all i
  · exact one
  · exact two

theorem pairBackup_fresh (name : IsName 47 46 first) (name' : IsName 47 46 second) (ne : first ≠ second)
    (parents : Leads [] emptyPlace (text "/tmp/in/" ++ first))
    (parents' : Leads [] emptyPlace (text "/tmp/in/" ++ second))
    (absent : emptyPlace (folderOf [] (text "/tmp/in/" ++ first)) = none)
    (absent' : emptyPlace (folderOf [] (text "/tmp/in/" ++ second)) = none) :
    (pairBackup first second archives).Fresh emptyPlace where
  proper e mem := by
    simp only [pairBackup, List.mem_cons, List.not_mem_nil, or_false] at mem
    obtain rfl | rfl := mem
    · exact ⟨[], first, by simp, name, rfl⟩
    · exact ⟨[], second, by simp, name', rfl⟩
  distinct := by simpa [pairBackup] using ne
  recorded e mem := by
    simp only [pairBackup, List.mem_cons, List.not_mem_nil, or_false] at mem
    obtain rfl | rfl := mem
    · exact ⟨_, rfl⟩
    · exact ⟨_, rfl⟩
  parents := forall_entry parents parents'
  absent := forall_entry absent absent'

/-- A mismatch is printed for the missing archive and none for the other. -/
theorem exact_iff_clear_pair : ∃ s, (pairBackup (text "a.txt") (text "b.jpg") oneArchive).verify.Ends emptyPlace s ∧
    (¬ ∃ line, (firstEntry, line) ∈ (pairBackup (text "a.txt") (text "b.jpg") oneArchive).verify.mismatches s) ∧
    ∃ line, (secondEntry, line) ∈ (pairBackup (text "a.txt") (text "b.jpg") oneArchive).verify.mismatches s := by
  obtain ⟨s, ends⟩ := exists_ends (pairBackup (text "a.txt") (text "b.jpg") oneArchive).starts emptyPlace
  have fresh : (pairBackup (text "a.txt") (text "b.jpg") oneArchive).Fresh emptyPlace :=
    pairBackup_fresh ⟨by decide, by decide, by decide, by decide⟩ ⟨by decide, by decide, by decide, by decide⟩
      (by decide) (by decide) (by decide) (by decide) (by decide)
  have missing : (pairBackup (text "a.txt") (text "b.jpg") oneArchive).outcome secondEntry = .failed := by decide
  have broken : ¬ (pairBackup (text "a.txt") (text "b.jpg") oneArchive).Restores secondEntry := by
    rintro ⟨content, outcome, -⟩
    cases missing.symm.trans outcome
  have plain : 92 ∉ text "/tmp/in/a.txt" ∧ 92 ∉ text "/tmp/in/b.jpg" := by decide
  have clear := fresh.clear_of_plain (forall_entry plain.1 plain.2)
  have exact' := (exact_iff_clear _ emptyPlace fresh).mpr clear s ends
  refine ⟨s, ends, ?_, (exact' secondEntry).mpr broken⟩
  rw [exact' firstEntry]
  exact fun none => none ⟨[1, 2], by decide, by decide⟩

/-! ### A backslash -/

/-- Every archive is there. -/
def bothArchives : Backup := pairBackup (text "x.jpg\\b") (text "x.jpg") fun _ => some [1]

/-- For the output `x.jpg\\b` a folder `x.jpg` is made, and the picture cannot be written. -/
theorem not_exact : bothArchives.Fresh emptyPlace ∧ ¬ bothArchives.Exact emptyPlace := by
  have fresh : bothArchives.Fresh emptyPlace :=
    pairBackup_fresh ⟨by decide, by decide, by decide, by decide⟩ ⟨by decide, by decide, by decide, by decide⟩
      (by decide) (by decide) (by decide) (by decide) (by decide)
  refine ⟨fresh, fun exact => ?_⟩
  have restores : bothArchives.Restores secondEntry := ⟨[1], by decide, by decide⟩
  have zpaq : codecOf (text "in/x.jpg\\b") = .zpaq := by decide
  have made : makepath [] (text "/tmp/in/x.jpg\\b") emptyPlace (folderOf [] (text "/tmp/in/x.jpg")) ≠ none := by
    decide
  obtain ⟨s, ends, printed⟩ := fresh.exists_condemned (i := secondEntry) (j := firstEntry) restores zpaq
    (by decide) made
  exact (exact s ends secondEntry).mp printed restores

end BackupSuite.CtrlCenter
