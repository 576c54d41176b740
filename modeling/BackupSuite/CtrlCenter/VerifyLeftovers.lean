import BackupSuite.CtrlCenter.VerifyExact

/-! # A verify beside leftovers

`decompressFile` prepares nothing for its decompressors and removes nothing on its error
path.  So the folder that an earlier verify has left decides what the next one reports,
unless every output's place is in order (`independent_of_inOrder`).
-/

namespace BackupSuite.CtrlCenter

open BackupSuite.Library

/-- Every two runs, one from each of the two places, print the same mismatches. -/
def Backup.Independent (b : Backup) (nodes₁ nodes₂ : Nodes) : Prop :=
  ∀ s₁ s₂, b.verify.Ends nodes₁ s₁ → b.verify.Ends nodes₂ s₂ →
    b.verify.mismatches s₁ = b.verify.mismatches s₂

/-! ## Places that are in order -/

section

variable {b : Backup}

/-- The folders in front of an output are there or `makepath` can make them. -/
def Makeable (cwd : FolderPath) (output : Bytes) (nodes : Nodes) : Prop :=
  (∀ folder ∈ makepathFolders cwd output, nodes folder = none ∨ nodes folder = some .folder) ∧
    ∀ folder ∈ wayTo cwd output, folder ∈ makepathFolders cwd output ∨ nodes folder = some .folder

/-- The place of an entry's output does not come into its result: the archive fails
anywhere, or its decompressor can write there and finds nothing that it would keep. -/
def Backup.InOrder (b : Backup) (i : b.verify.Index) (nodes : Nodes) : Prop :=
  if codecOf i.filename = .zpaq then
    b.extraction i = .unreadable ∨
      nodes i.outputNode = none ∧
        ((∃ content, b.extraction i = .content content) → Makeable b.cwd i.outputFile nodes)
  else b.restored i = none ∨ Writable b.cwd i.outputFile nodes

/-- The output of no entry is the output of another one, on the way to an output, or where
`makepath` makes a folder. -/
structure Backup.Separate (b : Backup) : Prop where
  apart : b.verify.Apart
  made : ∀ i j : b.verify.Index, codecOf j.filename = .zpaq →
    i.outputNode ∉ makepathFolders b.cwd j.outputFile

theorem leads_makepath {cwd : FolderPath} {output : Bytes} {nodes : Nodes}
    (makeable : Makeable cwd output nodes) : Leads cwd (makepath cwd output nodes) output := by
  intro folder mem
  cases makeable.2 folder mem with
  | inl made => exact makeFolders_of_mem makeable.1 made
  | inr isFolder => exact makeFolders_folder isFolder

/-! ## What a run leaves elsewhere -/

/-- New folders, none of them where an output is. -/
structure Grown (v : Verify) (nodes grown : Nodes) : Prop where
  folders : ∀ path, grown path = nodes path ∨ nodes path = none ∧ grown path = some .folder
  outputs : ∀ i : v.Index, grown i.outputNode = nodes i.outputNode

theorem Grown.refl (v : Verify) (nodes : Nodes) : Grown v nodes nodes :=
  ⟨fun _ => Or.inl rfl, fun _ => rfl⟩

theorem Backup.Separate.grown_makepath (separate : b.Separate) {i : b.verify.Index}
    (zpaq : codecOf i.filename = .zpaq) (nodes : Nodes) :
    Grown b.verify nodes (makepath b.cwd i.outputFile nodes) where
  folders path := (makeFolders_apply _ nodes path).imp_right And.right
  outputs j := by
    cases makeFolders_apply (makepathFolders b.cwd i.outputFile) nodes j.outputNode with
    | inl kept => exact kept
    | inr made => exact absurd made.1 (separate.made j i zpaq)

theorem Grown.folder {v : Verify} {nodes grown : Nodes} (h : Grown v nodes grown) {path : FolderPath}
    (isFolder : nodes path = some .folder) : grown path = some .folder := by
  cases h.folders path with
  | inl kept => rw [kept, isFolder]
  | inr made => exact made.2

theorem Grown.leads {v : Verify} {nodes grown : Nodes} (h : Grown v nodes grown) {path : Bytes}
    (leads : Leads v.cwd nodes path) : Leads v.cwd grown path :=
  fun folder mem => h.folder (leads folder mem)

theorem Grown.left {v : Verify} {nodes grown : Nodes} (h : Grown v nodes grown) {j : v.Index}
    {outcome : Outcome} (left : j.Left nodes outcome) : j.Left grown outcome := by
  cases outcome with
  | failed => exact left
  | nothing => exact (h.outputs j).trans left
  | content bytes => exact ⟨h.leads left.1, (h.outputs j).trans left.2⟩

theorem Grown.inOrder {nodes grown : Nodes} (h : Grown b.verify nodes grown) {j : b.verify.Index}
    (inOrder : b.InOrder j nodes) : b.InOrder j grown := by
  rw [Backup.InOrder] at inOrder ⊢
  split
  case isTrue zpaq =>
    rw [if_pos zpaq] at inOrder
    refine inOrder.imp_right fun free => ⟨(h.outputs j).trans free.1, fun extracts => ?_⟩
    obtain ⟨made, passed⟩ := free.2 extracts
    constructor
    · intro folder mem
      cases h.folders folder with
      | inl kept => rw [kept]; exact made folder mem
      | inr new => exact Or.inr new.2
    · intro folder mem
      exact (passed folder mem).imp_right h.folder
  case isFalse other =>
    rw [if_neg other] at inOrder
    refine inOrder.imp_right fun writable => ⟨h.leads writable.1, ?_⟩
    have same : grown (folderOf b.cwd j.outputFile) = nodes (folderOf b.cwd j.outputFile) := h.outputs j
    rw [same]
    exact writable.2

theorem Backup.Separate.inOrder_update (separate : b.Separate) {i j : b.verify.Index} (different : j ≠ i)
    {nodes : Nodes} (inOrder : b.InOrder j nodes) (found : Option Node) :
    b.InOrder j (Function.update nodes i.outputNode found) := by
  have elsewhere := separate.apart.outputs i j different
  have off := separate.apart.passed i j
  rw [Backup.InOrder] at inOrder ⊢
  split
  case isTrue zpaq =>
    rw [if_pos zpaq] at inOrder
    have offMade := separate.made i j zpaq
    refine inOrder.imp_right fun free => ?_
    rw [Function.update_of_ne elsewhere]
    refine ⟨free.1, fun extracts => ?_⟩
    obtain ⟨made, passed⟩ := free.2 extracts
    constructor
    · intro folder mem
      rw [Function.update_of_ne (ne_of_mem_of_not_mem mem offMade)]
      exact made folder mem
    · intro folder mem
      rw [Function.update_of_ne (ne_of_mem_of_not_mem mem off)]
      exact passed folder mem
  case isFalse other =>
    rw [if_neg other] at inOrder
    refine inOrder.imp_right fun writable => ⟨writable.1.update off found, ?_⟩
    have same : Function.update nodes i.outputNode found (folderOf b.cwd j.outputFile) =
        nodes (folderOf b.cwd j.outputFile) := Function.update_of_ne elsewhere _ _
    rw [same]
    exact writable.2

/-! ## What a run comes to -/

variable {i : b.verify.Index} {nodes nodes' : Nodes} {child : Child}

/-- A run changes its output and makes folders, nothing else. -/
theorem Backup.Separate.ran (separate : b.Separate)
    (ran : b.verify.decompressor (decompressCommand b.conf i.filename) nodes child nodes') :
    ∃ grown found, Grown b.verify nodes grown ∧
      nodes' = Function.update grown i.outputNode found := by
  obtain ⟨grown, found, left, made⟩ := Backup.ran ran
  refine ⟨grown, found, ?_, left⟩
  obtain rfl | ⟨zpaq, -, rfl⟩ := made
  · exact .refl _ _
  · exact separate.grown_makepath zpaq nodes

/-- From a place in order the entry's outcome does not depend on the place. -/
theorem Backup.Separate.decompresses (separate : b.Separate) (inOrder : b.InOrder i nodes)
    (ran : b.verify.decompressor (decompressCommand b.conf i.filename) nodes child nodes') :
    b.outcome i = .failed ∧ (∃ message, runSubprocess child = .error message) ∨
      (∃ value, runSubprocess child = .ok value) ∧ i.Left nodes' (b.outcome i) := by
  have off := separate.apart.passed i i
  rw [Backup.InOrder] at inOrder
  by_cases zpaq : codecOf i.filename = .zpaq
  · have made := separate.grown_makepath zpaq nodes
    have outcome : b.outcome i = (b.extraction i).outcome := if_pos zpaq
    rw [if_pos zpaq] at inOrder
    rw [outcome]
    cases Backup.runs_zpaq zpaq ran with
    | unreadable unreadable failed =>
      exact Or.inl ⟨by rw [unreadable]; rfl, runSubprocess_exited_of_ne failed _⟩
    | skipped readable already =>
      exact absurd already (not_outputExists (inOrder.resolve_left readable).1)
    | nothing empty absent made' =>
      have free := inOrder.resolve_left (by rw [empty]; exact Extraction.noConfusion)
      refine Or.inr ⟨⟨_, runSubprocess_exited_zero _⟩, ?_⟩
      rw [empty]
      cases made' with
      | inl kept => exact kept ▸ free.1
      | inr folders => exact folders ▸ (made.outputs i).trans free.1
    | extracted restorable absent writable =>
      refine Or.inr ⟨⟨_, runSubprocess_exited_zero _⟩, ?_⟩
      rw [restorable]
      exact ⟨Leads.update (v := b.verify) writable.1 off _, Function.update_self _ _ _⟩
    | broken broken absent writable failed left =>
      exact Or.inl ⟨by rw [broken]; rfl, runSubprocess_exited_of_ne failed _⟩
    | unopened files absent unopened failed =>
      cases files with
      | inl broken => exact Or.inl ⟨by rw [broken]; rfl, runSubprocess_exited_of_ne failed _⟩
      | inr restorable =>
        -- in a place that can be made the output opens
        have readable : b.extraction i ≠ .unreadable := by
          obtain ⟨content, extracts⟩ := restorable
          rw [extracts]
          exact Extraction.noConfusion
        have free := inOrder.resolve_left readable
        have leads := leads_makepath (free.2 restorable)
        have empty : makepath b.cwd i.outputFile nodes (folderOf b.cwd i.outputFile) = none :=
          (made.outputs i).trans free.1
        exact absurd ⟨leads, by simp [empty]⟩ unopened
  · have outcome : b.outcome i = outcomeOf (b.restored i) := if_neg zpaq
    rw [if_neg zpaq] at inOrder
    rw [outcome]
    cases Backup.runs_other zpaq ran with
    | writes restorable writable =>
      refine Or.inr ⟨⟨_, runSubprocess_exited_zero _⟩, ?_⟩
      rw [restorable]
      exact ⟨Leads.update (v := b.verify) writable.1 off _, Function.update_self _ _ _⟩
    | unrestored broken writable failed left =>
      exact Or.inl ⟨by rw [broken]; rfl, runSubprocess_exited_of_ne failed _⟩
    | unopened unopened failed =>
      have broken : b.restored i = none :=
        inOrder.elim id fun writable => unopened.resolve_right fun no => no writable
      exact Or.inl ⟨by rw [broken]; rfl, runSubprocess_exited_of_ne failed _⟩

theorem Backup.Separate.secure (separate : b.Separate) : b.verify.Secure b.outcome b.InOrder where
  apart := separate.apart
  decompresses _ _ _ _ inOrder ran := separate.decompresses inOrder ran
  readyAfter i j _ _ _ different _ inOrder ran := by
    obtain ⟨grown, found, grew, rfl⟩ := separate.ran ran
    exact separate.inOrder_update different (grew.inOrder inOrder) found
  leftAfter i j _ _ _ different _ outcome left ran := by
    obtain ⟨grown, found, grew, rfl⟩ := separate.ran ran
    exact separate.apart.left_update different (grew.left left) found
  erased _ _ _ different inOrder := separate.inOrder_update different inOrder none

/-- Where every output's place is in order two verifies print the same. -/
theorem independent_of_inOrder (b : Backup) (nodes₁ nodes₂ : Nodes) (separate : b.Separate)
    (inOrder₁ : ∀ i, b.InOrder i nodes₁) (inOrder₂ : ∀ i, b.InOrder i nodes₂) :
    b.Independent nodes₁ nodes₂ := by
  intro s₁ s₂ ends₁ ends₂
  have same : b.verify.mismatch s₁ = b.verify.mismatch s₂ := by
    funext i
    have returned₁ := separate.secure.returned inOrder₁ ends₁ i
    have returned₂ := separate.secure.returned inOrder₂ ends₂ i
    rw [Verify.mismatch, Verify.mismatch, returned₁, returned₂]
  rw [Verify.mismatches, Verify.mismatches, same]

end

/-! ### One text file -/

/-- A backup of one text file with the archive there, for what `zpaq` makes of that. -/
def textBackup (extraction : Extraction) : Backup where
  conf := exampleConf
  inputArgument := text "in"
  cwd := []
  entries := [⟨text "MeowHash", printHash ⟨0, 0, 0, 0⟩, text "a.txt"⟩]
  meowHash _ := ⟨0, 0, 0, 0⟩
  tools := ⟨fun _ => none, fun _ => none, fun _ => extraction⟩
  archives := oneArchive

def onlyEntry (extraction : Extraction) : (textBackup extraction).verify.Index := ⟨0, Nat.one_pos⟩

theorem eq_onlyEntry {extraction : Extraction} (i : (textBackup extraction).verify.Index) :
    i = onlyEntry extraction :=
  @Subsingleton.elim (Fin 1) _ i (onlyEntry extraction)

theorem textBackup_separate (extraction : Extraction) : (textBackup extraction).Separate where
  apart := {
    outputs := fun i j different => absurd ((eq_onlyEntry j).trans (eq_onlyEntry i).symm) different
    passed := by
      intro i j
      have off : folderOf [] (text "/tmp/in/a.txt") ∉ wayTo [] (text "/tmp/in/a.txt") := by decide
      rw [eq_onlyEntry i, eq_onlyEntry j]
      exact off }
  made := by
    intro i j _
    have off : folderOf [] (text "/tmp/in/a.txt") ∉ makepathFolders [] (text "/tmp/in/a.txt") := by decide
    rw [eq_onlyEntry i, eq_onlyEntry j]
    exact off

theorem textBackup_inOrder {extraction : Extraction} {nodes : Nodes}
    (absent : nodes [text "a.txt", text "in", text "tmp"] = none)
    (makeable : Makeable [] (onlyEntry extraction).outputFile nodes) (i : (textBackup extraction).verify.Index) :
    (textBackup extraction).InOrder i nodes := by
  have zpaq : codecOf (onlyEntry extraction).filename = .zpaq := by
    have kind : codecOf (text "in/a.txt") = .zpaq := by decide
    exact kind
  rw [eq_onlyEntry i, Backup.InOrder, if_pos zpaq]
  exact Or.inr ⟨absent, fun _ => makeable⟩

/-- The folder for the outputs is not there yet. -/
def barePlace : Nodes := fun path => if path = [] ∨ path = [text "tmp"] then some .folder else none

/-- It does not matter whether the folder is there. -/
theorem independent_of_inOrder_text :
    (textBackup (.content [1])).Independent emptyPlace barePlace := by
  have inEmpty := @textBackup_inOrder (.content [1]) emptyPlace (by decide) ⟨by decide, by decide⟩
  have inBare := @textBackup_inOrder (.content [1]) barePlace (by decide) ⟨by decide, by decide⟩
  exact independent_of_inOrder (textBackup (.content [1])) emptyPlace barePlace (textBackup_separate _) inEmpty inBare

/-- The output is there already, with the recorded hash. -/
def leftover : Nodes :=
  Function.update emptyPlace [text "a.txt", text "in", text "tmp"] (some (.file [1]))

theorem broken_in_emptyPlace {s : JobStates (textBackup .failed).verify.Index Nodes JobState}
    (ends : (textBackup .failed).verify.Ends emptyPlace s) :
    ((textBackup .failed).verify.mismatch s (onlyEntry .failed)).isSome := by
  have inOrder := @textBackup_inOrder .failed emptyPlace (by decide) ⟨by decide, by decide⟩
  have returned := (textBackup_separate .failed).secure.returned inOrder ends (onlyEntry .failed)
  have printed : (textBackup .failed).verify.mismatch s (onlyEntry .failed) =
      compareHashes (onlyEntry .failed).entry (text "ERROR") := by
    rw [Verify.mismatch, returned]
    rfl
  rw [printed]
  decide

/-- Beside the leftover it is not: the job keeps the file and hashes it. -/
theorem broken_beside_leftover : ∃ s, (textBackup .failed).verify.Ends leftover s ∧
    (textBackup .failed).verify.mismatch s (onlyEntry .failed) = none := by
  have ran : (textBackup .failed).verify.decompressor
      (decompressCommand (textBackup .failed).verify.conf (onlyEntry .failed).filename) leftover
      (.exited 0 []) leftover :=
    ⟨_, _, .zpaq, .zpaq, .skipped (by decide) ⟨by decide, by decide, by decide⟩⟩
  have returns := job_returns (s := (textBackup .failed).verify.start leftover) rfl ran
    (runSubprocess_exited_zero [])
  have present : readEntireFile [] leftover (onlyEntry .failed).outputFile = .contents [1] := by decide
  have line : (onlyEntry .failed).resultIn leftover =
      hashLine (textBackup .failed).meowHash (onlyEntry .failed).outputFile [1] := by
    rw [Verify.Index.resultIn]
    exact congrArg (fun found => cStr (fgets 127 (hashOneFile _ _ found))) present
  have value : (onlyEntry .failed).entry.mHashValue = hashValueOf ((onlyEntry .failed).resultIn leftover) := by
    rw [line, hashValueOf_hashLine]
    rfl
  refine ⟨_, ⟨returns, fun i => ⟨(onlyEntry .failed).resultIn leftover, ?_⟩⟩, ?_⟩
  · simp only [eq_onlyEntry i, Function.update_self]
  · simp only [Verify.mismatch, Function.update_self, compareHashes, value, ne_eq, not_true,
      if_false]

/-- The leftover hides the broken archive. -/
theorem not_independent : ¬ (textBackup .failed).Independent emptyPlace leftover := by
  intro independent
  obtain ⟨s₁, ends₁⟩ := exists_ends (textBackup .failed).starts emptyPlace
  obtain ⟨s₂, ends₂, silent⟩ := broken_beside_leftover
  obtain ⟨line, printed⟩ := Option.isSome_iff_exists.mp (broken_in_emptyPlace ends₁)
  have first := mem_mismatches.mpr printed
  rw [independent s₁ s₂ ends₁ ends₂, mem_mismatches, silent] at first
  cases first

end BackupSuite.CtrlCenter
