import BackupSuite.CtrlCenter.VerifyArchive

/-! # What a verify reports

`Undisturbed` for the jobs of `verifyArchive`: when the outputs of the entries do not
meet and every output's place is in order, a job's result is that of its own archive
whatever the others have done in between (`Secure.returned`).
-/

namespace BackupSuite.CtrlCenter

open BackupSuite.Library

/-! ## Results -/

/-- What decompressing an archive comes to when nothing is in the way. -/
inductive Outcome where
  | failed
  /-- the decompressor exits with 0 and has written nothing -/
  | nothing
  | content (bytes : Bytes)
deriving DecidableEq, Repr

section

variable {v : Verify}

/-- Where the output of an entry lies. -/
def Verify.Index.outputNode (i : v.Index) : FolderPath := folderOf v.cwd i.outputFile

/-- The result of the entry's job. -/
def Verify.Index.resultOf (i : v.Index) : Outcome → Bytes
  | .failed => text "ERROR"
  | .nothing => cStr (fgets 127 (hashOneFile v.meowHash i.outputFile .unableToLoad))
  | .content bytes => hashLine v.meowHash i.outputFile bytes

/-- What a decompressor that exits with 0 has left at the output. -/
def Verify.Index.Left (i : v.Index) (nodes : Nodes) : Outcome → Prop
  | .failed => False
  | .nothing => nodes i.outputNode = none
  | .content bytes => Leads v.cwd nodes i.outputFile ∧ nodes i.outputNode = some (.file bytes)

end

/-- The output of no entry is the output of another one or on the way to an output. -/
structure Verify.Apart (v : Verify) : Prop where
  outputs : ∀ i j : v.Index, j ≠ i → j.outputNode ≠ i.outputNode
  passed : ∀ i j : v.Index, i.outputNode ∉ wayTo v.cwd j.outputFile

/-- From a place that is `ready` the decompressor comes to the outcome of the entry,
and it leaves the places of the other entries as they were. -/
structure Verify.Secure (v : Verify) (outcome : v.Index → Outcome) (ready : v.Index → Nodes → Prop) :
    Prop where
  apart : v.Apart
  decompresses : ∀ i nodes child nodes', ready i nodes →
    v.decompressor (decompressCommand v.conf i.filename) nodes child nodes' →
      outcome i = .failed ∧ (∃ message, runSubprocess child = .error message) ∨
      (∃ value, runSubprocess child = .ok value) ∧ i.Left nodes' (outcome i)
  readyAfter : ∀ i j nodes child nodes', j ≠ i → ready i nodes → ready j nodes →
    v.decompressor (decompressCommand v.conf i.filename) nodes child nodes' → ready j nodes'
  leftAfter : ∀ i j nodes child nodes', j ≠ i → ready i nodes → ∀ outcome, j.Left nodes outcome →
    v.decompressor (decompressCommand v.conf i.filename) nodes child nodes' → j.Left nodes' outcome
  erased : ∀ i j nodes, j ≠ i → ready j nodes →
    ready j (Function.update nodes i.outputNode none)

/-- What holds of a job in every state of a run. -/
def Verify.JobInv (v : Verify) (outcome : v.Index → Outcome) (ready : v.Index → Nodes → Prop)
    (i : v.Index) (nodes : Nodes) : JobState → Prop
  | .queued => ready i nodes
  | .decompressed => i.Left nodes (outcome i)
  | .hashed uncompressedHash => uncompressedHash = i.resultOf (outcome i)
  | .returned result => result = i.resultOf (outcome i)

section

variable {v : Verify}

theorem Leads.update {nodes : Nodes} {path : Bytes} (leads : Leads v.cwd nodes path) {node : FolderPath}
    (off : node ∉ wayTo v.cwd path) (found : Option Node) :
    Leads v.cwd (Function.update nodes node found) path := by
  intro folder mem
  have other : folder ≠ node := by
    rintro rfl
    exact off mem
  rw [Function.update_of_ne other]
  exact leads folder mem

theorem Verify.Apart.left_update (apart : v.Apart) {i j : v.Index} (other : j ≠ i) {nodes : Nodes}
    {outcome : Outcome} (left : j.Left nodes outcome) (found : Option Node) :
    j.Left (Function.update nodes i.outputNode found) outcome := by
  have elsewhere := apart.outputs i j other
  cases outcome with
  | failed => exact left
  | nothing =>
    rw [Verify.Index.Left, Function.update_of_ne elsewhere]
    exact left
  | content bytes =>
    obtain ⟨leads, file⟩ := left
    refine ⟨leads.update (apart.passed i j) found, ?_⟩
    rw [Function.update_of_ne elsewhere]
    exact file

theorem deleteFile_eq (cwd : FolderPath) (path : Bytes) (nodes : Nodes) :
    (deleteFile cwd path nodes).2 = nodes ∨
      (deleteFile cwd path nodes).2 = Function.update nodes (folderOf cwd path) none := by
  rw [deleteFile]
  split
  · split
    · exact Or.inr rfl
    · exact Or.inl rfl
  · exact Or.inl rfl

theorem hashOutput_eq (nodes : Nodes) (path : Bytes) :
    hashOutput v nodes path =
      .ok (cStr (fgets 127 (hashOneFile v.meowHash path (readEntireFile v.cwd nodes path)))) := by
  simp [hashOutput, hashFile, runSubprocess, hashCommand]

theorem Verify.Index.hashOutput_of_left {i : v.Index} {nodes : Nodes} {outcome : Outcome}
    (left : i.Left nodes outcome) : hashOutput v nodes i.outputFile = .ok (i.resultOf outcome) := by
  rw [hashOutput_eq]
  cases outcome with
  | failed => exact left.elim
  | nothing =>
    have absent : nodes (folderOf v.cwd i.outputFile) = none := left
    have unable : readEntireFile v.cwd nodes i.outputFile = .unableToLoad := by
      simp only [readEntireFile, absent, ite_self]
    rw [unable]
    rfl
  | content bytes =>
    obtain ⟨leads, file⟩ := left
    have found : nodes (folderOf v.cwd i.outputFile) = some (.file bytes) := file
    have contents : readEntireFile v.cwd nodes i.outputFile = .contents bytes := by
      simp only [readEntireFile, if_pos leads, found]
    rw [contents]
    rfl

/-- The result for what lies at the output. -/
def Verify.Index.resultIn (i : v.Index) (nodes : Nodes) : Bytes :=
  cStr (fgets 127 (hashOneFile v.meowHash i.outputFile (readEntireFile v.cwd nodes i.outputFile)))

/-- A job that the others let run returns the hash of what its decompressor has left. -/
theorem job_returns {s : JobStates v.Index Nodes JobState} {i : v.Index} (queued : s.job i = .queued)
    {nodes' : Nodes} {child : Child} {value : Bytes}
    (ran : v.decompressor (decompressCommand v.conf i.filename) s.shared child nodes')
    (ok : runSubprocess child = .ok value) :
    Interleaved v.step s
      ⟨(deleteFile v.cwd i.outputFile nodes').2,
        Function.update s.job i (.returned (i.resultIn nodes'))⟩ := by
  have decompressed : JobsStep v.step s ⟨nodes', Function.update s.job i .decompressed⟩ :=
    .of_step queued (.decompress ran ok)
  have hashed : JobsStep v.step ⟨nodes', Function.update s.job i .decompressed⟩
      ⟨nodes', Function.update s.job i (.hashed (i.resultIn nodes'))⟩ := by
    rw [← Function.update_idem JobState.decompressed (JobState.hashed _) s.job]
    exact .of_step (Function.update_self _ _ _) (.hash (hashOutput_eq _ _))
  have deleted : JobsStep v.step ⟨nodes', Function.update s.job i (.hashed (i.resultIn nodes'))⟩
      ⟨(deleteFile v.cwd i.outputFile nodes').2,
        Function.update s.job i (.returned (i.resultIn nodes'))⟩ := by
    rw [← Function.update_idem (JobState.hashed _) (JobState.returned _) s.job]
    exact .of_step (Function.update_self _ _ _) .delete
  exact ((Relation.ReflTransGen.single decompressed).tail hashed).tail deleted

/-! ## Every interleaving -/

variable {outcome : v.Index → Outcome} {ready : v.Index → Nodes → Prop}

theorem Verify.JobInv.of_places {i : v.Index} {nodes nodes' : Nodes} {job : JobState}
    (inv : v.JobInv outcome ready i nodes job) (places : ready i nodes → ready i nodes')
    (outputs : ∀ outcome, i.Left nodes outcome → i.Left nodes' outcome) :
    v.JobInv outcome ready i nodes' job := by
  cases job with
  | queued => exact places inv
  | decompressed => exact outputs _ inv
  | hashed uncompressedHash => exact inv
  | returned result => exact inv

theorem Verify.Secure.own (secure : v.Secure outcome ready) {i : v.Index} {nodes nodes' : Nodes}
    {job job' : JobState} (inv : v.JobInv outcome ready i nodes job)
    (moves : v.step i (nodes, job) (nodes', job')) : v.JobInv outcome ready i nodes' job' := by
  cases moves with
  | failed ran error =>
    cases secure.decompresses _ _ _ _ inv ran with
    | inl failure => exact (congrArg i.resultOf failure.1).symm
    | inr success =>
      obtain ⟨value, ok⟩ := success.1
      cases error.symm.trans ok
  | decompress ran ok =>
    cases secure.decompresses _ _ _ _ inv ran with
    | inl failure =>
      obtain ⟨message, error⟩ := failure.2
      cases error.symm.trans ok
    | inr success => exact success.2
  | hash ok =>
    have hashed := Verify.Index.hashOutput_of_left inv
    exact Except.ok.inj (ok.symm.trans hashed)
  | delete => exact inv

/-- A job keeps what holds of it, and no step of another job breaks it. -/
theorem Verify.Secure.undisturbed (secure : v.Secure outcome ready) :
    Undisturbed v.step (v.JobInv outcome ready) where
  own _ _ _ _ _ inv moves := secure.own inv moves
  others i j nodes job nodes' job' other different inv otherInv moves := by
    cases moves with
    | failed ran error =>
      exact otherInv.of_places (fun place => secure.readyAfter i j _ _ _ different inv place ran)
        (fun outcome left => secure.leftAfter i j _ _ _ different inv outcome left ran)
    | decompress ran ok =>
      exact otherInv.of_places (fun place => secure.readyAfter i j _ _ _ different inv place ran)
        (fun outcome left => secure.leftAfter i j _ _ _ different inv outcome left ran)
    | hash ok => exact otherInv
    | delete =>
      cases deleteFile_eq v.cwd (v.conf.temporaryFolder ++ i.filename) nodes with
      | inl kept =>
        rw [kept]
        exact otherInv
      | inr erased =>
        rw [erased]
        exact otherInv.of_places (fun place => secure.erased i j nodes different place)
          (fun outcome left => secure.apart.left_update different left none)

/-- Every job returns the result of its own archive. -/
theorem Verify.Secure.returned (secure : v.Secure outcome ready) {nodes : Nodes}
    (places : ∀ i, ready i nodes) {s : JobStates v.Index Nodes JobState} (ends : v.Ends nodes s)
    (i : v.Index) : s.job i = .returned (i.resultOf (outcome i)) := by
  have start : ∀ j, v.JobInv outcome ready j (v.start nodes).shared ((v.start nodes).job j) := places
  have inv := secure.undisturbed.reachable start ends.1 i
  obtain ⟨result, returned⟩ := ends.2 i
  rw [returned] at inv ⊢
  exact congrArg JobState.returned inv

/-- The steps a job has still to take. -/
def JobState.rank : JobState → Nat
  | .queued => 3
  | .decompressed => 2
  | .hashed _ => 1
  | .returned _ => 0

theorem exists_step (starts : ∀ i : v.Index, ∀ nodes, ∃ child nodes',
    v.decompressor (decompressCommand v.conf i.filename) nodes child nodes')
    (i : v.Index) (nodes : Nodes) (job : JobState) (unfinished : 0 < job.rank) :
    ∃ nodes' job', v.step i (nodes, job) (nodes', job') ∧ job'.rank < job.rank := by
  cases job with
  | queued =>
    obtain ⟨child, nodes', ran⟩ := starts i nodes
    cases returned : runSubprocess child with
    | ok value => exact ⟨nodes', .decompressed, .decompress ran returned, Nat.lt_succ_self _⟩
    | error message => exact ⟨nodes', .returned (text "ERROR"), .failed ran returned, Nat.succ_pos _⟩
  | decompressed => exact ⟨nodes, .hashed _, .hash (hashOutput_eq nodes _), Nat.lt_succ_self _⟩
  | hashed uncompressedHash => exact ⟨_, .returned uncompressedHash, .delete, Nat.succ_pos _⟩
  | returned result => exact absurd unfinished (Nat.lt_irrefl 0)

theorem done_of_rank {s : JobStates v.Index Nodes JobState} (finished : ∀ i, (s.job i).rank = 0) : v.Done s := by
  intro i
  have zero := finished i
  cases job : s.job i with
  | returned result => exact ⟨result, rfl⟩
  | queued => rw [job] at zero; cases zero
  | decompressed => rw [job] at zero; cases zero
  | hashed uncompressedHash => rw [job] at zero; cases zero

/-- With decompressors that always start the run comes to an end. -/
theorem exists_ends (starts : ∀ i : v.Index, ∀ nodes, ∃ child nodes',
    v.decompressor (decompressCommand v.conf i.filename) nodes child nodes') (nodes : Nodes) :
    ∃ s, v.Ends nodes s := by
  obtain ⟨s, run, finished⟩ := exists_finished (exists_step starts) (v.start nodes)
  exact ⟨s, run, done_of_rank finished⟩

end

end BackupSuite.CtrlCenter
