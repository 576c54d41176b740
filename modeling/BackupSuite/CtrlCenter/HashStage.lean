import Mathlib.Algebra.BigOperators.Group.List.Basic
import BackupSuite.CtrlCenter.DatabaseFile

/-! # The hash stage

From the scanned paths to `filesHashes`: `meowhash` prints a line, `runSubprocess`
reads it with `fgets` into a buffer of 128 bytes, and `parseBuffer` splits what
arrived.  `hashStage_complete_iff` says exactly for which scanned files the entry
that comes out is the file's.
-/

namespace BackupSuite.CtrlCenter

open BackupSuite.Library

/-! ## `meowhash` -/

/-- The four 32-bit words of a Meow hash. -/
structure MeowU128 where
  u3 : UInt32
  u2 : UInt32
  u1 : UInt32
  u0 : UInt32
deriving DecidableEq, Repr

def hexDigit (n : Nat) : UInt8 := if n < 10 then (48 + n).toUInt8 else (55 + n).toUInt8

/-- `%08X` -/
def print08X (w : UInt32) : Bytes :=
  [7, 6, 5, 4, 3, 2, 1, 0].map fun i => hexDigit (w.toNat / 16 ^ i % 16)

def printHash (hash : MeowU128) : Bytes :=
  print08X hash.u3 ++ 45 :: (print08X hash.u2 ++ 45 :: (print08X hash.u1 ++ 45 :: print08X hash.u0))

/-- What `ReadEntireFile` can come back with: the contents, no buffer for them,
or a file that could not be opened. -/
inductive EntireFile where
  | contents (bytes : Bytes)
  | unallocated
  | unableToLoad
deriving DecidableEq, Repr

section

variable (meowHash : Bytes → MeowU128)

/-- What `HashOneFile` prints. -/
def hashOneFile (filenameA : Bytes) : EntireFile → Bytes
  | .contents bytes => text "MeowHash " ++ printHash (meowHash bytes) ++ text " " ++ filenameA
  | .unallocated => []
  | .unableToLoad => text "ERROR: Unable to load \"" ++ filenameA ++ text "\"\n"

def meowBanner : Bytes :=
  text "meowhash 0.5/calico\n" ++
  text "(C) Copyright 2018-2019 by Molly Rocket, Inc. (https://mollyrocket.com)\n" ++
  text "See https://mollyrocket.com/meowhash for details.\n" ++ text "\n"

/-- The exit status and the output of `meowhash`; `args` includes the name it was started under. -/
def meowhashMain (readEntireFile : Bytes → EntireFile) (args : List Bytes) : Int × Bytes :=
  (0, (if args.length ≤ 2 then meowBanner else []) ++
    if args.length = 2 ∨ args.length = 3 then
      hashOneFile meowHash (args.getD 1 []) (readEntireFile (args.getD 1 []))
    else text
      "dunno what to do, this is a special (modified) meowhash app, so default params doesn't work!\n")

/-- Called with a path and one argument more, whatever that is. -/
@[simp] theorem meowhashMain_path (readEntireFile : Bytes → EntireFile) (exe path nologo : Bytes) :
    meowhashMain meowHash readEntireFile [exe, path, nologo] = (0, hashOneFile meowHash path (readEntireFile path)) := by
  simp [meowhashMain]

end

/-! ## `runSubprocess` and `hashFile` -/

/-- What becomes of a started command line. -/
inductive Child where
  | notCreated
  | notJoined
  | exited (status : Int) (stdout : Bytes)
deriving DecidableEq, Repr

/-- `fgets` with room for `n` bytes: at most one line, with its newline. -/
def fgets : Nat → Bytes → Bytes
  | 0, _ => []
  | _ + 1, [] => []
  | n + 1, c :: s => if c = 10 then [10] else c :: fgets n s

/-- The value or the error state that `runSubprocess` returns. -/
def runSubprocess : Child → Except Bytes Bytes
  | .notCreated => .error (text "ERROR Subprocess(1)")
  | .notJoined => .error (text "ERROR Subprocess(2)")
  | .exited status stdout =>
    -- `char tmp[130]`, of which `fgets` gets 128 with the NUL; then `ret = tmp`
    if status ≠ 0 then .error (text "ERROR Subprocess(3)") else .ok (cStr (fgets 127 stdout))

def hashCommand (toolsFolder fileToProcess : Bytes) : List Bytes :=
  [toolsFolder ++ text "meowhash", fileToProcess, text "--nologo"]

/-- `exec` starts a command line and waits for it. -/
def hashFile (toolsFolder : Bytes) (exec : List Bytes → Child) (fileToProcess : Bytes) :
    Except Stop Bytes :=
  match runSubprocess (exec (hashCommand toolsFolder fileToProcess)) with
  -- the error is printed and `exit(-1)` called
  | .error _ => .error .exits
  | .ok ret => .ok ret

/-! ## The stage in `createOrUpdateArchive` -/

/-- The results of all hash jobs; a job that calls `exit` ends the process. -/
def awaitAll : List (Except Stop Bytes) → Except Stop (List Bytes)
  | [] => .ok []
  | job :: jobs => do
    let res ← job
    let results ← awaitAll jobs
    return res :: results

/-- `filesHashes.parseBuffer(res.c_str(), res.size())` for every result. -/
def collectHashes : List Bytes → List FileEntry → Option (List FileEntry)
  | [], filesHashes => some filesHashes
  | res :: results, filesHashes =>
    match parseBuffer filesHashes (cStr res) res.length with
    | none => none
    | some filesHashes => collectHashes results filesHashes

/-- `filesHashes` after the hash stage. -/
def hashStage (jobs : List (Except Stop Bytes)) : Except Stop (List FileEntry) := do
  let results ← awaitAll jobs
  match collectHashes results [] with
  | none => .error .hangs
  | some filesHashes => .ok filesHashes

/-- A scanned path, which is a C string, and what reading the file comes to. -/
structure ScannedFile where
  path : Bytes
  noNul : 0 ∉ path
  read : EntireFile

section

variable (meowHash : Bytes → MeowU128) (toolsFolder : Bytes)

/-- The text of the file's hash, if it can be hashed. -/
def ScannedFile.hash (f : ScannedFile) : Option Bytes :=
  match f.read with
  | .contents bytes => some (printHash (meowHash bytes))
  | _ => none

/-- The hash job of a file when `meowhash` exits as its `main` says. -/
def ScannedFile.job (f : ScannedFile) : Except Stop Bytes :=
  hashFile toolsFolder
    (fun cmdLine =>
      let ended := meowhashMain meowHash (fun _ => f.read) cmdLine
      .exited ended.1 ended.2)
    f.path

/-- Past the stage there is one entry per scanned file, in scan order, with its
path and its hash; and a file without a hash ends the run with an error. -/
def HashStageComplete (files : List ScannedFile) : Prop :=
  (∀ filesHashes, hashStage (files.map (·.job meowHash toolsFolder)) = .ok filesHashes →
    filesHashes.map (fun e => (e.mPath, some e.mHashValue)) =
      files.map (fun f => (f.path, f.hash meowHash))) ∧
  ((∃ f ∈ files, f.hash meowHash = none) →
    hashStage (files.map (·.job meowHash toolsFolder)) = .error .exits)

end

/-- A path that comes through: what is left of the 127 bytes behind the hash holds
it, it lies on one line and does not start with a blank. -/
structure HashablePath (path : Bytes) : Prop where
  short : path.length ≤ 82
  oneLine : ∀ c ∈ path, isNewline c = false
  start : Stops isWhitespace path

/-! ## What a hash job returns -/

/-- A line that fits is read whole; what follows it gets the room that is left. -/
theorem fgets_append {line : Bytes} (oneLine : 10 ∉ line) {n : Nat} (short : line.length ≤ n)
    (rest : Bytes) : fgets n (line ++ rest) = line ++ fgets (n - line.length) rest := by
  induction line generalizing n with
  | nil => rfl
  | cons c cs ih =>
    simp only [List.mem_cons, not_or] at oneLine
    obtain ⟨n, rfl⟩ : ∃ m, n = m + 1 := ⟨n - 1, by simp at short; omega⟩
    rw [List.cons_append, fgets, if_neg (Ne.symm oneLine.1),
      ih oneLine.2 (by simpa using short), List.length_cons, Nat.add_sub_add_right, List.cons_append]

theorem fgets_prefix_self (n : Nat) (s : Bytes) : fgets n s <+: s := by
  induction s generalizing n with
  | nil => cases n <;> exact List.prefix_rfl
  | cons c s ih =>
    cases n with
    | zero => exact List.nil_prefix
    | succ n =>
      by_cases newline : c = 10
      · simp [fgets, newline]
      · simpa [fgets, newline] using ih n

theorem length_fgets_le (n : Nat) (s : Bytes) : (fgets n s).length ≤ n := by
  induction s generalizing n with
  | nil => cases n <;> simp [fgets]
  | cons c s ih =>
    cases n with
    | zero => simp [fgets]
    | succ n =>
      by_cases newline : c = 10
      · simp [fgets, newline]
      · simpa [fgets, newline] using ih n

theorem fgets_of_short {s : Bytes} (oneLine : 10 ∉ s) {n : Nat} (short : s.length ≤ n) :
    fgets n s = s := by
  have whole := fgets_append oneLine short []
  have rest : fgets (n - s.length) [] = [] := by cases n - s.length <;> rfl
  rwa [rest, List.append_nil] at whole

theorem isTokenChar_hexDigit : ∀ n < 16, isTokenChar (hexDigit n) = true := by decide

theorem print08X_clean (w : UInt32) : ∀ c ∈ print08X w, isTokenChar c = true := by
  intro c mem
  obtain ⟨i, -, rfl⟩ := List.mem_map.mp mem
  exact isTokenChar_hexDigit _ (Nat.mod_lt _ (by decide))

@[simp] theorem length_printHash (hash : MeowU128) : (printHash hash).length = 35 := rfl

theorem printHash_isToken (hash : MeowU128) : IsToken (printHash hash) where
  nonempty := by
    intro empty
    have length := length_printHash hash
    rw [empty] at length
    cases length
  clean := by
    intro c mem
    simp only [printHash, List.mem_append, List.mem_cons] at mem
    rcases mem with h | rfl | h | rfl | h | rfl | h
    all_goals first | exact print08X_clean _ c h | rfl

theorem cStr_of_noNul {s : Bytes} (noNul : 0 ∉ s) : cStr s = s := by
  rw [cStr, List.takeWhile_eq_self_iff]
  intro c mem
  have ne : c ≠ 0 := fun h => noNul (h ▸ mem)
  simpa using ne

/-- Of a hash line the label, the hash and at most 82 bytes of the path arrive. -/
theorem fgets_hashOneFile (meowHash : Bytes → MeowU128) (path bytes : Bytes) :
    fgets 127 (hashOneFile meowHash path (.contents bytes)) =
      text "MeowHash" ++ 32 :: (printHash (meowHash bytes) ++ 32 :: fgets 82 path) := by
  let line : Bytes := text "MeowHash " ++ printHash (meowHash bytes) ++ text " "
  have oneLine : 10 ∉ line := by
    have hash := (printHash_isToken (meowHash bytes)).not_mem (c := 10) (by rfl)
    have label : 10 ∉ text "MeowHash " := by decide
    have blank : 10 ∉ text " " := by decide
    simp only [line, List.mem_append, not_or]
    exact ⟨⟨label, hash⟩, blank⟩
  have length : line.length = 45 := by simp [line, text]
  rw [hashOneFile, fgets_append oneLine (by omega), length]
  simp [line, text]

/-- What arrives of the tool's output for a file. -/
def ScannedFile.result (meowHash : Bytes → MeowU128) (f : ScannedFile) : Bytes :=
  fgets 127 (hashOneFile meowHash f.path f.read)

section

variable {meowHash : Bytes → MeowU128} {toolsFolder : Bytes}

theorem hashOneFile_noNul (f : ScannedFile) : 0 ∉ hashOneFile meowHash f.path f.read := by
  have noNul := f.noNul
  cases f.read with
  | contents bytes =>
    have hash := (printHash_isToken (meowHash bytes)).not_mem (c := 0) (by rfl)
    have label : 0 ∉ text "MeowHash " := by decide
    have blank : 0 ∉ text " " := by decide
    simp only [hashOneFile, List.mem_append, not_or]
    exact ⟨⟨⟨label, hash⟩, blank⟩, noNul⟩
  | unallocated => simp [hashOneFile]
  | unableToLoad =>
    have label : 0 ∉ text "ERROR: Unable to load \"" := by decide
    have close : 0 ∉ text "\"\n" := by decide
    simp only [hashOneFile, List.mem_append, not_or]
    exact ⟨⟨label, noNul⟩, close⟩

theorem ScannedFile.result_noNul (f : ScannedFile) (meowHash : Bytes → MeowU128) :
    0 ∉ f.result meowHash := fun mem =>
  hashOneFile_noNul f ((fgets_prefix_self 127 _).subset mem)

/-- `meowhash` exits with 0 whatever happened to the file, so every job returns. -/
theorem ScannedFile.job_eq (f : ScannedFile) :
    f.job meowHash toolsFolder = .ok (f.result meowHash) := by
  have noNul : 0 ∉ fgets 127 (hashOneFile meowHash f.path f.read) := f.result_noNul meowHash
  simp [job, hashFile, runSubprocess, hashCommand, result, cStr_of_noNul noNul]

/-! ## What `parseBuffer` makes of a result -/

/-- The entries that the result of one job adds. -/
def parsed (res : Bytes) : List FileEntry := (parseBuffer [] res res.length).getD []

theorem parseBuffer_noNul {res : Bytes} (noNul : 0 ∉ res) (entries : List FileEntry) :
    parseBuffer entries res res.length = some (entries ++ parsed res) := by
  have ends : ∃ found, parseBuffer [] res res.length = some found :=
    parseLoop_ends (by omega) noNul (by omega) (by omega) []
  obtain ⟨found, ends⟩ := ends
  have split : parseBuffer entries res res.length =
      (parseBuffer [] res res.length).map (entries ++ ·) := parseLoop_entries _ _ _ _
  simp [split, parsed, ends]

theorem collectHashes_noNul {results : List Bytes} (noNul : ∀ res ∈ results, 0 ∉ res)
    (filesHashes : List FileEntry) :
    collectHashes results filesHashes = some (filesHashes ++ results.flatMap parsed) := by
  induction results generalizing filesHashes with
  | nil => simp [collectHashes]
  | cons res results ih =>
    have head : 0 ∉ res := noNul res List.mem_cons_self
    have tail := ih (fun r mem => noNul r (List.mem_cons_of_mem _ mem)) (filesHashes ++ parsed res)
    simp [collectHashes, cStr_of_noNul head, parseBuffer_noNul head, tail]

theorem awaitAll_jobs (files : List ScannedFile) :
    awaitAll (files.map (·.job meowHash toolsFolder)) = .ok (files.map (·.result meowHash)) := by
  induction files with
  | nil => rfl
  | cons f files ih =>
    rw [List.map_cons, awaitAll, ih, ScannedFile.job_eq]
    rfl

/-- The stage always goes on, with whatever entries the results parse to. -/
theorem hashStage_jobs (files : List ScannedFile) :
    hashStage (files.map (·.job meowHash toolsFolder)) =
      .ok (files.flatMap fun f => parsed (f.result meowHash)) := by
  have noNul : ∀ res ∈ files.map (·.result meowHash), 0 ∉ res := by
    intro res mem
    obtain ⟨f, -, rfl⟩ := List.mem_map.mp mem
    exact f.result_noNul meowHash
  simp only [hashStage, awaitAll_jobs, Bind.bind, Except.bind, collectHashes_noNul noNul,
    List.nil_append, List.flatMap_map]

theorem HashablePath.path_eq {path : Bytes} (hashable : HashablePath path) (noNul : 0 ∉ path) :
    (skipWhitespace (fgets 82 path)).takeWhile isLineChar = path ∧
      skipNonNewline (skipWhitespace (fgets 82 path)) = [] := by
  have noNewline : 10 ∉ path := fun mem => by simpa [isNewline] using hashable.oneLine 10 mem
  have whole : fgets 82 path = path := fgets_of_short noNewline hashable.short
  have start : skipWhitespace path = path := advance_of_stops hashable.start
  have clean : ∀ c ∈ path, isLineChar c = true := fun c mem =>
    isLineChar_eq_true.mpr ⟨hashable.oneLine c mem, fun h => noNul (h ▸ mem)⟩
  rw [whole, start]
  refine ⟨List.takeWhile_eq_self_iff.mpr clean, ?_⟩
  rw [← List.append_nil path]
  exact advance_token clean stops_nil

@[simp] theorem parsed_nil : parsed [] = [] := rfl

theorem parsed_of_nonempty {res : Bytes} (nonempty : res ≠ []) (noNul : 0 ∉ res) :
    parsed res = (parseRound 0 res).1 :: parsed (parseRound 0 res).2 := by
  -- a round moves, so the rounds for the rest are enough for what follows this one
  have moves := parseRound_moves nonempty noNul 0
  have noNulRest : 0 ∉ (parseRound 0 res).2 := fun mem =>
    noNul ((parseRound_suffix 0 res).subset mem)
  have inside : (0 : Int) < res.length := by
    have := List.length_pos_iff.mpr nonempty
    omega
  have rest : parseLoop 0 ((parseRound 0 res).2.length + 1) (parseRound 0 res).2 [] =
      some (parsed (parseRound 0 res).2) := by
    have ends := parseBuffer_noNul noNulRest []
    rwa [parseBuffer, Int.sub_self, List.nil_append] at ends
  have enough := parseLoop_mono moves rest
  rw [parsed, parseBuffer, Int.sub_self, parseLoop_round inside, parseLoop_entries, enough]
  rfl

/-- The entries of a hash line: the path of the first is what `fgets` left of it,
and nothing follows a path that comes through. -/
theorem parsed_result (meowHash : Bytes → MeowU128) {f : ScannedFile} {bytes : Bytes}
    (read : f.read = .contents bytes) :
    ∃ more, parsed (f.result meowHash) =
      ⟨text "MeowHash", printHash (meowHash bytes),
        (skipWhitespace (fgets 82 f.path)).takeWhile isLineChar⟩ :: more ∧
      (HashablePath f.path → more = []) := by
  have token := printHash_isToken (meowHash bytes)
  have result : f.result meowHash =
      text "MeowHash" ++ 32 :: (printHash (meowHash bytes) ++ 32 :: fgets 82 f.path) := by
    rw [ScannedFile.result, read, fgets_hashOneFile]
  have label : ∀ c ∈ text "MeowHash", isTokenChar c = true := List.all_eq_true.mp (by decide)
  have round := parsed_of_nonempty (by simp [result]) (f.result_noNul meowHash)
  rw [result, parseRound_line label token] at round
  rw [result]
  refine ⟨_, round, fun hashable => ?_⟩
  have atEnd : skipNewline [] = [] := rfl
  rw [(hashable.path_eq f.noNul).2, atEnd, ite_self, parsed_nil]

/-- With at least one element for every item, matching the items one by one
leaves exactly one for each. -/
theorem map_flatMap_eq_map {α β γ : Type*} {g : α → List β} {h : β → γ} {k : α → γ} {l : List α}
    (nonempty : ∀ a ∈ l, g a ≠ []) (eq : (l.flatMap g).map h = l.map k) :
    ∀ a ∈ l, (g a).map h = [k a] := by
  induction l with
  | nil => simp
  | cons a l ih =>
    have tailNonempty : ∀ b ∈ l, g b ≠ [] := fun b mem => nonempty b (List.mem_cons_of_mem _ mem)
    obtain ⟨b, bs, head⟩ := List.exists_cons_of_ne_nil (nonempty a List.mem_cons_self)
    -- the other items have at least one element each, so nothing is left for a second one here
    have enough : l.length ≤ (l.flatMap g).length := by
      rw [List.length_flatMap, ← List.length_map (f := fun a => (g a).length)]
      apply List.length_le_sum_of_one_le
      intro n mem
      obtain ⟨c, inside, rfl⟩ := List.mem_map.mp mem
      exact List.length_pos_iff.mpr (tailNonempty c inside)
    simp only [List.flatMap_cons, head, List.cons_append, List.map_cons, List.map_append,
      List.cons.injEq] at eq
    have lengths := congrArg List.length eq.2
    simp only [List.length_append, List.length_map] at lengths
    have single : bs = [] := List.eq_nil_of_length_eq_zero (by omega)
    subst single
    intro c mem
    cases mem with
    | head => simp [head, eq.1]
    | tail _ tail => exact ih tailNonempty (by simpa using eq.2) c tail

theorem hashablePath_of_eq {path : Bytes}
    (eq : (skipWhitespace (fgets 82 path)).takeWhile isLineChar = path) : HashablePath path where
  short := by
    -- skipping, cutting at 82 and ending at a line end only shorten
    have taken := (List.takeWhile_prefix isLineChar (l := skipWhitespace (fgets 82 path))).length_le
    have skipped : (skipWhitespace (fgets 82 path)).length ≤ (fgets 82 path).length :=
      length_advance_le _ _
    have read := length_fgets_le 82 path
    rw [eq] at taken
    omega
  oneLine := by
    intro c mem
    rw [← eq] at mem
    exact (isLineChar_eq_true.mp (List.mem_takeWhile_imp mem)).1
  start := by
    have start : Stops isWhitespace (skipWhitespace (fgets 82 path)) := stops_advance _ _
    -- what the path starts with is what was left behind the blanks
    intro c head
    apply start c
    rw [← eq] at head
    cases rest : skipWhitespace (fgets 82 path) with
    | nil => rw [rest] at head; cases head
    | cons d ds =>
      rw [rest] at head
      by_cases inLine : isLineChar d = true
      · simpa [inLine] using head
      · simp [inLine] at head

/-! ## The law of the stage -/

theorem HashStageComplete.hash_ne_none {files : List ScannedFile}
    (complete : HashStageComplete meowHash toolsFolder files) :
    ∀ f ∈ files, f.hash meowHash ≠ none := by
  intro f mem unhashed
  have stops := complete.2 ⟨f, mem, unhashed⟩
  rw [hashStage_jobs] at stops
  cases stops

theorem ScannedFile.contents_of_hash {f : ScannedFile} (hashed : f.hash meowHash ≠ none) :
    ∃ bytes, f.read = .contents bytes := by
  rw [hash] at hashed
  split at hashed
  · exact ⟨_, ‹_›⟩
  · exact absurd rfl hashed

theorem HashStageComplete.hashablePath {files : List ScannedFile}
    (complete : HashStageComplete meowHash toolsFolder files) :
    ∀ f ∈ files, HashablePath f.path := by
  have entries := complete.1 _ (hashStage_jobs files)
  have nonempty : ∀ f ∈ files, parsed (f.result meowHash) ≠ [] := by
    intro f mem
    obtain ⟨bytes, read⟩ := ScannedFile.contents_of_hash (complete.hash_ne_none f mem)
    obtain ⟨more, first, -⟩ := parsed_result meowHash read
    simp [first]
  intro f mem
  -- as many entries as files: each job added exactly its own
  have single := map_flatMap_eq_map nonempty entries f mem
  obtain ⟨bytes, read⟩ := ScannedFile.contents_of_hash (complete.hash_ne_none f mem)
  obtain ⟨more, first, -⟩ := parsed_result meowHash read
  simp only [first, List.map_cons, List.cons.injEq, Prod.mk.injEq] at single
  exact hashablePath_of_eq single.1.1

/-- The stage is complete exactly when every file could be hashed and has a path
that is short enough, lies on one line and does not start with a blank. -/
theorem hashStage_complete_iff (meowHash : Bytes → MeowU128) (toolsFolder : Bytes)
    (files : List ScannedFile) :
    HashStageComplete meowHash toolsFolder files ↔
      ∀ f ∈ files, f.hash meowHash ≠ none ∧ HashablePath f.path := by
  constructor
  · exact fun complete f mem => ⟨complete.hash_ne_none f mem, complete.hashablePath f mem⟩
  · intro each
    refine ⟨fun filesHashes passed => ?_, fun ⟨f, mem, unhashed⟩ => absurd unhashed (each f mem).1⟩
    rw [hashStage_jobs] at passed
    cases passed
    have single : ∀ f ∈ files, (parsed (f.result meowHash)).map
        (fun e => (e.mPath, some e.mHashValue)) = [(f.path, f.hash meowHash)] := by
      intro f mem
      obtain ⟨hashed, hashable⟩ := each f mem
      obtain ⟨bytes, read⟩ := ScannedFile.contents_of_hash hashed
      obtain ⟨more, first, last⟩ := parsed_result meowHash read
      have path : (skipWhitespace (fgets 82 f.path)).takeWhile isLineChar = f.path :=
        (hashable.path_eq f.noNul).1
      simp [first, last hashable, path, ScannedFile.hash, read]
    rw [List.map_flatMap]
    rw [List.flatMap_congr single]
    exact List.flatMap_pure_eq_map _ _

/-- A path of 83 bytes loses its last one, and an unreadable file does not stop the run. -/
theorem hashStage_not_complete :
    ¬ HashStageComplete (fun _ => ⟨0, 0, 0, 0⟩) (text "bin/")
      [⟨List.replicate 83 97, by decide, .contents []⟩] ∧
    ¬ HashStageComplete (fun _ => ⟨0, 0, 0, 0⟩) (text "bin/")
      [⟨text "in/secret", by decide, .unableToLoad⟩] := by
  constructor
  · intro complete
    have long := (complete.hashablePath _ List.mem_cons_self).short
    simp at long
  · intro complete
    exact complete.hash_ne_none _ List.mem_cons_self rfl

end

end BackupSuite.CtrlCenter
