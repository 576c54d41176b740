import BackupSuite.Library.Substring
import BackupSuite.CtrlCenter.FileHashes

/-! # `readFileHashes` and `saveFileHashes`

Both run against the outcomes of their I/O calls (`ReadOutcomes`, `WriteOutcomes`), so that
one model serves the runs in which every call succeeds and the ones in which any
of them fails.  The size that `ftell` returns is stored in an `int`, and the
buffer is allocated from that `int`.

The main result is the round trip `readFileHashes_fileText`: a text of
well-formed lines whose size fits is loaded as its entries, whatever bytes lie in
the memory behind it.
-/

namespace BackupSuite.CtrlCenter

open BackupSuite.Library

/-! ## The text of a list -/

/-- The stored form of a path: the first occurrence of `unittestPath` is removed. -/
def withoutUnittestPath (unittestPath filename : Bytes) : Bytes :=
  if unittestPath.length ≠ 0 then eraseFirst unittestPath filename else filename

/-- `fprintf(fp, "%s %s %s\n", ...)` -/
def printEntry (e : FileEntry) : Bytes :=
  cStr e.mHashFunc ++ 32 :: (cStr e.mHashValue ++ 32 :: (cStr e.mPath ++ [10]))

/-- The lines of a list of entries. -/
def fileText (entries : List FileEntry) : Bytes := entries.flatMap printEntry

def storedEntry (unittestPath : Bytes) (e : FileEntry) : FileEntry :=
  { e with mPath := withoutUnittestPath unittestPath e.mPath }

/-- Everything `saveFileHashes` prints. -/
def savedText (unittestPath : Bytes) (entries : List FileEntry) : Bytes :=
  fileText (entries.map (storedEntry unittestPath))

@[simp] theorem fileText_nil : fileText [] = [] := rfl

@[simp] theorem fileText_cons (e : FileEntry) (es : List FileEntry) :
    fileText (e :: es) = printEntry e ++ fileText es := List.flatMap_cons

@[simp] theorem storedEntry_mHashValue (u : Bytes) (e : FileEntry) :
    (storedEntry u e).mHashValue = e.mHashValue := rfl

@[simp] theorem storedEntry_mPath (u : Bytes) (e : FileEntry) :
    (storedEntry u e).mPath = withoutUnittestPath u e.mPath := rfl

@[simp] theorem withoutUnittestPath_nil (filename : Bytes) : withoutUnittestPath [] filename = filename := rfl

@[simp] theorem withoutUnittestPath_append (u filename : Bytes) :
    withoutUnittestPath u (u ++ filename) = filename := by
  rw [withoutUnittestPath]
  split
  · exact eraseFirst_append u filename
  · have : u = [] := List.eq_nil_of_length_eq_zero (by omega)
    simp [this]

theorem cStr_of_clean {p : UInt8 → Bool} {s : Bytes} (clean : ∀ c ∈ s, p c = true)
    (noNul : p 0 = false) : cStr s = s := by
  rw [cStr, List.takeWhile_eq_self_iff]
  intro c mem
  have : c ≠ 0 := by
    rintro rfl
    rw [clean 0 mem] at noNul
    cases noNul
  simpa using this

theorem FileEntry.Readable.printEntry {e : FileEntry} (readable : e.Readable) :
    printEntry e = e.mHashFunc ++ 32 :: (e.mHashValue ++ 32 :: (e.mPath ++ [10])) := by
  simp only [CtrlCenter.printEntry, cStr_of_clean readable.func (by rfl),
    cStr_of_clean readable.value.clean (by rfl), cStr_of_clean readable.path.clean (by rfl)]

theorem FileEntry.WellFormed.printEntry {e : FileEntry} (wf : e.WellFormed) :
    printEntry e = e.mHashFunc ++ 32 :: (e.mHashValue ++ 32 :: (e.mPath ++ [10])) :=
  wf.readable.printEntry

/-! ## Reading -/

/-- How the process ends inside a call instead of returning from it. -/
inductive Stop where
  /-- an uncaught exception or an operation without defined behaviour -/
  | aborts
  /-- a loop that never ends -/
  | hangs
  /-- `exit(-1)` -/
  | exits
deriving DecidableEq, Repr

/-- Conversion to `int`. -/
def toInt (n : Int) : Int :=
  if n % 4294967296 < 2147483648 then n % 4294967296 else n % 4294967296 - 4294967296

/-- `new char[fileSize+10]` is given a size: the sum is an `int` and not negative. -/
def allocates (fileSize : Int) : Bool := decide (0 ≤ fileSize + 10 ∧ fileSize + 10 < 2147483648)

/-- The outcomes of the calls in `readFileHashes`: whether `fopen` opens the file,
how many bytes the calls of `fread` deliver one after the other (none at all once
the list is used up), and the memory behind what they filled: the uninitialised
rest of the buffer and whatever follows it. -/
structure ReadOutcomes where
  opens : Bool
  freads : List Nat
  behind : Bytes

/-- Every call succeeds. -/
def ReadOutcomes.faultless (behind : Bytes) : ReadOutcomes := ⟨true, [2147483647], behind⟩

/-- `while(alreadyReadBytes < fileSize)`; a call delivers at most what it is asked for. -/
def readLoop (fileSize : Int) : List Nat → Int → Except Stop Int
  | [], alreadyReadBytes =>
    if alreadyReadBytes < fileSize then .error .hangs else .ok alreadyReadBytes
  | fread :: freads, alreadyReadBytes =>
    if alreadyReadBytes < fileSize then
      readLoop fileSize freads (alreadyReadBytes + min (fread : Int) (fileSize - alreadyReadBytes))
    else .ok alreadyReadBytes

/-- `mFileEntries[i].mPath = gConfiguration.unittestPath + mFileEntries[i].mPath` -/
def loadedEntry (unittestPath : Bytes) (e : FileEntry) : FileEntry :=
  { e with mPath := unittestPath ++ e.mPath }

/-- The opened file: from the allocation of the buffer on. -/
def readBuffer (unittestPath : Bytes) (io : ReadOutcomes) (content : Bytes) (fileSize : Int) :
    Except Stop (Bool × List FileEntry) :=
  if allocates fileSize then do
    let alreadyReadBytes ← readLoop fileSize io.freads 0
    -- what `fread` did not fill is the uninitialised rest of the buffer
    let fileBuffer := content.take alreadyReadBytes.toNat ++ io.behind
    match parseBuffer [] fileBuffer fileSize with
    -- the file is closed, but the loop of `parseBuffer` does not end
    | none => .error .hangs
    | some entries =>
      .ok (true, if unittestPath.length ≠ 0 then entries.map (loadedEntry unittestPath) else entries)
  else .error .aborts

/-- What `readFileHashes` returns and the entries it leaves. -/
def readFileHashes (unittestPath : Bytes) (io : ReadOutcomes) (file : Option Bytes) :
    Except Stop (Bool × List FileEntry) :=
  match file with
  | none => .ok (false, [])
  | some content =>
    if io.opens then readBuffer unittestPath io content (toInt content.length) else .ok (false, [])

/-! ## Writing -/

/-- The outcomes of the calls in `saveFileHashes`: whether `fopen` opens (and so
empties) the file, and what of the text reaches it.  A write or the close that
fails leaves some of the text out, at the end or anywhere. -/
structure WriteOutcomes where
  opens : Bool
  reaches : Bytes → Bytes
  partOf : ∀ t, (reaches t).Sublist t

/-- Every call succeeds. -/
def WriteOutcomes.faultless : WriteOutcomes := ⟨true, id, List.Sublist.refl⟩

/-- What `saveFileHashes` returns and the file it leaves. -/
def saveFileHashes (unittestPath : Bytes) (io : WriteOutcomes) (entries : List FileEntry)
    (file : Option Bytes) : Bool × Option Bytes :=
  if io.opens then (true, some (io.reaches (savedText unittestPath entries))) else (false, file)

@[simp] theorem saveFileHashes_faultless (u : Bytes) (entries : List FileEntry) (file : Option Bytes) :
    saveFileHashes u .faultless entries file = (true, some (savedText u entries)) := rfl

/-! ## Sizes -/

/-- The size fits the `int` and the ten more bytes do too. -/
def Fits (content : Bytes) : Prop := content.length + 10 < 2147483648

instance (content : Bytes) : Decidable (Fits content) := inferInstanceAs (Decidable (_ < _))

theorem Fits.toInt {content : Bytes} (fits : Fits content) :
    toInt content.length = content.length := by
  rw [Fits] at fits
  rw [CtrlCenter.toInt]
  omega

theorem Fits.allocates {content : Bytes} (fits : Fits content) : allocates content.length = true := by
  rw [Fits] at fits
  exact decide_eq_true (by omega)

/-- A size that does not fit, up to the one where the `int` wraps back to `-10`, ends the process. -/
theorem allocates_eq_false {content : Bytes} (big : ¬ Fits content)
    (bounded : content.length + 10 < 4294967296) : allocates (toInt content.length) = false := by
  rw [Fits] at big
  rw [toInt]
  exact decide_eq_false (by omega)

theorem readFileHashes_aborts (u : Bytes) {io : ReadOutcomes} (opens : io.opens = true) {content : Bytes}
    (big : ¬ Fits content) (bounded : content.length + 10 < 4294967296) :
    readFileHashes u io (some content) = .error .aborts := by
  simp only [readFileHashes, opens, if_true, readBuffer, allocates_eq_false big bounded,
    Bool.false_eq_true, if_false]

theorem readLoop_ok {fileSize : Int} {freads : List Nat} {start read : Int}
    (h : readLoop fileSize freads start = .ok read) : read = max start fileSize := by
  induction freads generalizing start with
  | nil =>
    simp only [readLoop] at h
    split at h
    · cases h
    · cases h; omega
  | cons fread freads ih =>
    simp only [readLoop] at h
    split at h
    · rw [ih h]; omega
    · cases h; omega

theorem readLoop_faultless {fileSize : Int} (small : fileSize < 2147483648) :
    readLoop fileSize [2147483647] 0 = .ok (max 0 fileSize) := by
  by_cases h : (0 : Int) < fileSize
  · simp only [readLoop, if_pos h]
    rw [if_neg (by omega)]
    congr 1
    omega
  · simp only [readLoop, if_neg h]
    congr 1
    omega

/-! ## The round trip -/

theorem FileEntry.Readable.stops_printEntry {e : FileEntry} (readable : e.Readable) (rest : Bytes) :
    Stops isNewline (CtrlCenter.printEntry e ++ rest) := by
  rw [readable.printEntry]
  have clean := readable.func
  cases start : e.mHashFunc with
  | nil => exact stops_cons.mpr rfl
  | cons c cs =>
    have token := clean c (by rw [start]; exact List.mem_cons_self)
    exact stops_cons.mpr (isNewline_le_isWhitespace (isTokenChar_eq_true.mp token).1)

/-- One line: the round pushes its entry and leaves the cursor on the next line. -/
theorem parseRound_printEntry {e : FileEntry} (readable : e.Readable) {behind : Int} {rest : Bytes}
    (inside : behind ≤ rest.length) :
    parseRound behind (printEntry e ++ rest) = (e, skipNewline rest) := by
  obtain ⟨pathNonempty, pathClean, pathStart⟩ := readable.path
  have start : Stops isWhitespace (e.mPath ++ 10 :: rest) := by
    cases h : e.mPath with
    | nil => exact absurd h pathNonempty
    | cons c cs =>
      rw [h] at pathStart
      exact stops_cons.mpr (stops_cons.mp pathStart)
  have stop : Stops isLineChar (10 :: rest) := stops_cons.mpr rfl
  have line : printEntry e ++ rest =
      e.mHashFunc ++ 32 :: (e.mHashValue ++ 32 :: (e.mPath ++ 10 :: rest)) := by
    rw [readable.printEntry]; simp
  -- the line end lies in front of the end of the buffer, so it is skipped too
  have lt : behind < (10 :: rest).length := by rw [List.length_cons]; omega
  rw [line, parseRound_fields readable.func readable.value pathClean start stop, if_pos lt]
  simp [skipNewline, advance, isNewline]

theorem printEntry_length_pos (e : FileEntry) : 0 < (printEntry e).length := by
  simp only [printEntry, List.length_append, List.length_cons]
  omega

theorem parseLoop_fileText {es : List FileEntry} (wf : ∀ e ∈ es, e.WellFormed) (behind : Bytes)
    {fuel : Nat} (enough : es.length < fuel) (acc : List FileEntry) :
    parseLoop behind.length fuel (skipNewline (fileText es ++ behind)) acc = some (acc ++ es) := by
  -- on the lines: each takes one round, and behind the last one the loop is at the end
  obtain ⟨fuel, rfl⟩ : ∃ n, fuel = n + 1 := ⟨fuel - 1, by omega⟩
  induction es generalizing fuel acc with
  | nil =>
    have passed : (skipNewline ([] ++ behind)).length ≤ behind.length := length_advance_le _ _
    rw [fileText_nil, List.append_nil, parseLoop_passed (by exact_mod_cast passed)]
  | cons e es ih =>
    have wfHead := wf e List.mem_cons_self
    have atLine : skipNewline (fileText (e :: es) ++ behind) =
        printEntry e ++ (fileText es ++ behind) := by
      rw [fileText_cons, List.append_assoc]
      exact advance_of_stops (wfHead.readable.stops_printEntry _)
    have inside : (behind.length : Int) < (printEntry e ++ (fileText es ++ behind)).length := by
      have := printEntry_length_pos e
      simp only [List.length_append]
      omega
    obtain ⟨fuel, rfl⟩ : ∃ n, fuel = n + 1 := ⟨fuel - 1, by simp at enough; omega⟩
    rw [atLine, parseLoop_round inside, parseRound_printEntry wfHead.readable
      (by simp only [List.length_append]; omega)]
    rw [ih (fun f hf => wf f (List.mem_cons_of_mem _ hf)) _ _ (by simpa using enough)]
    simp

theorem parseBuffer_fileText {es : List FileEntry} (wf : ∀ e ∈ es, e.WellFormed) (behind : Bytes) :
    parseBuffer [] (fileText es ++ behind) (fileText es).length = some es := by
  have size : ((fileText es ++ behind).length : Int) - (fileText es).length = behind.length := by
    simp only [List.length_append]
    omega
  refine @parseBuffer_eq_some [] es _ _ (es.length + 1) ?_
  rw [size]
  cases es with
  | nil => exact parseLoop_passed (by simp) _ _
  | cons e es =>
    have start : skipNewline (fileText (e :: es) ++ behind) = fileText (e :: es) ++ behind := by
      rw [fileText_cons, List.append_assoc]
      exact advance_of_stops ((wf e List.mem_cons_self).readable.stops_printEntry _)
    rw [← start]
    exact parseLoop_fileText wf behind (by omega) []

theorem readBuffer_of_parsed (u : Bytes) {io : ReadOutcomes} {content : Bytes} {fileSize read : Int}
    (allocated : allocates fileSize = true) (ended : readLoop fileSize io.freads 0 = .ok read)
    {entries : List FileEntry}
    (parsed : parseBuffer [] (content.take read.toNat ++ io.behind) fileSize = some entries) :
    readBuffer u io content fileSize =
      .ok (true, if u.length ≠ 0 then entries.map (loadedEntry u) else entries) := by
  simp only [readBuffer, allocated, if_true, ended, Bind.bind, Except.bind, parsed]

/-- Loading a text of well-formed lines gives its entries under the prefix, with
whatever read results deliver the whole file and whatever memory behind it. -/
theorem readFileHashes_of_readLoop (u : Bytes) {io : ReadOutcomes} (opens : io.opens = true)
    {es : List FileEntry} (wf : ∀ e ∈ es, e.WellFormed) (fits : Fits (fileText es))
    {read : Int} (ends : readLoop (fileText es).length io.freads 0 = .ok read) :
    readFileHashes u io (some (fileText es)) = .ok (true, es.map (loadedEntry u)) := by
  have all : read.toNat = (fileText es).length := by
    rw [readLoop_ok ends]; omega
  -- an empty prefix is not put in front, which is the same
  have prefixed : (if u.length ≠ 0 then es.map (loadedEntry u) else es) = es.map (loadedEntry u) := by
    split
    · rfl
    · have : u = [] := List.eq_nil_of_length_eq_zero (by omega)
      subst this
      exact (List.map_id _).symm
  have parsed : parseBuffer [] ((fileText es).take read.toNat ++ io.behind) (fileText es).length =
      some es := by
    rw [all, List.take_length, parseBuffer_fileText wf]
  rw [readFileHashes, if_pos opens, fits.toInt, readBuffer_of_parsed u fits.allocates ends parsed,
    prefixed]

theorem readFileHashes_fileText (u behind : Bytes) {es : List FileEntry}
    (wf : ∀ e ∈ es, e.WellFormed) (fits : Fits (fileText es)) :
    readFileHashes u (.faultless behind) (some (fileText es)) =
      .ok (true, es.map (loadedEntry u)) := by
  have small : ((fileText es).length : Int) < 2147483648 := by
    unfold Fits at fits; omega
  exact readFileHashes_of_readLoop u rfl wf fits (readLoop_faultless small)

@[simp] theorem storedEntry_loadedEntry (u : Bytes) (e : FileEntry) :
    storedEntry u (loadedEntry u e) = e := by
  simp [storedEntry, loadedEntry]

end BackupSuite.CtrlCenter
