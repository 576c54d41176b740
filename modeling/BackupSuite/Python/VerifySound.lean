import Mathlib.Data.List.Perm.Basic
import Mathlib.Data.Option.Basic
import BackupSuite.Python.Verify

/-! # What the verify of the script proves

A line of `filehashes.txt` is compared with whatever result ends in a blank and its path.
`sound_iff` says for which names, lists and leftovers the report that all is equal holds for
the archives of the listed paths, whatever they restore to: when only the own archive can
answer a line, with the recorded hash alone, and nothing else can be at its output.
-/

namespace BackupSuite.Python

open BackupSuite.Library BackupSuite.CtrlCenter

/-- The hash as the results have it. -/
def hashText (hash : MeowU128) : Str := (printHash hash).map fun b => Char.ofNat b.toNat

/-- `MeowHash` -/
def label : Str := "MeowHash".toList

/-- A line of `filehashes.txt`: the path is all that is behind the second blank. -/
structure Listed where
  value : Str
  path : Str
deriving DecidableEq, Repr

def listedOf (line : Str) : Listed :=
  let (_, _, rest) := partition ' ' line
  let (value, _, path) := partition ' ' rest
  ⟨value, path.rdropWhile (· == '\n')⟩

def listed (filehashes : Bytes) : List Listed :=
  match readText filehashes with
  | none => []
  | some text => (lines text).map listedOf

namespace Uncompression

variable {folder : ArchiveFolder} (run : Uncompression folder)

/-- The archive of exactly the listed path restores to something with the recorded hash. -/
def ComesBack (l : Listed) : Prop :=
  ∃ i : folder.Index, (splitext i.file).1 = folder.inputpath ++ l.path ∧
    ∃ bytes, run.restores i.file = some bytes ∧ hashText (folder.meowHash bytes) = l.value

/-- The report that all hashes are equal is right, in whatever order the results come in. -/
def Sound (filehashes : Bytes) : Prop :=
  ∀ rawVerifyResults v,
    (rawVerifyResults.map some).Perm ((List.finRange folder.archives.length).map run.uncompressAndGenerateHash) →
    folder.verify rawVerifyResults filehashes = some v →
    v.report = [allEqual] → ∀ l ∈ listed filehashes, run.ComesBack l

end Uncompression

/-! ## The condition -/

namespace ArchiveFolder

variable {folder : ArchiveFolder}

/-- What the result of an archive has behind the hash. -/
def Index.shown (i : folder.Index) : Str := eraseAll tmp (eraseAll folder.inputpath (splitext i.file).1)

/-- The path as it is compared is the one that the result shows, or ends it behind a blank,
or is the hash and all that follows. -/
def Index.EndsIn (i : folder.Index) (hash path : Str) : Prop :=
  strip path = i.shown ∨ (' ' :: strip path) <:+ i.shown ∨ strip path = hash ++ ' ' :: i.shown

instance (i : folder.Index) (hash path : Str) : Decidable (i.EndsIn hash path) :=
  inferInstanceAs (Decidable (_ ∨ _ ∨ _))

/-- The value is a part of the hash, of the path as `repr` shows it, or of `['MeowHash`. -/
def Index.Shows (i : folder.Index) (hash value : Str) : Prop :=
  value <:+: '[' :: quoteOf i.shown :: label ∨ value <:+: hash ∨
    value <:+: i.shown.flatMap (escape folder.isprintable (quoteOf i.shown)) ++ [quoteOf i.shown, ']']

instance (i : folder.Index) (hash value : Str) : Decidable (i.Shows hash value) :=
  inferInstanceAs (Decidable (_ ∨ _ ∨ _))

/-- Whatever lies at its output, an archive with such a name can answer the line only for its own
path, with the recorded value as its whole hash, and only from what it has restored. -/
def Certain (folder : ArchiveFolder) (l : Listed) : Prop :=
  ∀ i : folder.Index, (folder.command i.file).isSome → ∀ content,
    i.EndsIn (hashText (folder.meowHash content)) l.path →
    i.Shows (hashText (folder.meowHash content)) l.value →
    (splitext i.file).1 = folder.inputpath ++ l.path ∧ hashText (folder.meowHash content) = l.value ∧ i.Own

end ArchiveFolder

/-! ## The text of a hash -/

theorem mem_printHash {hash : MeowU128} {b : UInt8} (mem : b ∈ printHash hash) : b = 45 ∨ ∃ n < 16, b = hexDigit n := by
  have word : ∀ w : UInt32, b ∈ print08X w → ∃ n < 16, b = hexDigit n := by
    intro w inWord
    obtain ⟨i, -, rfl⟩ := List.mem_map.mp inWord
    exact ⟨_, Nat.mod_lt _ (by decide), rfl⟩
  simp only [printHash, List.mem_append, List.mem_cons] at mem
  rcases mem with inWord | minus | inWord | minus | inWord | minus | inWord
  all_goals first | exact Or.inr (word _ inWord) | exact Or.inl minus

/-- `repr` shows such a character as it is. -/
def IsPlain (c : Char) : Prop := 32 ≤ c.toNat ∧ c.toNat < 127 ∧ c ≠ '\\' ∧ c ≠ '\'' ∧ c ≠ '"'

instance (c : Char) : Decidable (IsPlain c) := inferInstanceAs (Decidable (_ ∧ _))

theorem mem_hashText {hash : MeowU128} {c : Char} (mem : c ∈ hashText hash) : IsPlain c ∧ c ≠ ' ' ∧ c ≠ '/' := by
  have minus : IsPlain (Char.ofNat 45) ∧ Char.ofNat 45 ≠ ' ' ∧ Char.ofNat 45 ≠ '/' := by decide
  have digits : ∀ n < 16, IsPlain (Char.ofNat (hexDigit n).toNat) ∧
      Char.ofNat (hexDigit n).toNat ≠ ' ' ∧ Char.ofNat (hexDigit n).toNat ≠ '/' := by decide
  obtain ⟨b, inHash, rfl⟩ := List.mem_map.mp mem
  obtain rfl | ⟨n, bound, rfl⟩ := mem_printHash inHash
  · exact minus
  · exact digits n bound

theorem utf8Encode_hashText (hash : MeowU128) : utf8Encode (hashText hash) = printHash hash := by
  have digits : ∀ n < 16, (hexDigit n).toNat < 128 := by decide
  refine utf8Encode_map_ofNat fun b mem => ?_
  obtain rfl | ⟨n, bound, rfl⟩ := mem_printHash mem
  · decide
  · exact digits n bound

/-! ## `repr` of plain characters -/

theorem quoteOf_eq (s : Str) : quoteOf s = '\'' ∨ quoteOf s = '"' := by
  rw [quoteOf]
  split
  · exact Or.inr rfl
  · exact Or.inl rfl

theorem quoteOf_append {a : Str} (plain : ∀ c ∈ a, IsPlain c) (s : Str) : quoteOf (a ++ s) = quoteOf s := by
  have noSingle : '\'' ∉ a := fun mem => (plain _ mem).2.2.2.1 rfl
  have noDouble : '"' ∉ a := fun mem => (plain _ mem).2.2.2.2 rfl
  simp [quoteOf, noSingle, noDouble]

theorem flatMap_escape (isprintable : Char → Bool) (s : Str) {a : Str} (plain : ∀ c ∈ a, IsPlain c) :
    a.flatMap (escape isprintable (quoteOf s)) = a := by
  induction a with
  | nil => rfl
  | cons c a ih =>
    obtain ⟨low, high, noBackslash, noSingle, noDouble⟩ := plain c List.mem_cons_self
    have noQuote : ¬ (c = quoteOf s ∨ c = '\\') := by
      rintro (same | same)
      · cases quoteOf_eq s with
        | inl single => exact noSingle (same.trans single)
        | inr double => exact noDouble (same.trans double)
      · exact noBackslash same
    have noControl : ∀ d : Char, d.toNat < 32 → c ≠ d := by
      rintro d small rfl
      omega
    have here : escape isprintable (quoteOf s) c = [c] := by
      rw [escape, if_neg noQuote, if_neg (noControl _ (by decide)), if_neg (noControl _ (by decide)),
        if_neg (noControl _ (by decide)), if_neg (by omega), if_pos (Or.inl high)]
    rw [List.flatMap_cons, here, ih fun other mem => plain other (List.mem_cons_of_mem _ mem)]
    rfl

/-! ## What an archive answers -/

/-- The line of a hash. -/
def hashStr (hash path : Str) : Str := label ++ ' ' :: (hash ++ ' ' :: path)

theorem label_plain : ∀ c ∈ label, IsPlain c := by
  have all : label.all (fun c => decide (IsPlain c)) = true := by decide
  intro c mem
  exact of_decide_eq_true (List.all_eq_true.mp all c mem)

theorem hashOneFile_utf8Encode (meowHash : Bytes → MeowU128) (path : Str) (bytes : Bytes) :
    hashOneFile meowHash (utf8Encode path) (.contents bytes) =
      utf8Encode (hashStr (hashText (meowHash bytes)) path) := by
  have front : text "MeowHash " = utf8Encode (label ++ [' ']) := by decide
  have blank : text " " = utf8Encode [' '] := by decide
  rw [hashOneFile, front, blank, ← utf8Encode_hashText, ← utf8Encode_append, ← utf8Encode_append,
    ← utf8Encode_append]
  simp [hashStr]

theorem tmp_eq : tmp = '/' :: ['t', 'm', 'p', '/'] := by decide

theorem eraseAll_hashStr (hash : MeowU128) (path : Str) :
    eraseAll tmp (hashStr (hashText hash) path) =
      hashStr (hashText hash) (eraseAll tmp path) := by
  have noSlash : '/' ∉ label ++ ' ' :: (hashText hash ++ [' ']) := by
    simp only [List.mem_append, List.mem_cons, not_or]
    exact ⟨by decide, by decide, fun mem => (mem_hashText mem).2.2 rfl, by decide, by simp⟩
  have split : ∀ s, hashStr (hashText hash) s = (label ++ ' ' :: (hashText hash ++ [' '])) ++ s := by
    intro s
    simp [hashStr]
  rw [split, split, tmp_eq, eraseAll_append_of_head noSlash]

theorem endsWithPath_hashStr (hash : MeowU128) (path s : Str) :
    endsWithPath path (hashStr (hashText hash) s) ↔
      path = s ∨ ' ' :: path <:+ s ∨ path = hashText hash ++ ' ' :: s := by
  have noBlank : ' ' ∉ hashText hash := fun mem => (mem_hashText mem).2.1 rfl
  rw [endsWithPath, decide_eq_true_iff, hashStr, isEnd_append_iff (by decide), isEnd_append_iff noBlank]
  tauto

theorem isIn_strOfList_hashStr (isprintable : Char → Bool) {value : Str} (noBlank : ' ' ∉ value)
    (hash : MeowU128) (s : Str) :
    value <:+: strOfList isprintable (hashStr (hashText hash) s) ↔
      value <:+: '[' :: quoteOf s :: label ∨ value <:+: hashText hash ∨
        value <:+: s.flatMap (escape isprintable (quoteOf s)) ++ [quoteOf s, ']'] := by
  let front : Str := label ++ ' ' :: (hashText hash ++ [' '])
  have plain : ∀ c ∈ front, IsPlain c := by
    simp only [front, List.mem_append, List.mem_cons, List.not_mem_nil, or_false]
    rintro c (inLabel | rfl | inHash | rfl)
    · exact label_plain c inLabel
    · decide
    · exact (mem_hashText inHash).1
    · decide
  have split : hashStr (hashText hash) s = front ++ s := by simp [hashStr, front]
  have shape : strOfList isprintable (hashStr (hashText hash) s) =
      ('[' :: quoteOf s :: label) ++
        ' ' :: (hashText hash ++ ' ' :: (s.flatMap (escape isprintable (quoteOf s)) ++ [quoteOf s, ']'])) := by
    rw [strOfList, reprStr, split, quoteOf_append plain, List.flatMap_append, flatMap_escape isprintable s plain]
    simp [front]
  rw [shape, isIn_append_iff noBlank, isIn_append_iff noBlank]

/-- The message of a file that cannot be loaded ends in a line feed. -/
theorem exists_of_unableToLoad (meowHash : Bytes → MeowU128) (path : Str) :
    ∃ s, hashOneFile meowHash (utf8Encode path) .unableToLoad = utf8Encode (s ++ ['\n']) := by
  have front : text "ERROR: Unable to load \"" = utf8Encode "ERROR: Unable to load \"".toList := by decide
  have behind : text "\"\n" = utf8Encode ['"', '\n'] := by decide
  refine ⟨"ERROR: Unable to load \"".toList ++ path ++ ['"'], ?_⟩
  rw [hashOneFile, front, behind, ← utf8Encode_append, ← utf8Encode_append, List.append_assoc _ ['"'] ['\n'],
    List.singleton_append]

namespace Uncompression

variable {folder : ArchiveFolder} {run : Uncompression folder} {i : folder.Index}

theorem eraseAll_outputfile : eraseAll tmp (folder.outputfile i.file) = i.shown := by
  rw [ArchiveFolder.outputfile, join]
  split
  case isTrue => rfl
  case isFalse =>
    rw [if_pos (by decide), tmp_eq, eraseAll_append]
    rfl

theorem uncompress_of_prints {output : Output} (left : run.output i = some output)
    (removable : output.removable = true) {s : Str}
    (prints : hashOneFile folder.meowHash (utf8Encode (folder.outputfile i.file)) output.read = utf8Encode s) :
    run.uncompressAndGenerateHash i = some s := by
  simp [uncompressAndGenerateHash, left, removable, prints]

variable (run i) in
/-- What `meowhash` reads at the output. -/
def contents : Option Bytes :=
  match run.output i with
  | some ⟨.contents bytes, _⟩ => some bytes
  | _ => none

theorem eraseAll_of_contents {bytes : Bytes} {result : Str} (contents : run.contents i = some bytes)
    (returned : run.uncompressAndGenerateHash i = some result) :
    eraseAll tmp result = hashStr (hashText (folder.meowHash bytes)) i.shown := by
  rw [Uncompression.contents] at contents
  split at contents
  case h_1 bytes' removable left =>
    cases contents
    cases removable with
    | true =>
      rw [uncompress_of_prints left rfl (hashOneFile_utf8Encode _ _ bytes)] at returned
      cases returned
      rw [eraseAll_hashStr, eraseAll_outputfile]
    | false => simp [uncompressAndGenerateHash, left] at returned
  case h_2 => cases contents

theorem eraseAll_of_no_contents {result : Str} (contents : run.contents i = none)
    (returned : run.uncompressAndGenerateHash i = some result) :
    eraseAll tmp result = [] ∨ ∃ s, eraseAll tmp result = s ++ ['\n'] := by
  cases left : run.output i with
  | none =>
    rw [uncompressAndGenerateHash, left] at returned
    cases returned
    exact Or.inl rfl
  | some output =>
    obtain ⟨read, removable⟩ := output
    cases removable with
    | false => simp [uncompressAndGenerateHash, left] at returned
    | true =>
      cases read with
      | contents bytes => simp [Uncompression.contents, left] at contents
      | unallocated =>
        rw [@uncompress_of_prints _ _ _ _ left rfl [] rfl] at returned
        cases returned
        exact Or.inl rfl
      | unableToLoad =>
        obtain ⟨s, prints⟩ := exists_of_unableToLoad folder.meowHash (folder.outputfile i.file)
        rw [uncompress_of_prints left rfl prints] at returned
        cases returned
        exact Or.inr ⟨_, @eraseAllFrom_append_of_last _ _ _ _ '/' (by decide) (by decide) _ _ (Nat.zero_le _)⟩

/-- The archive answers for a path. -/
def Answers (run : Uncompression folder) (i : folder.Index) (path : Str) : Prop :=
  ∃ bytes ∈ run.contents i, i.EndsIn (hashText (folder.meowHash bytes)) path

instance (path : Str) : Decidable (run.Answers i path) := inferInstanceAs (Decidable (∃ _ ∈ _, _))

/-- The results that end in a listed path. -/
theorem endsWithPath_iff {result : Str} (returned : run.uncompressAndGenerateHash i = some result)
    (path : Str) : endsWithPath (strip path) (eraseAll tmp result) ↔ run.Answers i path := by
  cases contents : run.contents i with
  | none =>
    have noEnd : ¬ endsWithPath (strip path) (eraseAll tmp result) := by
      rw [endsWithPath, decide_eq_true_iff]
      obtain empty | ⟨s, lineFeed⟩ := eraseAll_of_no_contents contents returned
      · simp [empty]
      · rw [lineFeed, List.suffix_concat_iff]
        rintro (empty | ⟨t, split, -⟩)
        · cases empty
        · cases t with
          | nil => exact absurd (List.cons.inj split).1 (by decide)
          | cons c t => exact strip_ne_concat (by decide) path t (List.cons.inj split).2
    simp [Answers, contents, noEnd]
  | some bytes =>
    have line := eraseAll_of_contents contents returned
    simp [Answers, contents, line, endsWithPath_hashStr, ArchiveFolder.Index.EndsIn]

theorem isIn_strOfList_iff {bytes : Bytes} {result : Str} (contents : run.contents i = some bytes)
    (returned : run.uncompressAndGenerateHash i = some result) {value : Str} (noBlank : ' ' ∉ value) :
    value <:+: strOfList folder.isprintable (eraseAll tmp result) ↔
      i.Shows (hashText (folder.meowHash bytes)) value := by
  rw [eraseAll_of_contents contents returned, isIn_strOfList_hashStr folder.isprintable noBlank]
  rfl

/-! ## The lines that pass -/

theorem itemOf_filehashvalue (line : Str) : (itemOf line).filehashvalue = (listedOf line).value := rfl

theorem itemOf_filepath (line : Str) : (itemOf line).filepath = strip (listedOf line).path := by
  have lineFeeds : ∀ c, (c == '\n') = true → isspace c = true := by
    intro c lineFeed
    rw [beq_iff_eq.mp lineFeed]
    decide
  exact (strip_rdropWhile lineFeeds _).symm

/-- One archive alone answers the line, and shows the value. -/
def Accepts (run : Uncompression folder) (l : Listed) : Prop :=
  ∃ i, (∀ j, run.Answers j l.path ↔ j = i) ∧
    ∃ bytes ∈ run.contents i, i.Shows (hashText (folder.meowHash bytes)) l.value

/-- The line passes then, whatever the order of the results. -/
theorem passes_iff {results : List Str}
    (perm : (results.map some).Perm ((List.finRange folder.archives.length).map run.uncompressAndGenerateHash))
    (line : Str) :
    Passes folder.isprintable (results.map (eraseAll tmp)) (itemOf line) ↔ run.Accepts (listedOf line) := by
  let answer (i : folder.Index) : Str := (run.uncompressAndGenerateHash i).getD []
  have returned : ∀ i, run.uncompressAndGenerateHash i = some (answer i) := by
    intro i
    obtain ⟨result, -, same⟩ := List.mem_map.mp (perm.mem_iff.mpr (List.mem_map_of_mem (List.mem_finRange i)))
    simp only [answer, ← same, Option.getD_some]
  have answers : results.Perm ((List.finRange folder.archives.length).map answer) := by
    rw [List.map_congr_left fun i _ => returned i, ← Function.comp_def some answer, ← List.map_map] at perm
    exact (List.map_perm_map_iff (Option.some_injective _)).mp perm
  have isEnd : ∀ i ∈ List.finRange folder.archives.length,
      (endsWithPath (strip (listedOf line).path) ∘ (eraseAll tmp ∘ answer)) i =
        decide (run.Answers i (listedOf line).path) := by
    intro i _
    rw [Function.comp_apply, Function.comp_apply, Bool.eq_iff_iff, endsWithPath_iff (returned i), decide_eq_true_iff]
  have found : ((results.map (eraseAll tmp)).filter (endsWithPath (itemOf line).filepath)).Perm
      (((List.finRange folder.archives.length).filter (run.Answers · (listedOf line).path)).map fun i =>
        eraseAll tmp (answer i)) := by
    refine ((answers.map (eraseAll tmp)).filter _).trans (.of_eq ?_)
    rw [List.map_map, List.filter_map, itemOf_filepath, List.filter_congr isEnd]
    rfl
  constructor
  · rintro ⟨x, one, inside⟩
    rw [one, List.singleton_perm] at found
    obtain ⟨i, only, rfl⟩ := List.map_eq_singleton_iff.mp found.symm
    have alone : ∀ j, run.Answers j (listedOf line).path ↔ j = i := by
      intro j
      rw [← List.mem_singleton, ← only, List.mem_filter, decide_eq_true_iff]
      exact (and_iff_right (List.mem_finRange j)).symm
    obtain ⟨bytes, contents, -⟩ := (alone i).mpr rfl
    rw [itemOf_filehashvalue] at inside
    exact ⟨i, alone, bytes, contents,
      (isIn_strOfList_iff contents (returned i) (not_mem_partition _ _)).mp inside⟩
  · rintro ⟨i, alone, bytes, contents, shows⟩
    have only : (List.finRange folder.archives.length).filter (run.Answers · (listedOf line).path) = [i] := by
      have same : ∀ j ∈ List.finRange folder.archives.length,
          decide (run.Answers j (listedOf line).path) = decide (j = i) := fun j _ => by simp [alone j]
      rw [List.filter_congr same, List.filter_eq,
        List.count_eq_one_of_mem (List.nodup_finRange _) (List.mem_finRange i),
        List.replicate_one]
    rw [only, List.map_singleton, List.perm_singleton] at found
    refine ⟨_, found, ?_⟩
    exact (isIn_strOfList_iff contents (returned i) (not_mem_partition _ _)).mpr shows

theorem report_iff {results : List Str}
    (perm : (results.map some).Perm ((List.finRange folder.archives.length).map run.uncompressAndGenerateHash))
    {filehashes : Bytes} {v : Verification} (ends : folder.verify results filehashes = some v) :
    v.report = [allEqual] ↔ ∀ l ∈ listed filehashes, run.Accepts l := by
  obtain ⟨text, decoded, rfl⟩ := Option.map_eq_some_iff.mp ends
  rw [Verification.report_eq_iff, foldl_compareLine_allOK, listed, decoded, List.forall_mem_map]
  simp only [passes_iff perm]
  exact and_iff_right rfl

/-! ## Soundness -/

theorem output_of_contents {bytes : Bytes} (contents : run.contents i = some bytes) :
    ∃ removable, run.output i = some ⟨.contents bytes, removable⟩ := by
  rw [Uncompression.contents] at contents
  split at contents
  case h_1 bytes' removable left =>
    cases contents
    exact ⟨removable, left⟩
  case h_2 => cases contents

/-- What an archive with an output of its own is read as is what it restores to. -/
theorem restores_of_contents {bytes : Bytes} (own : i.Own) (contents : run.contents i = some bytes) :
    run.restores i.file = some bytes := by
  obtain ⟨removable, left⟩ := output_of_contents contents
  obtain ⟨cmd, command, exec⟩ := Option.bind_eq_some_iff.mp left
  exact run.exec_own i cmd bytes removable own command exec

theorem isSome_command_of_contents {bytes : Bytes} (contents : run.contents i = some bytes) :
    (folder.command i.file).isSome := by
  obtain ⟨removable, left⟩ := output_of_contents contents
  obtain ⟨cmd, command, -⟩ := Option.bind_eq_some_iff.mp left
  rw [command]
  rfl

theorem Accepts.comesBack {l : Listed} (accepts : run.Accepts l) (certain : folder.Certain l) : run.ComesBack l := by
  obtain ⟨i, alone, bytes, contents, shows⟩ := accepts
  obtain ⟨bytes', contents', ends⟩ := (alone i).mpr rfl
  cases contents.symm.trans contents'
  obtain ⟨path, value, own⟩ := certain i (isSome_command_of_contents contents) bytes ends shows
  exact ⟨i, path, bytes, restores_of_contents own contents, value⟩

theorem sound_of_certain {filehashes : Bytes} (certain : ∀ l ∈ listed filehashes, folder.Certain l) :
    run.Sound filehashes := by
  intro results v perm ends equal l mem
  exact ((report_iff perm ends).mp equal l mem).comesBack (certain l mem)

theorem isSome_verify (folder : ArchiveFolder) (results : List Str) {filehashes : Bytes} {text : Str}
    (decoded : readText filehashes = some text) : (folder.verify results filehashes).isSome := by
  rw [ArchiveFolder.verify, decoded]
  rfl

/-- A verify that goes through and is sound has an archive for every line it accepts. -/
theorem Sound.comesBack {filehashes : Bytes} (sound : run.Sound filehashes)
    (returns : ∀ i, (run.uncompressAndGenerateHash i).isSome)
    (accepts : ∀ l ∈ listed filehashes, run.Accepts l) : ∀ l ∈ listed filehashes, run.ComesBack l := by
  cases decoded : readText filehashes with
  | none => simp [listed, decoded]
  | some text =>
    have perm : (((List.finRange folder.archives.length).map fun i =>
        (run.uncompressAndGenerateHash i).getD []).map some).Perm
        ((List.finRange folder.archives.length).map run.uncompressAndGenerateHash) := by
      rw [List.map_map]
      refine .of_eq (List.map_congr_left fun i _ => ?_)
      obtain ⟨result, returned⟩ := Option.isSome_iff_exists.mp (returns i)
      simp [returned]
    obtain ⟨v, ends⟩ := Option.isSome_iff_exists.mp (isSome_verify folder _ decoded)
    exact sound _ v perm ends ((report_iff perm ends).mpr accepts)

/-! ## A run in which one archive answers -/

/-- The process of one archive finds something to hash, and the others fail. -/
def oneAnswer (i : folder.Index) (bytes : Bytes) (restores : Str → Option Bytes)
    (own : i.Own → restores i.file = some bytes) : Uncompression folder where
  restores := restores
  exec j _ := if j = i then some ⟨.contents bytes, true⟩ else none
  exec_own j cmd bytes' removable isOwn _ exec := by
    split at exec
    case isTrue same =>
      subst same
      cases exec
      exact own isOwn
    case isFalse => cases exec

section

variable {bytes : Bytes} {restores : Str → Option Bytes} {own : i.Own → restores i.file = some bytes}

theorem output_oneAnswer (command : (folder.command i.file).isSome) :
    (oneAnswer i bytes restores own).output i = some ⟨.contents bytes, true⟩ := by
  obtain ⟨cmd, command⟩ := Option.isSome_iff_exists.mp command
  rw [output, command]
  exact if_pos rfl

theorem output_oneAnswer_of_ne {j : folder.Index} (other : j ≠ i) :
    (oneAnswer i bytes restores own).output j = none := by
  rw [output, Option.bind_eq_none_iff]
  intro cmd _
  exact if_neg other

theorem oneAnswer_returns (command : (folder.command i.file).isSome) (j : folder.Index) :
    ((oneAnswer i bytes restores own).uncompressAndGenerateHash j).isSome := by
  by_cases same : j = i
  · subst same
    rw [uncompress_of_prints (output_oneAnswer command) rfl (hashOneFile_utf8Encode _ _ bytes)]
    rfl
  · rw [uncompressAndGenerateHash, output_oneAnswer_of_ne same]
    rfl

theorem oneAnswer_accepts (command : (folder.command i.file).isSome) {l : Listed}
    (ends : i.EndsIn (hashText (folder.meowHash bytes)) l.path)
    (shows : i.Shows (hashText (folder.meowHash bytes)) l.value) : (oneAnswer i bytes restores own).Accepts l := by
  have contents : (oneAnswer i bytes restores own).contents i = some bytes := by
    rw [Uncompression.contents, output_oneAnswer command]
  refine ⟨i, fun j => ⟨?_, ?_⟩, bytes, contents, shows⟩
  · rintro ⟨bytes', contents', -⟩
    by_contra other
    rw [Uncompression.contents, output_oneAnswer_of_ne other] at contents'
    cases contents'
  · rintro rfl
    exact ⟨bytes, contents, ends⟩

end

/-- Where another archive, another hash or another file can answer, the report can be wrong. -/
theorem exists_not_comesBack {l : Listed} (uncertain : ¬ folder.Certain l) : ∃ run : Uncompression folder,
    (∀ i, (run.uncompressAndGenerateHash i).isSome) ∧ run.Accepts l ∧ ¬ run.ComesBack l := by
  simp only [ArchiveFolder.Certain, not_forall] at uncertain
  obtain ⟨i, command, bytes, ends, shows, differs⟩ := uncertain
  by_cases own : i.Own
  · let restores (file : Str) : Option Bytes := if file = i.file then some bytes else none
    refine ⟨oneAnswer i bytes restores fun _ => if_pos rfl, oneAnswer_returns command,
      oneAnswer_accepts command ends shows, ?_⟩
    rintro ⟨j, path, content, back, value⟩
    have restored : restores j.file = some content := back
    by_cases same : j.file = i.file
    · rw [same] at path
      simp only [restores, if_pos same, Option.some.injEq] at restored
      exact differs ⟨path, by rw [restored, value], own⟩
    · simp only [restores, if_neg same] at restored
      cases restored
  · refine ⟨oneAnswer i bytes (fun _ => none) fun isOwn => absurd isOwn own, oneAnswer_returns command,
      oneAnswer_accepts command ends shows, ?_⟩
    rintro ⟨j, -, content, back, -⟩
    cases back

/-- The list of one line of a list. -/
theorem exists_single {filehashes : Bytes} {l : Listed} (mem : l ∈ listed filehashes) :
    ∃ single, listed single = [l] := by
  rw [listed] at mem
  split at mem
  case h_1 => cases mem
  case h_2 text decoded =>
    obtain ⟨line, inText, rfl⟩ := List.mem_map.mp mem
    obtain ⟨raw, -, rfl⟩ := Option.map_eq_some_iff.mp decoded
    obtain ⟨one, inside⟩ := lines_of_mem_linesFrom List.not_mem_nil inText
    have noReturn : '\r' ∉ line := by
      intro isReturn
      exact noReturn_translateNewlines raw ((inside _ isReturn).resolve_left List.not_mem_nil)
    refine ⟨utf8Encode line, ?_⟩
    rw [listed, readText, utf8Decode_utf8Encode, Option.map_some, translateNewlines_of_noReturn noReturn]
    simp only [one, List.map_singleton]

end Uncompression

namespace ArchiveFolder

/-- Whatever the archives restore to and however the run goes, the report is right for the list
and for every part of it. -/
def Verifies (folder : ArchiveFolder) (filehashes : Bytes) : Prop :=
  ∀ (run : Uncompression folder) (part : Bytes), (∀ l ∈ listed part, l ∈ listed filehashes) → run.Sound part

/-- A folder with one archive. -/
def oneArchive (archive : Str) (leftover : Str → Bool) : ArchiveFolder where
  inputArgument := "in".toList
  tools := "tools".toList
  files := ["in/filehashes.txt".toList, archive]
  filehashes_mem := List.mem_cons_self
  leftover := leftover
  meowHash _ := ⟨0, 0, 0, 0⟩
  isprintable _ := true

/-- The archive of `a b`, and nothing in `/tmp`. -/
def blankName : ArchiveFolder := oneArchive "in/a b.zpaq".toList fun _ => false

/-- The archive of `b`, and a file in its place in `/tmp`. -/
def keptFile : ArchiveFolder := oneArchive "in/b.zpaq".toList (· = "/tmp/b".toList)

/-- The hash of an empty file for `b`. -/
def onlyB : Str := hashStr (hashText ⟨0, 0, 0, 0⟩) ['b', '\n']

theorem not_sound_of_accepts {folder : ArchiveFolder} {run : Uncompression folder}
    (returns : ∀ i, (run.uncompressAndGenerateHash i).isSome)
    (accepts : run.Accepts ⟨hashText ⟨0, 0, 0, 0⟩, ['b']⟩) (lost : ¬ run.ComesBack ⟨hashText ⟨0, 0, 0, 0⟩, ['b']⟩) :
    ¬ run.Sound (utf8Encode onlyB) := by
  have lists : listed (utf8Encode onlyB) = [⟨hashText ⟨0, 0, 0, 0⟩, ['b']⟩] := by
    rw [listed, readText, utf8Decode_utf8Encode]
    decide
  intro sound
  have back := sound.comesBack returns (by rw [lists]; simpa using accepts)
  rw [lists, List.forall_mem_singleton] at back
  exact lost back

end ArchiveFolder
end BackupSuite.Python
