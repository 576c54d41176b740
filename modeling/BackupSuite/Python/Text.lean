import Mathlib.Algebra.GroupWithZero.Nat
import Mathlib.Data.List.DropRight
import BackupSuite.CtrlCenter.ParseBuffer
import BackupSuite.Library.Utf8

/-! # Strings and text files of `ctrlcenter.py`

The string methods the script calls, on lists of characters, and files in text mode:
decoded strictly from UTF-8, with every line end read as a line feed.
-/

namespace BackupSuite.Python

open BackupSuite.Library BackupSuite.CtrlCenter

abbrev Str := List Char

/-! ## Methods -/

/-- What `strip` takes for whitespace. -/
def isspace (c : Char) : Bool :=
  let n := c.toNat
  (9 ≤ n && n ≤ 13) || (28 ≤ n && n ≤ 32) || n == 0x85 || n == 0xA0 || n == 0x1680 ||
    (0x2000 ≤ n && n ≤ 0x200A) || n == 0x2028 || n == 0x2029 || n == 0x202F || n == 0x205F || n == 0x3000

def strip (s : Str) : Str := (s.dropWhile isspace).rdropWhile isspace

/-- `str.partition` for a separator of one character. -/
def partition (sep : Char) (s : Str) : Str × Str × Str :=
  match s.dropWhile (· != sep) with
  | [] => (s, [], [])
  | c :: tail => (s.takeWhile (· != sep), [c], tail)

/-- `str.lower`, as far as ASCII goes. -/
def lower (s : Str) : Str := s.map Char.toLower

/-! ## `repr` -/

section

-- `str.isprintable` on characters outside ASCII
variable (isprintable : Char → Bool)

/-- `n` hexadecimal digits. -/
def hexDigits (n : Nat) (c : Char) : Str := (List.range n).reverse.map fun i => (c.toNat / 16 ^ i % 16).digitChar

def escape (quote c : Char) : Str :=
  if c = quote ∨ c = '\\' then ['\\', c]
  else if c = '\t' then ['\\', 't']
  else if c = '\n' then ['\\', 'n']
  else if c = '\r' then ['\\', 'r']
  else if c.toNat < 32 ∨ c.toNat = 127 then '\\' :: 'x' :: hexDigits 2 c
  else if c.toNat < 127 ∨ isprintable c then [c]
  else if c.toNat < 256 then '\\' :: 'x' :: hexDigits 2 c
  else if c.toNat < 65536 then '\\' :: 'u' :: hexDigits 4 c
  else '\\' :: 'U' :: hexDigits 8 c

/-- The quotes that `repr` chooses. -/
def quoteOf (s : Str) : Char := if '\'' ∈ s ∧ '"' ∉ s then '"' else '\''

def reprStr (s : Str) : Str := quoteOf s :: (s.flatMap (escape isprintable (quoteOf s)) ++ [quoteOf s])

/-- `str([s])` -/
def strOfList (s : Str) : Str := '[' :: (reprStr isprintable s ++ [']'])

end

/-! ## Paths -/

/-- `os.path.splitext` -/
def splitext (path : Str) : Str × Str :=
  let name := path.rtakeWhile (· != '/')
  let extension := name.rtakeWhile (· != '.')
  -- the dots that a name starts with do not count
  if '.' ∈ name ∧ (name.take (name.length - (extension.length + 1))).any (· != '.') then
    (path.take (path.length - (extension.length + 1)), '.' :: extension)
  else (path, [])

/-- `os.path.join` -/
def join (folder path : Str) : Str :=
  if path.head? = some '/' then path
  else if folder = [] ∨ folder.getLast? = some '/' then folder ++ path
  else folder ++ '/' :: path

/-! ## Files -/

/-- The line ends of a file in text mode. -/
def translateNewlines : Str → Str
  | [] => []
  | '\r' :: '\n' :: s => '\n' :: translateNewlines s
  | c :: s => (if c = '\r' then '\n' else c) :: translateNewlines s

/-- `f.read()`, where nothing is an exception. -/
def readText (content : Bytes) : Option Str := (utf8Decode content).map translateNewlines

def linesFrom : Str → Str → List Str
  | [], [] => []
  | line, [] => [line]
  | line, c :: s => if c = '\n' then (line ++ [c]) :: linesFrom [] s else linesFrom (line ++ [c]) s

/-- `for line in f` -/
def lines (text : Str) : List Str := linesFrom [] text

/-! ## Lemmas -/

theorem translateNewlines_of_noReturn {s : Str} (noReturn : '\r' ∉ s) : translateNewlines s = s := by
  induction s with
  | nil => rfl
  | cons c s ih =>
    rw [List.mem_cons, not_or] at noReturn
    have here : c ≠ '\r' := Ne.symm noReturn.1
    rw [translateNewlines, if_neg here, ih noReturn.2]
    intro s' isReturn
    exact absurd isReturn here

theorem linesFrom_line {line : Str} (noNewline : '\n' ∉ line) (before rest : Str) :
    linesFrom before (line ++ '\n' :: rest) = (before ++ line ++ ['\n']) :: lines rest := by
  induction line generalizing before with
  | nil => simp [linesFrom, lines]
  | cons c line ih =>
    rw [List.mem_cons, not_or] at noNewline
    rw [List.cons_append, linesFrom, if_neg (Ne.symm noNewline.1), ih noNewline.2]
    simp

theorem linesFrom_of_noNewline {line : Str} (noNewline : '\n' ∉ line) {before : Str} (nonempty : before ++ line ≠ []) :
    linesFrom before line = [before ++ line] := by
  induction line generalizing before with
  | nil =>
    cases before with
    | nil => exact absurd rfl nonempty
    | cons c before => simp [linesFrom]
  | cons c line ih =>
    rw [List.mem_cons, not_or] at noNewline
    rw [linesFrom, if_neg (Ne.symm noNewline.1), ih noNewline.2 (by simp), List.append_assoc, List.singleton_append]

@[simp] theorem lines_nil : lines [] = [] := rfl

theorem lines_line {line : Str} (noNewline : '\n' ∉ line) (rest : Str) :
    lines (line ++ '\n' :: rest) = (line ++ ['\n']) :: lines rest :=
  linesFrom_line noNewline [] rest

theorem noReturn_translateNewlines (s : Str) : '\r' ∉ translateNewlines s := by
  fun_induction translateNewlines s with
  | case1 => simp
  | case2 s ih => simpa using ih
  | case3 c s _ ih =>
    rw [List.mem_cons, not_or]
    refine ⟨?_, ih⟩
    split
    next => decide
    next other => exact Ne.symm other

/-- A line of a text is the only line of itself. -/
theorem lines_of_mem_linesFrom {before s line : Str} (noNewline : '\n' ∉ before)
    (mem : line ∈ linesFrom before s) : lines line = [line] ∧ ∀ c ∈ line, c ∈ before ∨ c ∈ s := by
  induction s generalizing before with
  | nil =>
    cases before with
    | nil => cases mem
    | cons c before =>
      obtain rfl : line = c :: before := List.mem_singleton.mp mem
      exact ⟨linesFrom_of_noNewline noNewline (by simp), fun d inside => Or.inl inside⟩
  | cons c s ih =>
    rw [linesFrom] at mem
    split at mem
    case isTrue newline =>
      subst newline
      rcases List.mem_cons.mp mem with rfl | later
      · refine ⟨lines_line noNewline [], fun d inside => ?_⟩
        rcases List.mem_append.mp inside with front | last
        · exact Or.inl front
        · exact Or.inr (List.mem_singleton.mp last ▸ List.mem_cons_self)
      · obtain ⟨one, inside⟩ := ih (List.not_mem_nil) later
        refine ⟨one, fun d mem => Or.inr (List.mem_cons_of_mem _ ?_)⟩
        exact (inside d mem).resolve_left List.not_mem_nil
    case isFalse other =>
      have noNewline' : '\n' ∉ before ++ [c] := by
        rw [List.mem_append, List.mem_singleton, not_or]
        exact ⟨noNewline, Ne.symm other⟩
      obtain ⟨one, inside⟩ := ih noNewline' mem
      refine ⟨one, fun d mem => ?_⟩
      rcases inside d mem with front | later
      · rcases List.mem_append.mp front with front | last
        · exact Or.inl front
        · exact Or.inr (List.mem_singleton.mp last ▸ List.mem_cons_self)
      · exact Or.inr (List.mem_cons_of_mem _ later)

theorem partition_append {sep : Char} {head : Str} (noSep : sep ∉ head) (tail : Str) :
    partition sep (head ++ sep :: tail) = (head, [sep], tail) := by
  have clean : ∀ c ∈ head, (c != sep) = true := by
    intro c mem
    have ne : c ≠ sep := fun h => noSep (h ▸ mem)
    simpa using ne
  have behind : (head ++ sep :: tail).dropWhile (· != sep) = sep :: tail := by
    rw [List.dropWhile_append_of_pos clean]
    simp
  rw [partition, behind]
  simp only [List.takeWhile_append_of_pos clean]
  simp

theorem not_mem_partition (sep : Char) (s : Str) : sep ∉ (partition sep s).1 := by
  have front : sep ∉ s.takeWhile (· != sep) := by
    intro mem
    simpa using List.mem_takeWhile_imp mem
  rw [partition]
  split
  case h_1 nothing =>
    rwa [← List.takeWhile_append_dropWhile (p := (· != sep)) (l := s), nothing, List.append_nil]
  case h_2 => exact front

theorem strip_concat {c : Char} (space : isspace c = true) (s : Str) : strip (s ++ [c]) = strip s := by
  rw [strip, strip]
  by_cases all : ∀ a ∈ s, isspace a = true
  · have nothing : s.dropWhile isspace = [] := List.dropWhile_eq_nil_iff.mpr all
    rw [List.dropWhile_append_of_pos all, nothing]
    simp [space]
  · have some : s.dropWhile isspace ≠ [] := fun empty => all (List.dropWhile_eq_nil_iff.mp empty)
    rw [List.dropWhile_append, if_neg (by simpa using some), List.rdropWhile_concat_pos _ _ _ space]

theorem strip_rdropWhile {p : Char → Bool} (spaces : ∀ c, p c = true → isspace c = true) (s : Str) :
    strip (s.rdropWhile p) = strip s := by
  induction s using List.reverseRecOn with
  | nil => rfl
  | append_singleton s c ih =>
    rw [List.rdropWhile_concat]
    split
    case isTrue dropped => rw [ih, strip_concat (spaces c dropped)]
    case isFalse => rfl

theorem rdropWhile_append_of_last {p : Char → Bool} {front : Str} {c : Char} (last : front.getLast? = some c)
    (kept : p c = false) (rest : Str) : (front ++ rest).rdropWhile p = front ++ rest.rdropWhile p := by
  induction rest using List.reverseRecOn with
  | nil =>
    obtain ⟨before, rfl⟩ := List.getLast?_eq_some_iff.mp last
    simp [kept]
  | append_singleton rest d ih =>
    rw [← List.append_assoc, List.rdropWhile_concat, List.rdropWhile_concat]
    split
    case isTrue => exact ih
    case isFalse => exact List.append_assoc _ _ _

/-- Where the front ends in a letter that is no whitespace, each end is stripped on its own. -/
theorem strip_append {front : Str} {c : Char} (last : front.getLast? = some c) (solid : isspace c = false)
    (rest : Str) : strip (front ++ rest) = front.dropWhile isspace ++ rest.rdropWhile isspace := by
  obtain ⟨before, rfl⟩ := List.getLast?_eq_some_iff.mp last
  have stays : (before ++ [c]).dropWhile isspace = before.dropWhile isspace ++ [c] := by
    rw [List.dropWhile_append]
    split
    next empty => simp [List.isEmpty_iff.mp empty, solid]
    next => rfl
  have nonempty : (before ++ [c]).dropWhile isspace ≠ [] := by simp [stays]
  rw [strip, List.dropWhile_append, if_neg (by simpa using nonempty)]
  exact rdropWhile_append_of_last (by rw [stays]; simp) solid rest

theorem strip_sublist (s : Str) : (strip s).Sublist s :=
  (List.rdropWhile_prefix _ _).sublist.trans (List.dropWhile_sublist _)

theorem strip_strip (s : Str) : strip (strip s) = strip s := by
  have start : Stops isspace (s.dropWhile isspace) := stops_advance isspace s
  have front : (strip s).dropWhile isspace = strip s :=
    advance_of_stops (start.of_isFront (List.rdropWhile_prefix _ _))
  rw [strip, front]
  exact List.rdropWhile_idempotent _ _

theorem strip_ne_concat {c : Char} (space : isspace c = true) (s t : Str) : strip s ≠ t ++ [c] := by
  intro stripped
  have again := strip_strip s
  rw [stripped, strip_concat space] at again
  have short := (strip_sublist t).length_le
  rw [again, List.length_append, List.length_singleton] at short
  omega

end BackupSuite.Python
