import BackupSuite.CtrlCenter.ParseBuffer

/-! # How zpaq cuts a file into fragments

`Jidac::add` ends a fragment where a rolling hash is small, at the largest size, or at
the end of the file.  A file that ends right behind a boundary gets an empty last
fragment.
-/

namespace BackupSuite.Zpaq

open BackupSuite.CtrlCenter

/-- `64u<<fragment`, with the default `fragment` of 6. -/
def MIN_FRAGMENT : Nat := 4096

/-- `8128u<<fragment` -/
def MAX_FRAGMENT : Nat := 520192

/-- What the reading loop keeps of the fragment's bytes so far. -/
structure Rolling where
  c1 : UInt8
  h : UInt32
  /-- the byte seen last behind each byte -/
  o1 : UInt8 → UInt8

def Rolling.start : Rolling := ⟨0, 0, fun _ => 0⟩

def Rolling.next (r : Rolling) (c : UInt8) : Rolling where
  c1 := c
  h :=
    if c = r.o1 r.c1 then (r.h + c.toUInt32 + 1) * 314159265
    else (r.h + c.toUInt32 + 1) * 271828182
  o1 := fun x => if x = r.c1 then c else r.o1 x

/-- The fragment ends behind this byte. -/
def Rolling.ends (r : Rolling) (sz : Nat) : Bool :=
  MAX_FRAGMENT ≤ sz || (r.h < 65536 && MIN_FRAGMENT ≤ sz)

/-- The fragments of what is left to read, with `fragbuf` read already. -/
def readFragments (fragbuf : Bytes) (r : Rolling) : Bytes → List Bytes
  | [] => [fragbuf]
  | c :: rest =>
    if (r.next c).ends (fragbuf.length + 1) then
      (fragbuf ++ [c]) :: readFragments [] .start rest
    else readFragments (fragbuf ++ [c]) (r.next c) rest

def fragments (content : Bytes) : List Bytes := readFragments [] .start content

theorem flatten_readFragments (fragbuf : Bytes) (r : Rolling) (rest : Bytes) :
    (readFragments fragbuf r rest).flatten = fragbuf ++ rest := by
  induction rest generalizing fragbuf r with
  | nil => simp [readFragments]
  | cons c rest ih =>
    rw [readFragments]
    split
    · rw [List.flatten_cons, ih]
      simp
    · rw [ih]
      simp

@[simp] theorem flatten_fragments (content : Bytes) : (fragments content).flatten = content :=
  flatten_readFragments [] .start content

theorem readFragments_ne_nil (fragbuf : Bytes) (r : Rolling) (rest : Bytes) :
    readFragments fragbuf r rest ≠ [] := by
  induction rest generalizing fragbuf r with
  | nil => simp [readFragments]
  | cons c rest ih =>
    rw [readFragments]
    split
    · simp
    · exact ih _ _

theorem fragments_ne_nil (content : Bytes) : fragments content ≠ [] :=
  readFragments_ne_nil [] .start content

/-- The content does not end at a boundary right behind a fragment of zeros. -/
def Sealed (content : Bytes) : Prop :=
  ∀ front z, fragments content = front ++ [z, []] → ∃ byte ∈ z, byte ≠ 0

theorem readFragments_of_short {fragbuf rest : Bytes} (r : Rolling)
    (short : fragbuf.length + rest.length < MIN_FRAGMENT) :
    readFragments fragbuf r rest = [fragbuf ++ rest] := by
  induction rest generalizing fragbuf r with
  | nil => simp [readFragments]
  | cons c rest ih =>
    rw [List.length_cons] at short
    have inside : (r.next c).ends (fragbuf.length + 1) = false := by
      rw [MIN_FRAGMENT] at short
      simp [Rolling.ends, MIN_FRAGMENT, MAX_FRAGMENT]
      omega
    rw [readFragments, inside, if_neg (by decide), ih]
    · simp
    · rw [List.length_append, List.length_singleton]
      omega

theorem fragments_of_short {content : Bytes} (short : content.length < MIN_FRAGMENT) :
    fragments content = [content] :=
  readFragments_of_short .start (by simpa using short)

theorem sealed_of_short {content : Bytes} (short : content.length < MIN_FRAGMENT) :
    Sealed content := by
  intro front z cut
  rw [fragments_of_short short] at cut
  have lengths := congrArg List.length cut
  simp at lengths

end BackupSuite.Zpaq
