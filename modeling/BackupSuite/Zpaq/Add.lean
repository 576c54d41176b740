import BackupSuite.Zpaq.Archive

/-! # The add command

`zpaq a archive file`, with no other option that matters here: the file is compared with
its index entry by date and size, its fragments are looked up by hash, and what the
pattern `file` selects besides it is deleted.  `Added` is what an add leaves.
-/

namespace BackupSuite.Zpaq

open BackupSuite.Library BackupSuite.CtrlCenter

/-- A file on disk, and whether `lstat` finds a regular one. -/
structure ExternalFile where
  content : Bytes
  mtime : Int
  mode : UInt16
  regular : Bool

namespace ExternalFile

variable (file : ExternalFile)

def date : Int := decimal_time file.mtime

/-- `'u'+(sb.st_mode<<8)` -/
def attr : Nat := 117 + 256 * file.mode.toNat

def size : Nat := file.content.length

end ExternalFile

/-- Where `add` starts new blocks, which depends on sizes and on what the fragments have
in common; a block is never empty. -/
structure BlockSplit where
  split : List Bytes → List (List Bytes)
  flatten : ∀ frags, (split frags).flatten = frags
  nonempty : ∀ frags, ∀ block ∈ split frags, block ≠ []

/-- The numbers of a file's fragments, and the fragments with the new ones behind. -/
def addFragments (sha1 : Bytes → Bytes) (ht : List Bytes) : List Bytes → List Nat × List Bytes
  | [] => ([], ht)
  | f :: rest =>
    let htptr := find sha1 ht f
    if htptr = 0 then
      let (ptr, grown) := addFragments sha1 (ht ++ [f]) rest
      (ht.length :: ptr, grown)
    else
      let (ptr, grown) := addFragments sha1 ht rest
      (htptr :: ptr, grown)

/-- An update without anything in it is cut off again. -/
def append (archive : Archive) (update : Update) : Archive :=
  if update.blocks = [] ∧ update.index = [] then archive else archive ++ [update]

/-- The file is new, or has another date or size. -/
def compresses (filename : Bytes) (file : ExternalFile) (c : Contents) : Bool :=
  file.date ≠ 0 && isFileName filename &&
    match lookup Member.name filename c.dt with
    | none => true
    | some a => file.date ≠ a.date || file.size ≠ c.size a.ptr

/-- The index entry of the file, if it needs one. -/
def indexEntry (filename : Bytes) (file : ExternalFile) (c : Contents) (data : Bool)
    (ptr : List Nat) : List Member :=
  if file.date = 0 then []
  else
    match lookup Member.name filename c.dt with
    | none => [⟨filename, file.date, file.attr, ptr⟩]
    | some a =>
      if a.date ≠ file.date ∨ (a.attr ≠ 0 ∧ a.attr ≠ file.attr) ∨ c.size a.ptr ≠ file.size ∨
          (data ∧ a.ptr ≠ ptr) then
        [⟨filename, file.date, file.attr, if data then ptr else a.ptr⟩]
      else []

/-- The deletions: of all files that are read, unless it is the one that was found. -/
def deletions (filename : Bytes) (found : Bool) (c : Contents) : List Member :=
  (c.files.filter fun p => p.date ≠ 0 && !(found && p.name = filename)).map fun p =>
    deletion p.name

/-- `a archive filename`; the scanned paths have no slash at their end. -/
def add (sha1 : Bytes → Bytes) (split : BlockSplit) (filename : Bytes) (file : ExternalFile)
    (archive : Archive) : Archive :=
  let c := read_archive (ispath filename) archive
  -- `scandir` takes regular files only, and `addfile` what the pattern selects
  let found := file.regular && ispath filename filename
  if found then
    let data := compresses filename file c
    let (ptr, ht) := if data then addFragments sha1 c.ht (fragments file.content) else ([], c.ht)
    append archive
      { blocks := split.split (ht.drop c.ht.length)
        index := deletions filename found c ++ indexEntry filename file c data ptr }
  else append archive ⟨[], deletions filename found c⟩

/-! ## Numbering the fragments -/

/-- The pointers are numbers of the file's fragments, unless two different ones have
the same hash. -/
theorem addFragments_spec (sha1 : Bytes → Bytes) {ht : List Bytes} (some : ht ≠ [])
    (frags : List Bytes)
    (noCollision : ∀ f ∈ frags, ∀ g ∈ ht.tail ++ frags, sha1 g = sha1 f → g = f) :
    ∃ new, (addFragments sha1 ht frags).2 = ht ++ new ∧
      (∀ j ∈ (addFragments sha1 ht frags).1, 0 < j ∧ j < (ht ++ new).length) ∧
      (addFragments sha1 ht frags).1.map (fun j => (ht ++ new).getD j []) = frags := by
  induction frags generalizing ht with
  | nil => exact ⟨[], (List.append_nil ht).symm, fun _ mem => (by cases mem), rfl⟩
  | cons f rest ih =>
    rw [addFragments]
    rcases find_cases sha1 ht f with absent | ⟨positive, bound, g, stored, here, hash⟩
    · -- the fragment gets the next number
      simp only [absent, if_true]
      obtain ⟨new, grown, inRange, frags⟩ := @ih (ht ++ [f]) (by simp) (by
        intro f' mem g mem' hash
        refine noCollision f' (List.mem_cons_of_mem _ mem) g ?_ hash
        rw [List.tail_append_of_ne_nil some] at mem'
        simpa [or_assoc] using mem')
      rw [List.append_assoc, List.singleton_append] at grown inRange frags
      refine ⟨f :: new, grown, fun j mem => ?_, ?_⟩
      · cases mem with
        | head =>
          have positive := List.length_pos_iff.mpr some
          rw [List.length_append, List.length_cons]
          omega
        | tail _ mem => exact inRange j mem
      · rw [List.map_cons, frags]
        simp
    · have known : g = f :=
        noCollision f List.mem_cons_self g (List.mem_append_left _ stored) hash
      simp only [if_neg (Nat.ne_of_gt positive)]
      obtain ⟨new, grown, inRange, frags⟩ := ih some fun f' mem g mem' =>
        noCollision f' (List.mem_cons_of_mem _ mem) g (by
          cases List.mem_append.mp mem' with
          | inl old => exact List.mem_append_left _ old
          | inr own => exact List.mem_append_right _ (List.mem_cons_of_mem _ own))
      refine ⟨new, grown, fun j mem => ?_, ?_⟩
      · cases mem with
        | head =>
          rw [List.length_append]
          omega
        | tail _ mem => exact inRange j mem
      · rw [List.map_cons, frags, List.getD_eq_getElem?_getD, List.getElem?_append_left bound,
          ← List.getD_eq_getElem?_getD, here, known]

/-! ## What an add leaves -/

theorem contents_append (archive : Archive) (update : Update) :
    contents (append archive update) =
      { ht := (contents archive).ht ++ update.blocks.flatten
        block := (contents archive).block ++ layout (contents archive).ht.length update.blocks
        dt := putAll Member.name update.index (contents archive).dt } := by
  rw [append]
  split
  · next nothing =>
    obtain ⟨blocks, index⟩ := nothing
    simp [blocks, index]
  · rw [contents, read_archive_concat]
    simp

theorem BlockSplit.split_nil (split : BlockSplit) : split.split [] = [] := by
  have flat := split.flatten []
  cases blocks : split.split [] with
  | nil => rfl
  | cons b rest =>
    have some := split.nonempty [] b (by simp [blocks])
    rw [blocks, List.flatten_cons, List.append_eq_nil_iff] at flat
    exact (some flat.1).elim

/-- The archive before an add: its numbers are those of fragments, and each file is cut
as `add` cuts files. -/
structure WellFormed (archive : Archive) : Prop where
  inRange : ∀ p ∈ (contents archive).dt, ∀ j ∈ p.ptr, 0 < j ∧ j < (contents archive).ht.length
  cut : ∀ p ∈ (contents archive).dt, p.date ≠ 0 →
    ∃ content, p.ptr.map (contents archive).frag = fragments content
  named : ∀ p ∈ (contents archive).dt, p.date ≠ 0 → isFileName p.name = true

theorem wellFormed_nil : WellFormed [] :=
  ⟨(fun _ mem => by cases mem), (fun _ mem => by cases mem), (fun _ mem => by cases mem)⟩

/-- A regular file that `add` takes: no two fragments share a hash, and where date and
size are those of the file's entry the content is too. -/
structure Noticed (sha1 : Bytes → Bytes) (filename : Bytes) (file : ExternalFile)
    (archive : Archive) : Prop where
  regular : file.regular = true
  dated : file.date ≠ 0
  named : isFileName filename = true
  noCollision : ∀ f ∈ fragments file.content,
    ∀ g ∈ (contents archive).ht.tail ++ fragments file.content, sha1 g = sha1 f → g = f
  changed : ∀ a ∈ (contents archive).dt, a.name = filename → a.date = file.date →
    (contents archive).size a.ptr = file.size →
    a.ptr.flatMap (contents archive).frag = file.content

/-- What an add leaves: new blocks behind the old ones, the file with its fragments, and
of the other files those that the pattern does not select. -/
structure Added (filename : Bytes) (file : ExternalFile) (archive after : Archive)
    (new : List (List Bytes)) (q : Member) : Prop where
  ht : (contents after).ht = (contents archive).ht ++ new.flatten
  block : (contents after).block =
    (contents archive).block ++ layout (contents archive).ht.length new
  mem : q ∈ (contents after).dt
  name : q.name = filename
  dated : q.date ≠ 0
  inRange : ∀ j ∈ q.ptr, 0 < j ∧ j < (contents after).ht.length
  frags : q.ptr.map (contents after).frag = fragments file.content
  others : ∀ p ∈ (contents after).dt, p.name ≠ filename →
    p = deletion p.name ∨
      p ∈ (contents archive).dt ∧ (p.date = 0 ∨ ispath filename p.name = false)

section Index

variable {filename : Bytes} {archive : Archive}

theorem mem_deletions {found : Bool} {c : Contents} {d : Member}
    (mem : d ∈ deletions filename found c) :
    ∃ p ∈ c.files, d = deletion p.name ∧ (found = true → p.name ≠ filename) := by
  obtain ⟨p, inside, rfl⟩ := List.mem_map.mp mem
  obtain ⟨file, kept⟩ := List.mem_filter.mp inside
  refine ⟨p, file, rfl, ?_⟩
  rintro rfl same
  simp [same] at kept

theorem others_of_index {entry : List Member} (own : ∀ e ∈ entry, e.name = filename) {p : Member}
    (mem : p ∈ putAll Member.name
      (deletions filename true (read_archive (ispath filename) archive) ++ entry)
      (contents archive).dt)
    (other : p.name ≠ filename) :
    p = deletion p.name ∨
      p ∈ (contents archive).dt ∧ (p.date = 0 ∨ ispath filename p.name = false) := by
  -- the entries of the file are under its own name, so the member is a deletion or an old one
  have found := lookup_of_mem (nodup_keys_putAll (nodup_dt _ archive)) mem
  have notOwn : lastWith Member.name p.name entry = none := by
    rw [lastWith_eq_none]
    intro inside
    obtain ⟨e, inside, name⟩ := List.mem_map.mp inside
    exact other (name.symm.trans (own e inside))
  rw [lookup_putAll, lastWith_append, notOwn, Option.none_or] at found
  cases deleted : lastWith Member.name p.name
      (deletions filename true (read_archive (ispath filename) archive)) with
  | some d =>
    left
    rw [deleted, Option.some_or] at found
    cases found
    obtain ⟨r, -, rfl, -⟩ := mem_deletions (List.mem_reverse.mp (mem_of_lookup deleted))
    rfl
  | none =>
    right
    rw [deleted, Option.none_or] at found
    have inside := mem_of_lookup found
    refine ⟨inside, ?_⟩
    by_contra both
    rw [not_or] at both
    obtain ⟨live, selected⟩ := both
    have loaded : lookup Member.name p.name (read_archive (ispath filename) archive).dt = some p := by
      rw [lookup_selected, if_pos (by simpa using selected), found]
    have file := (mem_files (ispath filename) archive).mpr (mem_of_lookup loaded)
    rw [lastWith_eq_none] at deleted
    apply deleted
    refine List.mem_map.mpr ⟨deletion p.name, List.mem_map.mpr ⟨p, ?_, rfl⟩, rfl⟩
    simp [List.mem_filter, file, live, other]

theorem own_of_index (entry : List Member) :
    lookup Member.name filename (putAll Member.name
      (deletions filename true (read_archive (ispath filename) archive) ++ entry)
      (contents archive).dt) =
    (lastWith Member.name filename entry).or (lookup Member.name filename (contents archive).dt) := by
  have kept : lastWith Member.name filename
      (deletions filename true (read_archive (ispath filename) archive)) = none := by
    rw [lastWith_eq_none]
    intro mem
    obtain ⟨d, inside, name⟩ := List.mem_map.mp mem
    obtain ⟨p, -, rfl, other⟩ := mem_deletions inside
    exact other rfl name
  rw [lookup_putAll, lastWith_append, kept, Option.or_none]

end Index

section Add

variable {sha1 : Bytes → Bytes} {filename : Bytes} {file : ExternalFile} {archive : Archive}

theorem indexEntry_of_compresses {c : Contents} (compressed : compresses filename file c = true)
    (ptr : List Nat) :
    indexEntry filename file c true ptr = [⟨filename, file.date, file.attr, ptr⟩] := by
  rw [compresses] at compressed
  simp only [Bool.and_eq_true, decide_eq_true_eq] at compressed
  obtain ⟨⟨dated, -⟩, differs⟩ := compressed
  rw [indexEntry, if_neg dated]
  cases known : lookup Member.name filename c.dt with
  | none => rfl
  | some a =>
    rw [known] at differs
    simp only [Bool.or_eq_true, decide_eq_true_eq] at differs
    simp only
    rw [if_pos, if_pos trivial]
    cases differs with
    | inl date => exact Or.inl (Ne.symm date)
    | inr size => exact Or.inr (Or.inr (Or.inl (Ne.symm size)))

theorem known_of_not_compresses {c : Contents} (dated : file.date ≠ 0)
    (named : isFileName filename = true) (uncompressed : compresses filename file c = false) :
    ∃ a, lookup Member.name filename c.dt = some a ∧ a.date = file.date ∧
      c.size a.ptr = file.size := by
  rw [compresses] at uncompressed
  cases known : lookup Member.name filename c.dt with
  | none => simp [known, dated, named] at uncompressed
  | some a =>
    simp [known, dated, named] at uncompressed
    exact ⟨a, rfl, uncompressed.1.symm, uncompressed.2.symm⟩

theorem indexEntry_of_not_compresses {c : Contents} (dated : file.date ≠ 0) {a : Member}
    (known : lookup Member.name filename c.dt = some a) :
    indexEntry filename file c false [] = [] ∨
      indexEntry filename file c false [] = [⟨filename, file.date, file.attr, a.ptr⟩] := by
  rw [indexEntry, if_neg dated, known]
  simp only
  split
  · exact Or.inr rfl
  · exact Or.inl rfl

/-- An update with these blocks, the deletions and an entry that gives `q`. -/
theorem added_of_index {new : List (List Bytes)} {entry : List Member} {q : Member}
    (own : ∀ e ∈ entry, e.name = filename)
    (found : (lastWith Member.name filename entry).or
      (lookup Member.name filename (contents archive).dt) = some q)
    (dated : q.date ≠ 0)
    (inRange : ∀ j ∈ q.ptr, 0 < j ∧ j < ((contents archive).ht ++ new.flatten).length)
    (frags : q.ptr.map (fun j => ((contents archive).ht ++ new.flatten).getD j []) =
      fragments file.content) :
    Added filename file archive
      (append archive ⟨new, deletions filename true (read_archive (ispath filename) archive) ++ entry⟩)
      new q := by
  have after := contents_append archive
    ⟨new, deletions filename true (read_archive (ispath filename) archive) ++ entry⟩
  rw [← own_of_index entry] at found
  constructor
  case ht => rw [after]
  case block => rw [after]
  case mem =>
    rw [after]
    exact mem_of_lookup found
  case name => exact key_of_lookup found
  case dated => exact dated
  case inRange =>
    rw [after]
    exact inRange
  case frags =>
    rw [after]
    exact frags
  case others =>
    rw [after]
    exact fun p mem other => others_of_index own mem other

theorem add_added (split : BlockSplit) (wf : WellFormed archive)
    (noticed : Noticed sha1 filename file archive) :
    ∃ new q, Added filename file archive (add sha1 split filename file archive) new q := by
  rw [add]
  simp only [noticed.regular, ispath_self, Bool.and_self, if_true]
  cases data : compresses filename file (read_archive (ispath filename) archive) with
  | true =>
    have nonempty : (contents archive).ht ≠ [] := List.cons_ne_nil _ _
    obtain ⟨grown, table, inRange, frags⟩ := addFragments_spec sha1 nonempty
      (fragments file.content) noticed.noCollision
    have blocks : (split.split (((addFragments sha1 (contents archive).ht
        (fragments file.content)).2).drop (contents archive).ht.length)).flatten = grown := by
      rw [split.flatten, table, List.drop_left]
    have loaded : (read_archive (ispath filename) archive).ht = (contents archive).ht := rfl
    simp only [if_true, loaded]
    rw [indexEntry_of_compresses data]
    refine ⟨_, ⟨filename, file.date, file.attr,
        (addFragments sha1 (contents archive).ht (fragments file.content)).1⟩,
      added_of_index (fun e mem => by rw [List.mem_singleton.mp mem]) ?_ noticed.dated ?_ ?_⟩
    · simp [lastWith_cons]
    · rwa [blocks]
    · rwa [blocks]
  | false =>
    simp only [Bool.false_eq_true, if_false, List.drop_length, split.split_nil]
    obtain ⟨a, known, date, size⟩ := known_of_not_compresses noticed.dated noticed.named data
    have loaded : lookup Member.name filename (contents archive).dt = some a := by
      rw [lookup_selected, if_pos (ispath_self filename)] at known
      exact known
    have mem := mem_of_lookup loaded
    have live : a.date ≠ 0 := by
      rw [date]
      exact noticed.dated
    -- the entry has the file's date and size, so it has its content and its fragments
    have content := noticed.changed a mem (key_of_lookup loaded) date size
    obtain ⟨content', cut⟩ := wf.cut a mem live
    have same : content' = file.content := by
      rw [← content, List.flatMap_def, cut, flatten_fragments]
    rw [same] at cut
    have table : (contents archive).ht ++ ([] : List (List Bytes)).flatten =
        (contents archive).ht := List.append_nil _
    have inRange := wf.inRange a mem
    cases indexEntry_of_not_compresses noticed.dated known with
    | inl none =>
      rw [none]
      refine ⟨[], a, added_of_index (fun _ mem => by cases mem) (by simpa using loaded) live ?_ ?_⟩
      · rwa [table]
      · rwa [table]
    | inr renewed =>
      rw [renewed]
      refine ⟨[], ⟨filename, file.date, file.attr, a.ptr⟩,
        added_of_index (fun e mem => by rw [List.mem_singleton.mp mem]) ?_ noticed.dated ?_ ?_⟩
      · simp [lastWith_cons]
      · rwa [table]
      · rwa [table]

end Add

end BackupSuite.Zpaq
