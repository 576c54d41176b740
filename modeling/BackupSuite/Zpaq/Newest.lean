import BackupSuite.Zpaq.Add
import BackupSuite.Zpaq.ExtractBlocks

/-! # Extracting what was added last

After an add that noticed the file's content, the extraction gives that content, provided
that the other files which stay in the archive do not come in between (`Apart`) and that
the end of the content is written (`Sealed`).
-/

namespace BackupSuite.Zpaq

open BackupSuite.Library BackupSuite.CtrlCenter

/-- An add of `filename` leaves this file in the archive. -/
structure Stays (filename : Bytes) (p : Member) : Prop where
  live : p.date ≠ 0
  other : p.name ≠ filename
  unselected : ispath filename p.name = false

/-- The files that stay have their fragments before the first block that has one of the
content, and modes that let the output be opened again. -/
structure Apart (opens : Nat → Bool) (filename content : Bytes) (archive : Archive) : Prop where
  readable : ∀ p ∈ (contents archive).dt, Stays filename p → p.attr % 256 = 117 →
    opens (p.attr / 256) = true
  before : ∀ p ∈ (contents archive).dt, Stays filename p → ∀ b ∈ (contents archive).block,
    (∃ f ∈ b.frags, f ∈ fragments content) → ∀ j ∈ p.ptr, j < b.start

variable {opens : Nat → Bool} {filename : Bytes} {file : ExternalFile} {archive after : Archive}
  {new : List (List Bytes)} {q : Member}

theorem mem_labelled {c : Contents} {p : Member} (mem : p ∈ labelled c) :
    p ∈ c.files ∧ p.date ≠ 0 := by
  rw [labelled] at mem
  split at mem
  · cases mem
  · obtain ⟨file, kept⟩ := List.mem_filter.mp mem
    simp only [Bool.and_eq_true, decide_eq_true_eq] at kept
    exact ⟨file, kept.1.1⟩

theorem nodup_labelled (archive : Archive) : (labelled (contents archive)).Nodup := by
  have files : (contents archive).files.Nodup :=
    (List.perm_insertionSort _ _).nodup_iff.mpr (List.Nodup.of_map _ (nodup_dt _ archive))
  rw [labelled]
  split
  · exact List.nodup_nil
  · exact files.filter _

/-- The other files of the extraction are old ones that stayed. -/
theorem Added.stays (added : Added filename file archive after new q) {p : Member}
    (mem : p ∈ labelled (contents after)) (ne : p ≠ q) :
    p ∈ (contents archive).dt ∧ Stays filename p := by
  obtain ⟨inFiles, live⟩ := mem_labelled mem
  have inside := (mem_files _ after).mp inFiles
  have other : p.name ≠ filename := by
    rw [← added.name]
    exact fun same => ne (List.inj_on_of_nodup_map (nodup_dt _ after) inside added.mem same)
  rcases added.others p inside other with deleted | ⟨old, gone | unselected⟩
  · rw [deleted] at live
    exact (live rfl).elim
  · exact (live gone).elim
  · exact ⟨old, live, other, unselected⟩

theorem Added.ptr_ne_nil (added : Added filename file archive after new q) : q.ptr ≠ [] := by
  intro none
  have frags := added.frags
  rw [none] at frags
  exact fragments_ne_nil _ frags.symm

theorem Added.mem_labelled (added : Added filename file archive after new q)
    (named : isFileName filename = true) : q ∈ labelled (contents after) := by
  have blocks : (contents after).block ≠ [] := by
    obtain ⟨j, mem⟩ := List.exists_mem_of_ne_nil _ added.ptr_ne_nil
    obtain ⟨low, high⟩ := added.inRange j mem
    obtain ⟨b, inside, -⟩ := contents_exists_block low high
    exact List.ne_nil_of_mem inside
  rw [labelled, if_neg blocks, List.mem_filter]
  refine ⟨(mem_files _ after).mpr added.mem, ?_⟩
  have inRange : (q.ptr.all fun j => 0 < j && j < (contents after).ht.length) = true := by
    rw [List.all_eq_true]
    exact fun j mem => by simpa using added.inRange j mem
  simp [added.dated, added.name, named, inRange]

theorem Added.old_block (added : Added filename file archive after new q) {j : Nat}
    (mem : j ∈ q.ptr) (old : j < (contents archive).ht.length) :
    ∃ b ∈ (contents archive).block, b.Has j ∧ ∃ f ∈ b.frags, f ∈ fragments file.content := by
  have low := (added.inRange j mem).1
  obtain ⟨b, inside, has⟩ := contents_exists_block low old
  refine ⟨b, inside, has, (contents archive).frag j, ?_, ?_⟩
  · exact List.mem_of_getElem? (read_archive_stored archive b inside j has)
  · have same : (contents after).frag j = (contents archive).frag j := by
      rw [Contents.frag, added.ht, List.getD_eq_getElem?_getD, List.getElem?_append_left old,
        ← List.getD_eq_getElem?_getD]
      rfl
    rw [← same, ← added.frags]
    exact List.mem_map_of_mem mem

theorem Added.isolated (added : Added filename file archive after new q)
    (named : isFileName filename = true) (wf : WellFormed archive)
    (apart : Apart opens filename file.content archive) :
    Isolated opens (contents after) (labelled (contents after)) q where
  mem := added.mem_labelled named
  nodup := nodup_labelled after
  names := fun p mem ne => by
    rw [added.name]
    exact (added.stays mem ne).2.other
  readable := fun p mem ne => apart.readable p (added.stays mem ne).1 (added.stays mem ne).2
  alone := by
    rintro b inside ⟨i, mine, high⟩ p mem ne j points has
    obtain ⟨old, stays⟩ := added.stays mem ne
    have below := (wf.inRange p old j points).2
    rw [added.block] at inside
    cases List.mem_append.mp inside with
    | inl inOld =>
      -- an old block: a fragment of the file is in it or before it
      have bounds := mem_layout inOld
      have upto : i < (contents archive).ht.length := by
        simp only [contents, read_archive, List.length_cons]
        omega
      obtain ⟨b', inside', has', shared⟩ := added.old_block mine upto
      have first := apart.before p old stays b' inside' shared j points
      obtain ⟨low, _⟩ := has
      obtain ⟨low', high'⟩ := has'
      rcases layout_ordered inOld inside' with rfl | behind | before
      · omega
      · omega
      · omega
    | inr inNew =>
      have low := (mem_layout inNew).1
      have start := has.1
      omega

/-- The command gives the content that was added. -/
theorem Added.extract (added : Added filename file archive after new q)
    (named : isFileName filename = true) (wf : WellFormed archive)
    (apart : Apart opens filename file.content archive) (ends : Sealed file.content) :
    extract opens after = some file.content := by
  have content : q.ptr.flatMap (contents after).frag = file.content := by
    rw [List.flatMap_def, added.frags, flatten_fragments]
  rw [extract_eq (added.isolated named wf apart) added.ptr_ne_nil added.inRange
    (by rw [added.frags]; exact ends), content]

theorem Added.wellFormed (added : Added filename file archive after new q)
    (named : isFileName filename = true) (wf : WellFormed archive) : WellFormed after := by
  -- an entry is the file's own, a deletion, or an old one
  have cases_ {p : Member} (mem : p ∈ (contents after).dt) :
      p = q ∨ p = deletion p.name ∨ p ∈ (contents archive).dt := by
    by_cases own : p.name = filename
    · rw [← added.name] at own
      exact Or.inl (List.inj_on_of_nodup_map (nodup_dt _ after) mem added.mem own)
    · exact Or.inr ((added.others p mem own).imp id And.left)
  constructor
  case inRange =>
    intro p mem j points
    rcases cases_ mem with rfl | deleted | old
    · exact added.inRange j points
    · rw [deleted] at points
      cases points
    · have bounds := wf.inRange p old j points
      rw [added.ht, List.length_append]
      omega
  case cut =>
    intro p mem live
    rcases cases_ mem with rfl | deleted | old
    · exact ⟨file.content, added.frags⟩
    · rw [deleted] at live
      exact (live rfl).elim
    · obtain ⟨content, cut⟩ := wf.cut p old live
      refine ⟨content, ?_⟩
      rw [← cut]
      refine List.map_congr_left fun j points => ?_
      rw [Contents.frag, added.ht, List.getD_eq_getElem?_getD,
        List.getElem?_append_left (wf.inRange p old j points).2, ← List.getD_eq_getElem?_getD]
      rfl
  case named =>
    intro p mem live
    rcases cases_ mem with rfl | deleted | old
    · rw [added.name]
      exact named
    · rw [deleted] at live
      exact (live rfl).elim
    · exact wf.named p old live

/-- What an add must find so that the extraction afterwards gives the file. -/
structure Restorable (opens : Nat → Bool) (sha1 : Bytes → Bytes) (filename : Bytes)
    (file : ExternalFile) (archive : Archive) : Prop where
  noticed : Noticed sha1 filename file archive
  apart : Apart opens filename file.content archive
  ends : Sealed file.content

theorem Restorable.extract_add {sha1 : Bytes → Bytes}
    (restorable : Restorable opens sha1 filename file archive) (wf : WellFormed archive)
    (split : BlockSplit) :
    extract opens (add sha1 split filename file archive) = some file.content ∧
      WellFormed (add sha1 split filename file archive) := by
  obtain ⟨new, q, added⟩ := add_added split wf restorable.noticed
  have named := restorable.noticed.named
  exact ⟨added.extract named wf restorable.apart restorable.ends, added.wellFormed named wf⟩

end BackupSuite.Zpaq
