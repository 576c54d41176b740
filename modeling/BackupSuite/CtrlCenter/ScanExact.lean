import Mathlib.Data.List.Nodup
import BackupSuite.CtrlCenter.ScanFiles

/-! # What the scan finds

For which trees below the input folder the scan ends with each regular file once
(`scanExact_iff`).  A string on the stack opens the folder that the names lead to when
the backslashes at their ends are left off, so what decides is which folders have such
names: files below them are not found, files below the folder without the backslash are
found twice, and a name of backslashes only (or with one or two dots in front) leads to
a folder that is being listed and so to a scan without end.
-/

namespace BackupSuite.CtrlCenter

open BackupSuite.Library

/-- The string of a file below the folder that `src` names. -/
def pathOf (src : Bytes) (names : List Bytes) : Bytes := src ++ joined 47 names

/-- Wherever the tree lies in a file system, as the folder that `inputFolder` names: the
scan ends, with the paths of the tree's files, each once, and the sum of their sizes. -/
def ScanExact (tree : FileSystem) : Prop :=
  ∀ (fs : FileSystem) (cwd : FolderPath) (argument : Bytes),
    (∀ below, fs.listing (below ++ folderOf cwd (normalizeDirPath argument)) = tree.listing below) →
    ∃ fuel s, scanLoop fs cwd fuel (scanStart (normalizeDirPath argument)) = some s ∧
      s.filesToProcess.Perm ((tree.filesBelow []).map fun f =>
        pathOf (stripSeparators (normalizeDirPath argument)) f.1) ∧
      s.inputSetSize.toNat = ((tree.filesBelow []).map Prod.snd).sum

/-- No name ends in a backslash. -/
def Plain (folder : List Bytes) : Prop := ∀ name ∈ folder, bare name = name

/-- The folders with a backslash at the end of their name, as far as the scan gets: without it
there is still a name, and no regular file lies below the folder or the one of that name. -/
def Scannable (tree : FileSystem) : Prop :=
  ∀ folder entries, tree.listing folder = some entries → Plain folder →
    ∀ e ∈ entries, e.isDir = true → bare e.name ≠ e.name →
      IsName 47 46 (bare e.name) ∧ tree.filesBelow (e.name :: folder) = [] ∧
        tree.filesBelow (bare e.name :: folder) = []

theorem pathOf_append (src : Bytes) (names : List Bytes) (name : Bytes) :
    pathOf src (names ++ [name]) = pathOf src names ++ 47 :: name := by
  simp [pathOf, joined]

theorem pathOf_cons (src name : Bytes) (names : List Bytes) :
    pathOf src (name :: names) = pathOf (src ++ 47 :: name) names := by
  simp [pathOf, joined]

theorem pathOf_inj {src : Bytes} {names names' : List Bytes} (noSep : ∀ name ∈ names, 47 ∉ name)
    (noSep' : ∀ name ∈ names', 47 ∉ name) (same : pathOf src names = pathOf src names') :
    names = names' :=
  joined_inj noSep noSep' (List.append_cancel_left same)

theorem enter_of_isName {name : Bytes} (isName : IsName 47 46 name) (folder : FolderPath) :
    enter 46 true folder name = name :: folder := by
  unfold enter
  rw [if_neg (not_or.mpr ⟨isName.nonempty, isName.notDot⟩), if_neg isName.notDots]

/-! ## Trees without such names -/

section

variable {tree fs : FileSystem} {cwd above : FolderPath}

theorem entryFiles_perm (folder : FolderPath) (entries : List DirEntry) :
    ((entries.filter (!·.isDir)).map (fun e => ([e.name], e.size)) ++
      (entries.filter (·.isDir)).reverse.flatMap (tree.entryFiles folder)).Perm
      (entries.flatMap (tree.entryFiles folder)) := by
  have files : (entries.filter (!·.isDir)).map (fun e => ([e.name], e.size)) =
      (entries.filter (!·.isDir)).flatMap (tree.entryFiles folder) := by
    rw [List.map_eq_flatMap]
    refine List.flatMap_congr fun e mem => ?_
    have notDir : e.isDir = false := by simpa using (List.mem_filter.mp mem).2
    rw [FileSystem.entryFiles, notDir]
    rfl
  rw [files]
  have swap := (List.reverse_perm (entries.filter (·.isDir))).flatMap_right (tree.entryFiles folder)
  refine (swap.append_left _).trans ?_
  rw [← List.flatMap_append]
  refine List.Perm.flatMap_right _ (List.perm_append_comm.trans ?_)
  exact List.filter_append_perm _ entries

/-- The folder listed for a string and all below it. -/
theorem scan_folder (placed : ∀ below, fs.listing (below ++ above) = tree.listing below)
    (scannable : Scannable tree) (folder : FolderPath) : Plain folder →
    ∀ path, folderOpened cwd path = folder ++ above →
    ∃ found, Drains (listFolder fs cwd) [path] found ∧ found.Perm
      ((tree.filesBelow folder).map fun f => (pathOf (stripSeparators path) f.1, f.2)) := by
  induction folder using tree.induction with
  | missing folder absent =>
    intro _ path opened
    have nothing : listFolder fs cwd path = ([], []) := by
      rw [listFolder, opened, placed, absent]
    have children : Drains (listFolder fs cwd) (listFolder fs cwd path).1.reverse [] := by
      rw [nothing]
      exact .nil
    refine ⟨_, .of_children children, ?_⟩
    rw [nothing, tree.filesBelow_of_none absent]
    exact .refl _
  | step folder entries listed ih =>
    intro plain path opened
    have expanded : listFolder fs cwd path =
        ((entries.filter (·.isDir)).map fun e => stripSeparators path ++ 47 :: e.name,
          (entries.filter (!·.isDir)).map fun e => (stripSeparators path ++ 47 :: e.name, e.size)) := by
      rw [listFolder, opened, placed, listed]
    -- each folder entry: its own string opens it, or there is nothing to find
    have each : ∀ e ∈ (entries.filter (·.isDir)).reverse, ∃ part,
        Drains (listFolder fs cwd) [stripSeparators path ++ 47 :: e.name] part ∧
          part.Perm ((tree.entryFiles folder e).map fun f => (pathOf (stripSeparators path) f.1, f.2)) := by
      intro e mem
      obtain ⟨inEntries, isDir⟩ := List.mem_filter.mp (List.mem_reverse.mp mem)
      obtain ⟨isName, -⟩ := tree.names folder entries listed e inEntries
      have opens := @folderOpened_child cwd path _ isName.noSep
      have stripped := stripSeparators_child path isName.noSep
      rw [FileSystem.entryFiles, if_pos isDir]
      by_cases whole : bare e.name = e.name
      · rw [whole, opened, enter_of_isName isName] at opens
        rw [whole, if_neg isName.nonempty] at stripped
        obtain ⟨part, drains, perm⟩ := ih e.name
          (List.forall_mem_cons.mpr ⟨whole, plain⟩) _ opens
        refine ⟨part, drains, ?_⟩
        simpa [stripped, Function.comp_def, pathOf_cons] using perm
      · obtain ⟨isBare, nothing, noSibling⟩ :=
          scannable folder entries listed plain e inEntries isDir whole
        rw [opened, enter_of_isName isBare] at opens
        obtain ⟨part, drains, perm⟩ := ih (bare e.name)
          (List.forall_mem_cons.mpr ⟨bare_bare _, plain⟩) _ opens
        rw [noSibling] at perm
        rw [nothing]
        exact ⟨part, drains, perm⟩
    obtain ⟨below, drains, perm⟩ := exists_drains_perm each
    refine ⟨(listFolder fs cwd path).2 ++ below, .of_children ?_, ?_⟩
    · rw [expanded, ← List.map_reverse]
      exact drains
    · rw [expanded, tree.filesBelow_of_some listed]
      rw [← List.map_flatMap] at perm
      refine (perm.append_left _).trans ?_
      have names := (@entryFiles_perm tree folder entries).map
        fun f => (pathOf (stripSeparators path) f.1, f.2)
      simpa [pathOf, joined, Function.comp_def] using names

theorem folderOpened_normalizeDirPath (argument : Bytes) :
    folderOpened cwd (normalizeDirPath argument) = folderOf cwd (normalizeDirPath argument) := by
  obtain ⟨dropped, split, separators⟩ :=
    exists_rdropWhile (fun c => c == 47 || c == 92) (normalizeDirPath argument)
  rw [← stripSeparators] at split
  have slashes : dropped = List.replicate dropped.length 47 := by
    refine List.eq_replicate_iff.mpr ⟨rfl, fun c mem => ?_⟩
    have inPath : c ∈ normalizeDirPath argument := split ▸ List.mem_append_right _ mem
    have notBackslash : c ≠ 92 := fun h => no_backslash_normalizeDirPath argument (h ▸ inPath)
    simpa [notBackslash] using separators c mem
  have start : startOf cwd (normalizeDirPath argument) =
      startOf cwd (stripSeparators (normalizeDirPath argument) ++ [47]) := by
    have last := getLast_normalizeDirPath argument
    cases front : stripSeparators (normalizeDirPath argument) with
    | nil =>
      rw [front, List.nil_append, slashes] at split
      cases count : dropped.length with
      | zero =>
        rw [count] at split
        rw [split] at last
        cases last
      | succ n =>
        rw [count, List.replicate_succ] at split
        rw [split]
        rfl
    | cons c rest =>
      rw [front] at split
      rw [split]
      rfl
  rw [folderOpened, folderOf, folderOf, walk_concat_sep, ← start]
  generalize startOf cwd (normalizeDirPath argument) = begins
  conv => rhs; rw [split, slashes, walk_append_replicate_sep]

/-- A scannable tree is scanned exactly, if its size fits the counter. -/
theorem scanExact_of_scannable (scannable : Scannable tree)
    (small : ((tree.filesBelow []).map Prod.snd).sum < 2 ^ 64) : ScanExact tree := by
  intro fs cwd argument placed
  have opened : folderOpened cwd (normalizeDirPath argument) =
      [] ++ folderOf cwd (normalizeDirPath argument) := folderOpened_normalizeDirPath argument
  obtain ⟨found, drains, perm⟩ := scan_folder placed scannable [] (by simp [Plain]) _ opened
  obtain ⟨fuel, ended⟩ := scanLoop_eq_some_iff.mpr ⟨found, drains, rfl⟩
  refine ⟨fuel, _, ended, ?_, ?_⟩
  · simpa [scanState, Function.comp_def] using perm.map Prod.fst
  · have sizes : (found.map Prod.snd).sum = ((tree.filesBelow []).map Prod.snd).sum := by
      simpa [Function.comp_def] using (perm.map Prod.snd).sum_nat
    rw [scanState, sizes, UInt64.toNat_ofNat', Nat.mod_eq_of_lt small]

end

/-! ## The tree as the folder `in` -/

/-- Only the tree, as the folder `in` of the root. -/
def surroundedListing (tree : FileSystem) (folder : FolderPath) : Option (List DirEntry) :=
  match folder.reverse with
  | [] => some [⟨text "in", true, 0⟩]
  | top :: below => if top = text "in" then tree.listing below.reverse else none

theorem surroundedListing_eq_some {tree : FileSystem} {folder : FolderPath} {entries : List DirEntry}
    (listed : surroundedListing tree folder = some entries) :
    entries = [⟨text "in", true, 0⟩] ∨ ∃ below, tree.listing below = some entries := by
  rw [surroundedListing] at listed
  split at listed
  case h_1 => exact Or.inl (Option.some.inj listed).symm
  case h_2 =>
    split at listed
    · exact Or.inr ⟨_, listed⟩
    · cases listed

theorem surroundedListing_bounded (tree : FileSystem) (folder : FolderPath) (deep : tree.depth + 1 < folder.length) :
    surroundedListing tree folder = none := by
  rw [surroundedListing]
  split
  case h_1 isRoot =>
    rw [List.reverse_eq_nil_iff.mp isRoot] at deep
    simp at deep
  case h_2 top below split =>
    have length := congrArg List.length split
    rw [List.length_reverse, List.length_cons] at length
    rw [tree.bounded _ (by rw [List.length_reverse]; omega), ite_self]

theorem surroundedListing_distinct (tree : FileSystem) (folder : FolderPath) (entries : List DirEntry)
    (listed : surroundedListing tree folder = some entries) : (entries.map DirEntry.name).Nodup := by
  obtain rfl | ⟨below, inTree⟩ := surroundedListing_eq_some listed
  · simp
  · exact tree.distinct below entries inTree

theorem surroundedListing_names (tree : FileSystem) (folder : FolderPath) (entries : List DirEntry)
    (listed : surroundedListing tree folder = some entries) :
    ∀ e ∈ entries, IsName 47 46 e.name ∧ 0 ∉ e.name := by
  obtain rfl | ⟨below, inTree⟩ := surroundedListing_eq_some listed
  · intro e mem
    rw [List.mem_singleton.mp mem]
    exact ⟨by constructor <;> decide, by decide⟩
  · exact tree.names below entries inTree

theorem surroundedListing_isFolder (tree : FileSystem) (folder : FolderPath) (name : Bytes) :
    surroundedListing tree (name :: folder) ≠ none ↔
      ∃ entries, surroundedListing tree folder = some entries ∧ ∃ e ∈ entries, e.name = name ∧ e.isDir = true := by
  rw [surroundedListing, surroundedListing, List.reverse_cons]
  cases above : folder.reverse with
  | nil =>
    -- below the root there is the tree and nothing else
    simp only [List.nil_append, List.reverse_nil]
    have root := tree.root
    by_cases isIn : name = text "in"
    · simp [isIn, root]
    · simp [isIn, Ne.symm isIn]
  | cons top below =>
    simp only [List.cons_append]
    split
    case isTrue => simpa using tree.isFolder below.reverse name
    case isFalse => simp

theorem surroundedListing_root (tree : FileSystem) : surroundedListing tree [] ≠ none := Option.some_ne_none _

/-- The file system that has only the tree. -/
def surrounded (tree : FileSystem) : FileSystem where
  listing := surroundedListing tree
  root := surroundedListing_root tree
  depth := tree.depth + 1
  bounded := surroundedListing_bounded tree
  distinct := surroundedListing_distinct tree
  names := surroundedListing_names tree
  isFolder := surroundedListing_isFolder tree

theorem surrounded_listing (tree : FileSystem) (below : FolderPath) :
    (surrounded tree).listing (below ++ [text "in"]) = tree.listing below := by
  simp [surrounded, surroundedListing]

section

variable {tree fs : FileSystem} {cwd : FolderPath}

theorem listing_of_suffix {folder outer : FolderPath} (isOuter : outer <:+ folder)
    (listed : fs.listing folder ≠ none) : fs.listing outer ≠ none := by
  obtain ⟨names, rfl⟩ := isOuter
  induction names with
  | nil => exact listed
  | cons name names ih =>
    obtain ⟨entries, parent, -⟩ := (fs.isFolder (names ++ outer) name).mp listed
    exact ih (by rw [parent]; simp)

theorem isName_of_listing {folder : FolderPath} {name : Bytes}
    (listed : fs.listing (name :: folder) ≠ none) : IsName 47 46 name := by
  obtain ⟨entries, parent, e, mem, rfl, -⟩ := (fs.isFolder folder name).mp listed
  exact (fs.names folder entries parent e mem).1

theorem enter_suffix_of_not_isName {name : Bytes} (noSep : 47 ∉ name) (notName : ¬ IsName 47 46 name)
    {folder : FolderPath} (listed : fs.listing folder ≠ none) : enter 46 true folder name <:+ folder := by
  unfold enter
  split
  case isTrue => exact List.suffix_refl _
  case isFalse notHere =>
    rw [not_or] at notHere
    split
    case isFalse notUp => exact absurd ⟨notHere.1, noSep, notHere.2, notUp⟩ notName
    case isTrue =>
      cases folder with
      | nil => exact List.suffix_refl _
      | cons top rest =>
        have isTop : top ≠ [46, 46] := (isName_of_listing listed).notDots
        simp [isTop]

theorem mem_listFolder {path : Bytes} {folder : FolderPath} (opened : folderOpened cwd path = folder)
    {entries : List DirEntry} (listed : fs.listing folder = some entries) {e : DirEntry}
    (mem : e ∈ entries) (isDir : e.isDir = true) :
    stripSeparators path ++ 47 :: e.name ∈ (listFolder fs cwd path).1 := by
  rw [listFolder, opened, listed]
  exact List.mem_map.mpr ⟨e, List.mem_filter.mpr ⟨mem, isDir⟩, rfl⟩

theorem folderOpened_in : folderOpened [] (text "in/") = [text "in"] := by decide

/-- A name that leads back to its folder, or to the one above, makes the scan endless. -/
theorem not_drains_of_back {folder : FolderPath} (plain : Plain folder) (bottom : Plain [text "in"])
    {entries : List DirEntry} (listed : tree.listing folder = some entries) {e : DirEntry}
    (mem : e ∈ entries) (isDir : e.isDir = true) (back : ¬ IsName 47 46 (bare e.name))
    (found : List (Bytes × Nat)) :
    ¬ Drains (listFolder (surrounded tree) []) [text "in/"] found := by
  have placed : (surrounded tree).listing (folder ++ [text "in"]) = some entries := by
    rw [surrounded_listing, listed]
  -- on the stack there is always a string for a folder on the way to `folder`
  refine @not_drains _ _ _ (fun path => folderOpened [] path <:+ folder ++ [text "in"]) ?_ _
    ⟨_, List.mem_singleton.mpr rfl, folder, congrArg (folder ++ ·) folderOpened_in⟩ found
  intro path onWay
  obtain ⟨names, split⟩ := onWay
  cases reversed : names.reverse with
  | nil =>
    have here : folderOpened [] path = folder ++ [text "in"] := by
      rw [← split, List.reverse_eq_nil_iff.mp reversed, List.nil_append]
    have noSep := (tree.names folder entries listed e mem).1.noSep
    refine ⟨_, mem_listFolder here placed mem isDir, ?_⟩
    rw [folderOpened_child path noSep, here]
    exact enter_suffix_of_not_isName (noSep_bare noSep) back (by rw [placed]; simp)
  | cons name rest =>
    -- further out: the next folder on the way is an entry
    have next : names = rest.reverse ++ [name] := by
      rw [← List.reverse_reverse names, reversed, List.reverse_cons]
    rw [next, List.append_assoc, List.singleton_append] at split
    have isOuter : name :: folderOpened [] path <:+ folder ++ [text "in"] := ⟨_, split⟩
    have exists' := listing_of_suffix isOuter (by rw [placed]; simp)
    obtain ⟨outer, outerListed, inner, isInner, rfl, innerDir⟩ :=
      ((surrounded tree).isFolder _ name).mp exists'
    have isName := ((surrounded tree).names _ _ outerListed inner isInner).1
    have whole : bare inner.name = inner.name := by
      have onWay : inner.name ∈ folder ++ [text "in"] := isOuter.subset List.mem_cons_self
      exact (List.mem_append.mp onWay).elim (plain _) (bottom _)
    refine ⟨_, mem_listFolder rfl outerListed isInner innerDir, ?_⟩
    rwa [folderOpened_child path isName.noSep, whole, enter_of_isName isName]

/-! ## What is found, and how often -/

/-- The strings that are found have names without backslashes at the end for their folders. -/
theorem found_plain {inputFolder : Bytes} {found : List (Bytes × Nat)}
    (drains : Drains (listFolder fs cwd) [inputFolder] found) :
    ∀ b ∈ found, ∃ folders name, b.1 = pathOf (stripSeparators inputFolder) (folders ++ [name]) ∧
      Plain folders ∧ ∀ n ∈ folders ++ [name], 47 ∉ n := by
  refine drains.forall (P := fun path => ∃ folders, stripSeparators path =
    pathOf (stripSeparators inputFolder) folders ∧ Plain folders ∧ ∀ n ∈ folders, 47 ∉ n) ?_ ?_
  · rintro path ⟨folders, source, plain, noSep⟩
    rw [listFolder]
    cases listed : fs.listing (folderOpened cwd path) with
    | none => simp
    | some entries =>
      have entryNoSep := fun e mem => (fs.names _ entries listed e mem).1.noSep
      constructor
      · intro child isChild
        obtain ⟨e, mem, rfl⟩ := List.mem_map.mp isChild
        have childNoSep := entryNoSep e (List.mem_filter.mp mem).1
        rw [stripSeparators_child path childNoSep]
        split
        · exact ⟨folders, source, plain, noSep⟩
        · refine ⟨folders ++ [bare e.name], by rw [pathOf_append, source], ?_, ?_⟩
          · exact List.forall_mem_append.mpr ⟨plain, by simp⟩
          · exact List.forall_mem_append.mpr ⟨noSep, by simpa using noSep_bare childNoSep⟩
      · intro b isFound
        obtain ⟨e, mem, rfl⟩ := List.mem_map.mp isFound
        refine ⟨folders, e.name, by rw [pathOf_append, source], plain, ?_⟩
        exact List.forall_mem_append.mpr ⟨noSep, by simpa using entryNoSep e (List.mem_filter.mp mem).1⟩
  · intro path isStart
    rw [List.mem_singleton.mp isStart]
    exact ⟨[], by simp [pathOf, joined], by simp [Plain], by simp⟩

theorem names_of_filesBelow (folder : FolderPath) : ∀ f ∈ tree.filesBelow folder,
    f.1 ≠ [] ∧ ∀ n ∈ f.1, IsName 47 46 n := by
  induction folder using tree.induction with
  | missing folder absent => simp [tree.filesBelow_of_none absent]
  | step folder entries listed ih =>
    rw [tree.filesBelow_of_some listed]
    intro f mem
    obtain ⟨e, inEntries, isFile⟩ := List.mem_flatMap.mp mem
    have isName := (tree.names folder entries listed e inEntries).1
    rw [FileSystem.entryFiles] at isFile
    split at isFile
    · obtain ⟨g, inner, rfl⟩ := List.mem_map.mp isFile
      exact ⟨by simp, List.forall_mem_cons.mpr ⟨isName, (ih e.name g inner).2⟩⟩
    · rw [List.mem_singleton.mp isFile]
      exact ⟨by simp, by simpa using isName⟩

theorem filesBelow_outer {folder : FolderPath} (listed : tree.listing folder ≠ none)
    {f : List Bytes × Nat} (mem : f ∈ tree.filesBelow folder) :
    (folder.reverse ++ f.1, f.2) ∈ tree.filesBelow [] := by
  induction folder generalizing f with
  | nil => exact mem
  | cons name folder ih =>
    obtain ⟨entries, parent, e, inEntries, rfl, isDir⟩ := (tree.isFolder folder name).mp listed
    have inParent : (e.name :: f.1, f.2) ∈ tree.filesBelow folder := by
      rw [tree.filesBelow_of_some parent]
      refine List.mem_flatMap.mpr ⟨e, inEntries, ?_⟩
      rw [FileSystem.entryFiles, if_pos isDir]
      exact List.mem_map.mpr ⟨f, mem, rfl⟩
    simpa using ih (by rw [parent]; simp) inParent

theorem nodup_filesBelow (folder : FolderPath) : ((tree.filesBelow folder).map Prod.fst).Nodup := by
  induction folder using tree.induction with
  | missing folder absent => simp [tree.filesBelow_of_none absent]
  | step folder entries listed ih =>
    rw [tree.filesBelow_of_some listed, List.map_flatMap, List.nodup_flatMap]
    -- every name starts with the entry's
    have heads (e : DirEntry) : ∀ names ∈ (tree.entryFiles folder e).map Prod.fst,
        names.head? = some e.name := by
      intro names mem
      rw [FileSystem.entryFiles] at mem
      split at mem
      · simp only [List.map_map, List.mem_map, Function.comp_apply] at mem
        obtain ⟨f, -, rfl⟩ := mem
        rfl
      · rw [List.map_singleton, List.mem_singleton] at mem
        rw [mem]
        rfl
    constructor
    · intro e mem
      rw [FileSystem.entryFiles]
      split
      · have inner := (ih e.name).map (f := (e.name :: ·)) (fun a b same => (List.cons.inj same).2)
        simpa [Function.comp_def] using inner
      · simp
    · refine (List.pairwise_map.mp (tree.distinct folder entries listed)).imp fun {e e'} ne => ?_
      intro names mem mem'
      exact ne (Option.some.inj ((heads e names mem).symm.trans (heads e' names mem')))

theorem found_of_plain {above : FolderPath}
    (placed : ∀ below, fs.listing (below ++ above) = tree.listing below) (folder : FolderPath) :
    ∀ path found, folderOpened cwd path = folder ++ above → Drains (listFolder fs cwd) [path] found →
      ∀ f ∈ tree.filesBelow folder, Plain f.1.dropLast →
        (pathOf (stripSeparators path) f.1, f.2) ∈ found := by
  induction folder using tree.induction with
  | missing folder absent => simp [tree.filesBelow_of_none absent]
  | step folder entries listed ih =>
    intro path found opened drains f mem plain
    have here : fs.listing (folder ++ above) = some entries := by rw [placed, listed]
    obtain ⟨below, children, rfl⟩ := drains.singleton
    rw [tree.filesBelow_of_some listed] at mem
    obtain ⟨e, inEntries, isFile⟩ := List.mem_flatMap.mp mem
    have isName := (tree.names folder entries listed e inEntries).1
    rw [FileSystem.entryFiles] at isFile
    split at isFile
    case isFalse notDir =>
      rw [List.mem_singleton.mp isFile]
      refine List.mem_append_left _ ?_
      rw [listFolder, opened, here]
      refine List.mem_map.mpr ⟨e, List.mem_filter.mpr ⟨inEntries, by simpa using notDir⟩, ?_⟩
      simp [pathOf, joined]
    case isTrue isDir =>
      obtain ⟨g, inner, rfl⟩ := List.mem_map.mp isFile
      have nonempty := (names_of_filesBelow _ g inner).1
      rw [List.dropLast_cons_of_ne_nil nonempty] at plain
      obtain ⟨whole, innerPlain⟩ := List.forall_mem_cons.mp plain
      have opens := @folderOpened_child cwd path _ isName.noSep
      have stripped := stripSeparators_child path isName.noSep
      rw [whole, opened, enter_of_isName isName] at opens
      rw [whole, if_neg isName.nonempty] at stripped
      -- the string of the entry was on the stack
      obtain ⟨part, alone, sublist⟩ := children.exists_sublist
        (List.mem_reverse.mpr (mem_listFolder opened here inEntries isDir))
      have isFound := ih e.name _ part opens alone g inner innerPlain
      rw [stripped, ← pathOf_cons] at isFound
      exact List.mem_append_right _ (sublist.subset isFound)

theorem exists_scan_inner {above : FolderPath} {path : Bytes}
    (placed : ∀ below, fs.listing (below ++ above) = tree.listing below)
    (opened : folderOpened cwd path = above) {found : List (Bytes × Nat)}
    (drains : Drains (listFolder fs cwd) [path] found) {folder : FolderPath}
    (listed : tree.listing folder ≠ none) (plain : Plain folder) :
    ∃ inner part, folderOpened cwd inner = folder ++ above ∧
      Drains (listFolder fs cwd) [inner] part ∧ part.Sublist found := by
  induction folder with
  | nil => exact ⟨path, found, opened, drains, .refl _⟩
  | cons name folder ih =>
    obtain ⟨whole, outerPlain⟩ := List.forall_mem_cons.mp plain
    obtain ⟨entries, parent, e, mem, rfl, isDir⟩ := (tree.isFolder folder name).mp listed
    obtain ⟨outer, part, opens, outerDrains, sublist⟩ := ih (by rw [parent]; simp) outerPlain
    have isName := (tree.names folder entries parent e mem).1
    have here : fs.listing (folder ++ above) = some entries := by rw [placed, parent]
    obtain ⟨below, children, rfl⟩ := outerDrains.singleton
    obtain ⟨inner, alone, innerSublist⟩ := children.exists_sublist
      (List.mem_reverse.mpr (mem_listFolder opens here mem isDir))
    refine ⟨_, inner, ?_, alone, (innerSublist.trans (List.sublist_append_right _ _)).trans sublist⟩
    rw [folderOpened_child outer isName.noSep, whole, opens, enter_of_isName isName]
    rfl

/-- A folder whose name ends in a backslash and the one without it are listed alike, so
what is found below is found twice. -/
theorem nothing_below_sibling {above : FolderPath} {path : Bytes}
    (placed : ∀ below, fs.listing (below ++ above) = tree.listing below)
    (opened : folderOpened cwd path = above) {found : List (Bytes × Nat)}
    (drains : Drains (listFolder fs cwd) [path] found) (once : (found.map Prod.fst).Nodup)
    {folder : FolderPath} (plain : Plain folder) {entries : List DirEntry}
    (listed : tree.listing folder = some entries) {e : DirEntry} (mem : e ∈ entries)
    (isDir : e.isDir = true) (cut : bare e.name ≠ e.name) (isBare : IsName 47 46 (bare e.name))
    (allPlain : ∀ f ∈ tree.filesBelow (bare e.name :: folder), Plain f.1.dropLast) :
    tree.filesBelow (bare e.name :: folder) = [] := by
  by_contra some
  have sibling : tree.listing (bare e.name :: folder) ≠ none :=
    fun absent => some (tree.filesBelow_of_none absent)
  obtain ⟨_, isListed, e', mem', name', isDir'⟩ := (tree.isFolder folder _).mp sibling
  cases listed.symm.trans isListed
  obtain ⟨outer, part, opens, outerDrains, sublist⟩ :=
    exists_scan_inner placed opened drains (by rw [listed]; simp) plain
  have here : fs.listing (folder ++ above) = Option.some entries := by rw [placed, listed]
  have isName := (tree.names folder entries listed e mem).1
  have isName' := (tree.names folder entries listed e' mem').1
  -- the strings of the two entries are different but open the same folder
  have differ : stripSeparators outer ++ 47 :: e.name ≠ stripSeparators outer ++ 47 :: e'.name := by
    intro same
    have names : e.name = e'.name := by simpa using same
    exact cut (name'.symm.trans names.symm)
  have stripped := stripSeparators_child outer isName.noSep
  have stripped' := stripSeparators_child outer isName'.noSep
  rw [name', bare_bare] at stripped'
  have alike : listFolder fs cwd (stripSeparators outer ++ 47 :: e.name) =
      listFolder fs cwd (stripSeparators outer ++ 47 :: e'.name) := by
    rw [listFolder, listFolder, folderOpened, folderOpened, stripped, name', stripped']
  obtain ⟨below, children, rfl⟩ := outerDrains.singleton
  obtain ⟨first, second, firstDrains, secondDrains, both⟩ := children.exists_sublist_two
    (List.mem_reverse.mpr (mem_listFolder opens here mem isDir))
    (List.mem_reverse.mpr (mem_listFolder opens here mem' isDir')) differ
  rw [firstDrains.congr alike |>.unique secondDrains, or_self] at both
  have twice : (second ++ second).Sublist found :=
    both.trans ((List.sublist_append_right _ _).trans sublist)
  have onceTwice := once.sublist (twice.map Prod.fst)
  rw [List.map_append, List.nodup_append] at onceTwice
  have opensSibling : folderOpened cwd (stripSeparators outer ++ 47 :: e'.name) =
      bare e.name :: folder ++ above := by
    rw [folderOpened_child outer isName'.noSep, name', bare_bare, opens, enter_of_isName isBare]
    rfl
  obtain ⟨f, isFile⟩ := List.exists_mem_of_ne_nil _ some
  have isFound := found_of_plain placed _ _ _ opensSibling secondDrains f isFile (allPlain f isFile)
  have isPath := List.mem_map_of_mem (f := Prod.fst) isFound
  exact onceTwice.2.2 _ isPath _ isPath rfl

/-- A tree that is scanned exactly, as the folder `in` alone, is scannable. -/
theorem scannable_of_scanExact (exact : ScanExact tree) : Scannable tree := by
  have inFolder : folderOf [] (normalizeDirPath (text "in")) = [text "in"] := by decide
  have base : stripSeparators (normalizeDirPath (text "in")) = text "in" := by decide
  have start : normalizeDirPath (text "in") = text "in/" := by decide
  obtain ⟨fuel, s, ended, paths, -⟩ := exact (surrounded tree) [] (text "in")
    (by rw [inFolder]; exact surrounded_listing tree)
  obtain ⟨found, drains, rfl⟩ := scanLoop_eq_some_iff.mp ⟨fuel, ended⟩
  rw [base] at paths
  rw [start] at drains
  have noSeps : ∀ f ∈ tree.filesBelow [], ∀ n ∈ f.1, 47 ∉ n :=
    fun f mem n isName => ((names_of_filesBelow [] f mem).2 n isName).noSep
  -- every file was found, so its folders have no backslashes at the end
  have allPlain : ∀ f ∈ tree.filesBelow [], Plain f.1.dropLast := by
    intro f mem
    have isPath : pathOf (text "in") f.1 ∈ found.map Prod.fst :=
      paths.mem_iff.mpr (List.mem_map.mpr ⟨f, mem, rfl⟩)
    obtain ⟨b, isFound, same⟩ := List.mem_map.mp isPath
    obtain ⟨folders, name, isString, plain, noSep⟩ := found_plain drains b isFound
    rw [show stripSeparators (text "in/") = text "in" by decide] at isString
    rw [pathOf_inj (noSeps f mem) noSep (same.symm.trans isString), List.dropLast_concat]
    exact plain
  have once : (found.map Prod.fst).Nodup := by
    refine paths.nodup_iff.mpr ?_
    rw [← Function.comp_def (pathOf (text "in")) Prod.fst, ← List.map_map]
    refine (nodup_filesBelow []).map_on fun a mem b mem' same => ?_
    obtain ⟨f, isFile, rfl⟩ := List.mem_map.mp mem
    obtain ⟨g, isFile', rfl⟩ := List.mem_map.mp mem'
    exact pathOf_inj (noSeps f isFile) (noSeps g isFile') same
  intro folder entries listed plain e mem isDir cut
  have isName : IsName 47 46 (bare e.name) := by
    by_contra back
    exact not_drains_of_back plain (by simp [Plain]; decide) listed mem isDir back found drains
  -- the names of a file below a folder are the last ones of a file of the tree
  have inner (name : Bytes) (isFolder : tree.listing (name :: folder) ≠ none) :
      ∀ f ∈ tree.filesBelow (name :: folder), bare name = name ∧ Plain f.1.dropLast := by
    intro f isFile
    have plainFile := allPlain _ (filesBelow_outer isFolder isFile)
    have nonempty := (names_of_filesBelow _ f isFile).1
    rw [List.reverse_cons, List.append_assoc, List.singleton_append,
      List.dropLast_append_of_ne_nil (by simp), List.dropLast_cons_of_ne_nil nonempty] at plainFile
    exact List.forall_mem_cons.mp (List.forall_mem_append.mp plainFile).2
  have here : tree.listing (e.name :: folder) ≠ none :=
    (tree.isFolder folder e.name).mpr ⟨entries, listed, e, mem, rfl, isDir⟩
  refine ⟨isName, ?_, ?_⟩
  · by_contra some
    obtain ⟨f, isFile⟩ := List.exists_mem_of_ne_nil _ some
    exact cut (inner e.name here f isFile).1
  · refine nothing_below_sibling (surrounded_listing tree) folderOpened_in drains once plain listed mem
      isDir cut isName fun f isFile => ?_
    have sibling : tree.listing (bare e.name :: folder) ≠ none := by
      intro absent
      rw [tree.filesBelow_of_none absent] at isFile
      cases isFile
    exact (inner _ sibling f isFile).2

/-- The scan ends with each regular file once, and the sum of the sizes, exactly for the
scannable trees whose sizes together fit 64 bits. -/
theorem scanExact_iff (tree : FileSystem) :
    ScanExact tree ↔ Scannable tree ∧ ((tree.filesBelow []).map Prod.snd).sum < 2 ^ 64 := by
  constructor
  · intro exact
    refine ⟨scannable_of_scanExact exact, ?_⟩
    have inFolder : folderOf [] (normalizeDirPath (text "in")) = [text "in"] := by decide
    obtain ⟨fuel, s, -, -, size⟩ := exact (surrounded tree) [] (text "in")
      (by rw [inFolder]; exact surrounded_listing tree)
    rw [← size]
    exact s.inputSetSize.toNat_lt
  · rintro ⟨scannable, small⟩
    exact scanExact_of_scannable scannable small

end

/-! ## A folder with a backslash at the end of its name -/

/-- One file in the one folder. -/
def backslashFolder : FileSystem where
  listing folder :=
    if folder = [] then some [⟨[97, 92], true, 0⟩]
    else if folder = [[97, 92]] then some [⟨text "f", false, 1⟩]
    else none
  root := by simp
  depth := 1
  bounded folder deep := by
    have notRoot : folder ≠ [] := by
      rintro rfl
      simp at deep
    have notIn : folder ≠ [[97, 92]] := by
      rintro rfl
      simp at deep
    rw [if_neg notRoot, if_neg notIn]
  distinct folder entries listed := by
    split at listed
    · cases listed
      decide
    · split at listed
      · cases listed
        decide
      · cases listed
  names folder entries listed := by
    split at listed
    · cases listed
      intro e mem
      rw [List.mem_singleton.mp mem]
      exact ⟨by constructor <;> decide, by decide⟩
    · split at listed
      · cases listed
        intro e mem
        rw [List.mem_singleton.mp mem]
        exact ⟨by constructor <;> decide, by decide⟩
      · cases listed
  isFolder folder name := by
    by_cases isRoot : folder = []
    · by_cases named : name = [97, 92]
      · simp [isRoot, named]
      · simp [isRoot, named, Ne.symm named]
    · by_cases isInner : folder = [[97, 92]]
      · simp [isInner]
      · simp [isRoot, isInner]

/-- The file in it is not found. -/
theorem not_scanExact : ¬ ∀ tree : FileSystem, ScanExact tree := by
  intro claim
  have scannable := scannable_of_scanExact (claim backslashFolder)
  have nothing := (scannable [] _ rfl (by simp [Plain]) _ List.mem_cons_self rfl (by decide)).2.1
  rw [backslashFolder.filesBelow_of_some (by rfl)] at nothing
  exact absurd nothing (by simp [FileSystem.entryFiles])

end BackupSuite.CtrlCenter
