import SnsxOS.Arm64.Shell
import SnsxOS.Framework.Walk

/-!
# Listing directories

`ls`, `tree` and the number of children all go through `fs_list` with an array of
`FILE_MANAGER_VIEW_MAX` places, which a directory can outgrow: the table holds 160 entries and
no operation counts the children of a directory.
-/

namespace SnsxOS.Arm64

open Framework

/-- The test of `fs_list`: behind the directory no further slash follows. -/
def listedUnder (directory path : Bytes) : Bool :=
  if directory = [slash] then decide (slash ∉ path.drop 1)
  else belowTest slash directory path && decide (slash ∉ path.drop (directory.length + 1))

/-- The direct children of a directory. -/
def fsChildren (fs : ArmFs) (directory : Bytes) : List ArmFsEntry :=
  fs.entries.filter fun entry => listedUnder directory entry.path

theorem fsList_eq (fs : ArmFs) (directory : Bytes) (maxResults : Nat) :
    fsList fs directory maxResults = (fsChildren fs directory).take maxResults := rfl

def fsCountChildren (fs : ArmFs) (path : Bytes) : Nat :=
  (fsList fs path fileManagerViewMax).length

inductive LsOutput where
  | entry (file : ArmFsEntry)
  | notFound
  | empty
  | listing (entries : List ArmFsEntry)

/-- The entries that are shown. -/
def LsOutput.shown : LsOutput → List ArmFsEntry
  | entry file => [file]
  | notFound => []
  | empty => []
  | listing entries => entries

def lsDirectory (fs : ArmFs) (absolute : Bytes) : LsOutput :=
  match fsList fs absolute fileManagerViewMax with
  | [] => .empty
  | entries => .listing entries

def commandLs (st : ShellState) (word : Word) : Option LsOutput :=
  (st.resolvePath word).map fun absolute =>
    match fsEntry st.fs absolute with
    | some entry => if entry.type ≠ .dir then .entry entry else lsDirectory st.fs absolute
    | none => if absolute ≠ [slash] then .notFound else lsDirectory st.fs absolute

/-- The loop of `tree_walk` over the entries still to be shown, with the indent of each. -/
def treeEntries (fs : ArmFs) : Nat → Nat → List ArmFsEntry → Option (List (Nat × ArmFsEntry))
  | 0, _, _ => none
  | _ + 1, _, [] => some []
  | fuel + 1, depth, entry :: entries =>
      if entry.type = .dir then
        (treeEntries fs fuel (depth + 1) (fsList fs entry.path fileManagerViewMax)).bind
          fun inner => (treeEntries fs fuel depth entries).map fun lines =>
            (depth, entry) :: (inner ++ lines)
      else (treeEntries fs fuel depth entries).map fun lines => (depth, entry) :: lines

def treeWalk (fs : ArmFs) (fuel : Nat) (path : Bytes) (depth : Nat) :
    Option (List (Nat × ArmFsEntry)) :=
  treeEntries fs fuel depth (fsList fs path fileManagerViewMax)

inductive TreeOutput where
  | notFound
  | tree (root : Bytes) (lines : List (Nat × ArmFsEntry))

/-- No outcome when the path runs over its buffer or the fuel is used up. -/
def commandTree (fuel : Nat) (st : ShellState) (word : Word) : Option TreeOutput :=
  (st.resolvePath word).bind fun absolute =>
    if fsEntry st.fs absolute = none ∧ absolute ≠ [slash] then some .notFound
    else (treeWalk st.fs fuel absolute 1).map fun lines => .tree absolute lines

def isDirEntry (entry : ArmFsEntry) : Bool := entry.type == .dir

/-- The directories of the table with the root, which has no entry. -/
def directories (fs : ArmFs) : List Bytes :=
  [slash] :: (fs.entries.filter isDirEntry).map ArmFsEntry.path

def rootWord : Word := ⟨[slash], by decide⟩

/-- The path is the root or is found as a directory. -/
def IsDirectory (fs : ArmFs) (path : Bytes) : Prop :=
  path = [slash] ∨ (fsEntry fs path).map ArmFsEntry.type = some .dir

/-- The listing commands show everything: `tree` from the root visits each entry once and each
directory before its contents, `ls` shows the children of a directory, and their number is
counted. -/
structure ListingComplete (fs : ArmFs) : Prop where
  tree : ∀ cwd, ∃ lines,
    Settles (fun fuel => commandTree fuel ⟨fs, cwd⟩ rootWord) (.tree [slash] lines) ∧
    (lines.map Prod.snd).Perm fs.entries ∧
    DirectoriesFirst (fsChildren fs) ArmFsEntry.path isDirEntry (lines.map Prod.snd)
  ls : ∀ cwd word path, (ShellState.mk fs cwd).resolvePath word = some path →
    IsDirectory fs path → ∃ output, commandLs ⟨fs, cwd⟩ word = some output ∧
      output.shown.Perm (fsChildren fs path)
  count : ∀ directory ∈ directories fs,
    fsCountChildren fs directory = (fsChildren fs directory).length

/-- No directory has more children than the array has places. -/
def FewChildren (fs : ArmFs) : Prop :=
  ∀ directory ∈ directories fs, (fsChildren fs directory).length ≤ fileManagerViewMax

/-- Every entry is a child of exactly one directory. -/
def OneParent (fs : ArmFs) : Prop :=
  ∀ entry ∈ fs.entries, (directories fs).countP (listedUnder · entry.path) = 1

/-- The table hangs together from the root, and an entry at the root itself is alone there. -/
structure Hangs (fs : ArmFs) : Prop where
  parent : OneParent fs
  root : ∀ entry ∈ fs.entries, entry.path = [slash] → fsChildren fs [slash] = [entry]

section Children

variable {fs : ArmFs}

theorem listedUnder_root (path : Bytes) :
    listedUnder [slash] path = true ↔ slash ∉ path.drop 1 := by
  rw [listedUnder, if_pos rfl, decide_eq_true_eq]

/-- A child of another directory is its path, a slash, and a name. -/
theorem listedUnder_iff {directory path : Bytes} (h : directory ≠ [slash]) :
    listedUnder directory path = true ↔
      ∃ name, slash ∉ name ∧ path = directory ++ slash :: name := by
  have hdrop : ∀ name, (directory ++ slash :: name).drop (directory.length + 1) = name := by
    intro name
    rw [← List.drop_drop, List.drop_left]
    rfl
  rw [listedUnder, if_neg h, Bool.and_eq_true, belowTest_iff, decide_eq_true_eq]
  constructor
  · rintro ⟨⟨name, rfl⟩, hname⟩
    rw [hdrop] at hname
    exact ⟨name, hname, rfl⟩
  · rintro ⟨name, hname, rfl⟩
    rw [hdrop]
    exact ⟨⟨name, rfl⟩, hname⟩

theorem mem_fsChildren {directory : Bytes} {entry : ArmFsEntry} :
    entry ∈ fsChildren fs directory ↔
      entry ∈ fs.entries ∧ listedUnder directory entry.path = true := List.mem_filter

theorem fsList_children (hfew : FewChildren fs) {directory : Bytes}
    (h : directory ∈ directories fs) :
    fsList fs directory fileManagerViewMax = fsChildren fs directory := by
  rw [fsList_eq]
  exact List.take_of_length_le (hfew directory h)

theorem mem_directories {entry : ArmFsEntry} (h : entry ∈ fs.entries) (hdir : entry.type = .dir) :
    entry.path ∈ directories fs := by
  apply List.mem_cons_of_mem
  apply List.mem_map_of_mem
  rw [List.mem_filter]
  exact ⟨h, beq_iff_eq.mpr hdir⟩

/-- Longer paths rank higher, and the root ranks lowest. -/
def pathRank (path : Bytes) : Nat := if path = [slash] then 0 else path.length + 1

theorem pathRank_lt {directory path : Bytes} (hpath : path ≠ [slash])
    (h : listedUnder directory path = true) : pathRank directory < pathRank path := by
  rw [pathRank, pathRank, if_neg hpath]
  split
  · omega
  · rename_i hne
    obtain ⟨name, -, rfl⟩ := (listedUnder_iff hne).mp h
    rw [List.length_append, List.length_cons]
    omega

end Children

section Walks

variable {fs : ArmFs}

theorem isDirEntry_iff {entry : ArmFsEntry} : isDirEntry entry = true ↔ entry.type = .dir :=
  beq_iff_eq

theorem treeEntries_eq (fs : ArmFs) (fuel depth : Nat) (entries : List ArmFsEntry) :
    treeEntries fs fuel depth entries =
      walk (fun directory => fsList fs directory fileManagerViewMax) ArmFsEntry.path isDirEntry
        fuel depth entries := by
  induction fuel generalizing depth entries with
  | zero => rfl
  | succ fuel ih =>
    cases entries with
    | nil => rfl
    | cons entry entries =>
      simp only [treeEntries, walk, isDirEntry_iff, ih]

theorem resolvePath_rootWord (fs : ArmFs) (cwd : Bytes) :
    (ShellState.mk fs cwd).resolvePath rootWord = some [slash] := by
  rw [ShellState.resolvePath, resolvePathFrom, if_neg (by decide), resolveRaw, if_pos (by decide)]
  rfl

theorem commandTree_root (fs : ArmFs) (cwd : Bytes) (fuel : Nat) :
    commandTree fuel ⟨fs, cwd⟩ rootWord =
      (treeWalk fs fuel [slash] 1).map fun lines => .tree [slash] lines := by
  rw [commandTree, resolvePath_rootWord, Option.bind_some, if_neg fun h => h.2 rfl]

end Walks

section Complete

variable {fs : ArmFs}

/-- What the root lists no directory lists again. -/
theorem OneParent.not_listed (h : OneParent fs) {entry dir : ArmFsEntry}
    (hentry : entry ∈ fs.entries) (hroot : listedUnder [slash] entry.path = true) (hmem : dir ∈ fs.entries)
    (hdir : dir.type = .dir) : listedUnder dir.path entry.path = false := by
  rw [← Bool.not_eq_true]
  intro hlisted
  have hcount := h entry hentry
  have hpos : 0 < ((fs.entries.filter isDirEntry).map ArmFsEntry.path).countP
      (listedUnder · entry.path) := by
    apply List.countP_pos_iff.mpr
    refine ⟨dir.path, List.mem_map_of_mem ?_, hlisted⟩
    exact List.mem_filter.mpr ⟨hmem, isDirEntry_iff.mpr hdir⟩
  rw [directories, List.countP_cons, if_pos hroot] at hcount
  omega

theorem OneParent.dir_ne_root (h : OneParent fs) {dir : ArmFsEntry} (hmem : dir ∈ fs.entries)
    (hdir : dir.type = .dir) : dir.path ≠ [slash] := by
  intro hpath
  have hlisted : listedUnder [slash] [slash] = true := by decide
  have hnot := h.not_listed hmem (by rw [hpath]; exact hlisted) hmem hdir
  rw [hpath, hlisted] at hnot
  cases hnot

/-- What a directory lists ranks above it. -/
theorem OneParent.rank_lt (h : OneParent fs) {dir entry : ArmFsEntry} (hmem : dir ∈ fs.entries)
    (hlisted : Listed (fsChildren fs) ArmFsEntry.path isDirEntry dir entry) :
    pathRank dir.path < pathRank entry.path := by
  obtain ⟨hdir, hlisted⟩ := hlisted
  obtain ⟨hentry, hlisted⟩ := mem_fsChildren.mp hlisted
  apply pathRank_lt _ hlisted
  intro hpath
  have hnot := h.not_listed hentry (by rw [hpath]; decide) hmem (isDirEntry_iff.mp hdir)
  rw [hlisted] at hnot
  cases hnot

theorem closed_iff (fs : ArmFs) :
    Closed (fsChildren fs) ArmFsEntry.path isDirEntry (fsChildren fs [slash]) fs.entries ↔
      OneParent fs :=
  closed_filter_iff (fun directory (entry : ArmFsEntry) => listedUnder directory entry.path) [slash]

/-- The walk with room for every child visits each entry once. -/
theorem OneParent.exists_walk (h : OneParent fs) :
    ∃ out, Visits (fsChildren fs) ArmFsEntry.path isDirEntry (fsChildren fs [slash]) out ∧
      out.Perm fs.entries := by
  have hrank : ∀ directory, ∀ entry ∈ fsChildren fs directory, isDirEntry entry = true →
      pathRank directory < pathRank entry.path ∧
        pathRank entry.path ≤ fsPathMax + fsMaxFileSize + 1 := by
    intro directory entry hentry hdir
    obtain ⟨hmem, hlisted⟩ := mem_fsChildren.mp hentry
    have hne := h.dir_ne_root hmem (isDirEntry_iff.mp hdir)
    refine ⟨pathRank_lt hne hlisted, ?_⟩
    have hlength : entry.path.length ≤ fsPathMax + fsMaxFileSize := entry.memory.str_length_le
    rw [pathRank, if_neg hne]
    omega
  obtain ⟨out, hout⟩ := exists_visits hrank [slash]
  refine ⟨out, hout, hout.closed.perm ((closed_iff fs).mpr h) fun dir hmem entry hlisted =>
    h.rank_lt ?_ hlisted⟩
  rcases hmem with hmem | hmem
  · rcases hout.mem hmem with hmem | ⟨directory, hmem⟩
    · exact (mem_fsChildren.mp hmem).1
    · exact (mem_fsChildren.mp hmem).1
  · exact hmem

theorem lsDirectory_shown (fs : ArmFs) (path : Bytes) :
    (lsDirectory fs path).shown = fsList fs path fileManagerViewMax := by
  rw [lsDirectory]
  split
  · rename_i hlist
    rw [hlist]
    rfl
  · rfl

theorem commandLs_complete (hfew : FewChildren fs) (hangs : Hangs fs) {cwd path : Bytes}
    {word : Word} (hpath : (ShellState.mk fs cwd).resolvePath word = some path)
    (hdir : IsDirectory fs path) : ∃ output, commandLs ⟨fs, cwd⟩ word = some output ∧
      output.shown.Perm (fsChildren fs path) := by
  rw [commandLs, hpath, Option.map_some]
  refine ⟨_, rfl, ?_⟩
  dsimp only
  cases hentry : fsEntry fs path with
  | none =>
    have hroot : path = [slash] := by
      rcases hdir with hroot | hdir
      · exact hroot
      · rw [hentry] at hdir
        cases hdir
    rw [if_neg fun hne => hne hroot, lsDirectory_shown, hroot,
      fsList_children hfew List.mem_cons_self]
  | some entry =>
    obtain ⟨hmem, hkey⟩ := mem_of_lookup hentry
    dsimp only
    by_cases hfile : entry.type ≠ .dir
    · rw [if_pos hfile]
      have hroot : path = [slash] := by
        rcases hdir with hroot | hdir
        · exact hroot
        · rw [hentry] at hdir
          exact absurd (Option.some.inj hdir) hfile
      rw [hroot, hangs.root entry hmem (hkey.trans hroot)]
      rfl
    · rw [if_neg hfile, lsDirectory_shown, fsList_children hfew]
      rw [← hkey]
      exact mem_directories hmem (not_not.mp hfile)

/-- Few children and one parent for each entry are enough. -/
theorem ListingComplete.of_few (hfew : FewChildren fs) (hangs : Hangs fs) :
    ListingComplete fs := by
  refine ⟨fun cwd => ?_, fun cwd word path hpath hdir => commandLs_complete hfew hangs hpath hdir,
    fun directory hmem => by rw [fsCountChildren, fsList_children hfew hmem]⟩
  obtain ⟨out, hvisits, hperm⟩ := hangs.parent.exists_walk
  have hlisted : Visits (fun directory => fsList fs directory fileManagerViewMax)
      ArmFsEntry.path isDirEntry (fsList fs [slash] fileManagerViewMax) out := by
    rw [fsList_children hfew List.mem_cons_self]
    apply hvisits.congr
    intro dir hmem hdir
    rw [fsList_children hfew]
    exact mem_directories (hperm.mem_iff.mp hmem) (isDirEntry_iff.mp hdir)
  obtain ⟨lines, hlines, rfl⟩ := settles_of_visits hlisted 1
  refine ⟨lines, ?_, hperm, ?_⟩
  · simp only [commandTree_root, treeWalk, treeEntries_eq]
    exact hlines.map fun lines => TreeOutput.tree [slash] lines
  · apply hvisits.directoriesFirst hperm
    · intro directory entry hentry
      exact (mem_fsChildren.mp hentry).1
    · intro directory entry hentry
      exact List.count_filter (mem_fsChildren.mp hentry).2

theorem ListingComplete.few (h : ListingComplete fs) : FewChildren fs := by
  intro directory hmem
  have hcount := h.count directory hmem
  rw [fsCountChildren, fsList_eq, List.length_take] at hcount
  omega

theorem ListingComplete.oneParent (h : ListingComplete fs) : OneParent fs := by
  obtain ⟨lines, hlines, hperm, -⟩ := h.tree [slash]
  obtain ⟨fuel, hrun⟩ := hlines.exists_run
  rw [commandTree_root, treeWalk, treeEntries_eq] at hrun
  obtain ⟨found, hwalk, hfound⟩ := Option.map_eq_some_iff.mp hrun
  cases hfound
  have hvisits : Visits (fsChildren fs) ArmFsEntry.path isDirEntry
      (fsList fs [slash] fileManagerViewMax) (lines.map Prod.snd) := by
    apply (visits_of_walk hwalk).congr
    intro dir hmem hdir
    exact fsList_children h.few
      (mem_directories (hperm.mem_iff.mp hmem) (isDirEntry_iff.mp hdir))
  rw [fsList_children h.few List.mem_cons_self] at hvisits
  exact (closed_iff fs).mp (hvisits.closed.of_perm hperm)

theorem ListingComplete.hangs (h : ListingComplete fs) : Hangs fs := by
  refine ⟨h.oneParent, fun entry hentry hpath => ?_⟩
  have hresolve := resolvePath_rootWord fs [slash]
  obtain ⟨output, houtput, hperm⟩ := h.ls [slash] rootWord [slash] hresolve (Or.inl rfl)
  have hmem : entry ∈ fsChildren fs [slash] := by
    rw [mem_fsChildren, hpath]
    exact ⟨hentry, by decide⟩
  rw [commandLs, hresolve, Option.map_some] at houtput
  dsimp only at houtput
  cases hfind : fsEntry fs [slash] with
  | none =>
    have hnot := lookup_eq_none.mp hfind
    rw [← hpath] at hnot
    exact absurd (List.mem_map_of_mem hentry) hnot
  | some first =>
    obtain ⟨hfirst, hkey⟩ := mem_of_lookup hfind
    have hfile : first.type ≠ .dir := fun hdir => h.oneParent.dir_ne_root hfirst hdir hkey
    rw [hfind] at houtput
    dsimp only at houtput
    rw [if_pos hfile, Option.some.injEq] at houtput
    rw [← houtput, LsOutput.shown, List.singleton_perm] at hperm
    rw [← hperm] at hmem ⊢
    rw [List.mem_singleton.mp hmem]

theorem listingComplete_iff (fs : ArmFs) : ListingComplete fs ↔ FewChildren fs ∧ Hangs fs :=
  ⟨fun h => ⟨h.few, h.hangs⟩, fun h => ListingComplete.of_few h.1 h.2⟩

end Complete

section Runs

variable {fs : ArmFs}

/-- Only the directory in front of the last slash lists a path. -/
theorem listedUnder_split {a b directory : Bytes} (hb : slash ∉ b) (ha : a = [] ∨ CanonicalPath a)
    (hdir : directory = [slash] ∨ CanonicalPath directory) :
    listedUnder directory (a ++ slash :: b) = true ↔
      directory = if a = [] then [slash] else a := by
  rcases hdir with rfl | hdir
  · rw [listedUnder_root]
    rcases ha with rfl | ha
    · rw [if_pos rfl]
      exact ⟨fun _ => rfl, fun _ => hb⟩
    · rw [if_neg ha.ne_nil]
      constructor
      · intro hnot
        obtain ⟨ch, rest, rfl⟩ := List.exists_cons_of_ne_nil ha.ne_nil
        exact absurd (by simp) hnot
      · intro hroot
        rw [← hroot] at ha
        exact absurd ha not_canonicalPath_root
  · rw [listedUnder_iff hdir.ne_root]
    constructor
    · rintro ⟨name, hname, hpath⟩
      have hlast := lastIndex?_append hb (a := a)
      rw [hpath, lastIndex?_append hname, Option.some.injEq] at hlast
      obtain ⟨rfl, -⟩ := List.append_inj hpath hlast.symm
      rw [if_neg hdir.ne_nil]
    · intro hsame
      rcases ha with rfl | ha
      · rw [if_pos rfl] at hsame
        exact absurd hsame hdir.ne_root
      · rw [if_neg ha.ne_nil] at hsame
        exact ⟨b, hb, by rw [hsame]⟩

theorem FsTree.directories_canonical (h : FsTree fs) :
    ∀ directory ∈ directories fs, directory = [slash] ∨ CanonicalPath directory := by
  intro directory hmem
  rcases List.mem_cons.mp hmem with hroot | hmem
  · exact Or.inl hroot
  · obtain ⟨dir, hdir, rfl⟩ := List.mem_map.mp hmem
    exact Or.inr (h.tree.canonical dir.node (List.mem_map_of_mem (List.mem_filter.mp hdir).1))

theorem FsTree.directories_nodup (h : FsTree fs) : (directories fs).Nodup := by
  have hdistinct : (fs.entries.map ArmFsEntry.path).Nodup := by
    have hnodes := h.tree.distinct
    rw [ArmFs.nodes, List.map_map] at hnodes
    exact hnodes
  apply List.nodup_cons.mpr
  refine ⟨fun hmem => ?_, hdistinct.sublist (List.filter_sublist.map _)⟩
  obtain ⟨dir, hdir, hroot⟩ := List.mem_map.mp hmem
  have hcanonical := h.tree.canonical dir.node (List.mem_map_of_mem (List.mem_filter.mp hdir).1)
  exact hcanonical.ne_root hroot

/-- In a tree every entry hangs from its parent directory. -/
theorem FsTree.hangs (h : FsTree fs) : Hangs fs := by
  constructor
  · intro entry hentry
    have hnode : entry.node ∈ fs.nodes := List.mem_map_of_mem hentry
    obtain ⟨a, b, hsplit, hb, ha, -⟩ := (h.tree.canonical entry.node hnode).split
    have hpath : entry.path = a ++ slash :: b := hsplit
    have hmem : (if a = [] then [slash] else a) ∈ directories fs := by
      rcases ha with rfl | ha
      · exact List.mem_cons_self
      · rw [if_neg ha.ne_nil]
        obtain ⟨dir, hdir, rfl, htype⟩ := h.tree.rooted entry.node hnode a ha.ne_nil ⟨b, hsplit⟩
        obtain ⟨d, hd, rfl⟩ := List.mem_map.mp hdir
        exact mem_directories hd htype
    rw [← List.count_eq_one_of_mem h.directories_nodup hmem, List.count]
    apply List.countP_congr
    intro directory hdirectory
    rw [hpath, listedUnder_split hb ha (h.directories_canonical directory hdirectory), beq_iff_eq]
  · intro entry hentry hroot
    have hcanonical := h.tree.canonical entry.node (List.mem_map_of_mem hentry)
    exact absurd hroot hcanonical.ne_root

/-- Listing is complete exactly for the tables in which no directory has more children than the
array has places and every entry hangs from one directory; after commands within their limits
only the number of children is left of this. -/
theorem listing_complete_iff (fs : ArmFs) :
    (ListingComplete fs ↔ FewChildren fs ∧ Hangs fs) ∧
    ∀ commands : List Command, GuardedPartial exec CommandOk (shellStart fs) commands →
      ∃ st, runPartial exec (shellStart fs) commands = some st ∧
        (ListingComplete st.fs ↔ FewChildren st.fs) := by
  refine ⟨listingComplete_iff fs, fun commands hok => ?_⟩
  obtain ⟨st, hrun, hst⟩ := runPartial_invariant_of_guarded (I := ShellOk)
    (fun _ _ hst hcommand => exec_ok hst hcommand) (shellStart_ok fs) commands hok
  refine ⟨st, hrun, ?_⟩
  rw [listingComplete_iff]
  exact ⟨fun h => h.1, fun h => ⟨h, hst.fs.hangs⟩⟩

/-- A directory and a file in it, made in `/home`. -/
theorem listing_complete_iff_mkdir_write :
    (ListingComplete emptySession ↔ FewChildren emptySession ∧ Hangs emptySession) ∧
    ∃ st, runPartial exec (shellStart emptySession)
      [.mkdir ⟨ascii "work", by decide⟩,
        .write ⟨ascii "work/a.txt", by decide⟩ [⟨ascii "hello", by decide⟩]] = some st ∧
      (ListingComplete st.fs ↔ FewChildren st.fs) :=
  ⟨(listing_complete_iff emptySession).1, (listing_complete_iff emptySession).2 _
    (commandOk_mkdir_write (by decide) (fsSeed emptySession) _ _ _
      (show resolvePathFrom (ascii "/home") (ascii "work/a.txt") = some (ascii "/home/work/a.txt")
        by decide) (by decide))⟩

/-- The names of 49 files at the root. -/
def crowdPath (i : Nat) : Bytes := [slash, 65 + UInt8.ofNat i]

def crowdWord (i : Nat) : Word := ⟨cString (crowdPath i), cString_nulFree _⟩

def crowdOps : List FsOp := (List.range 49).map fun i => .write (crowdPath i) [] .text

theorem crowd_resolves : ∀ i ∈ List.range 49, NulFree (crowdPath i) ∧
    resolvePathFrom (ascii "/home") (crowdWord i).bytes = some (crowdPath i) := by
  decide +kernel

theorem crowd_run (fs : ArmFs) {numbers : List Nat} (h : ∀ i ∈ numbers, i ∈ List.range 49) :
    runPartial exec ⟨fs, ascii "/home"⟩ (numbers.map fun i => .touch (crowdWord i)) =
      some ⟨run fsStep fs (numbers.map fun i => .write (crowdPath i) [] .text), ascii "/home"⟩ := by
  induction numbers generalizing fs with
  | nil => rfl
  | cons i numbers ih =>
    have hresolve := (crowd_resolves i (h i (by simp))).2
    have hstep : exec ⟨fs, ascii "/home"⟩ (.touch (crowdWord i)) =
        some ⟨fsStep fs (.write (crowdPath i) [] .text), ascii "/home"⟩ := by
      rw [exec, ShellState.resolvePath, hresolve]
      rfl
    rw [List.map_cons, runPartial_cons, hstep]
    exact ih _ fun j hj => h j (by simp [hj])

theorem crowd_fits (table : Table) {numbers : List Nat} (h : ∀ i ∈ numbers, i ∈ List.range 49) :
    Guarded tableStep OpFits table (numbers.map fun i => .write (crowdPath i) [] .text) := by
  induction numbers generalizing table with
  | nil => exact trivial
  | cons i numbers ih =>
    exact ⟨(crowd_resolves i (h i (by simp))).1, ih _ fun j hj => h j (by simp [hj])⟩

theorem crowd_children : fileManagerViewMax <
    ((run tableStep seedTable crowdOps).filter fun node => listedUnder [slash] node.path).length := by
  decide +kernel

/-- `touch` makes more files at the root than `ls` shows. -/
theorem not_listing_complete : ¬ ∀ (fs : ArmFs) (commands : List Command) (st : ShellState),
    runPartial exec (shellStart fs) commands = some st → ListingComplete st.fs := by
  intro h
  have hcomplete := h emptySession _ _ (crowd_run (fsSeed emptySession) fun i hi => hi)
  have hfew := hcomplete.few [slash] List.mem_cons_self
  obtain ⟨hseed, hok⟩ := fsSeed_nodes emptySession
  have hnodes := (run_refines hok (crowd_fits _ fun i hi => hi)).1
  have hcrowd := crowd_children
  rw [crowdOps, ← hseed, ← hnodes, ArmFs.nodes, List.filter_map, List.length_map] at hcrowd
  exact absurd hfew (not_le.mpr hcrowd)

end Runs

end SnsxOS.Arm64
