import SnsxOS.X86.Addresses
import SnsxOS.Framework.Walk

/-!
# `ls` and `tree`

Both commands print the views that `fs_list` hands out, at most `FILE_MANAGER_VIEW_MAX` of a
directory. `shell_tree_walk` enters the path that the view of a directory shows and calls itself
without a bound: on a view that shows a directory above it the walk does not end.
-/

namespace SnsxOS.X86

open Framework

def shellBasename (path : Bytes) : Bytes :=
  match lastIndex? slash path with
  | none => path
  | some i => path.drop (i + 1)

/-- What `shell_print_entry_line` prints of a view. -/
structure EntryLine where
  name : Bytes
  type : UInt32
  size : Nat

def shellPrintEntryLine (st : FsState) (slot : Nat) : Option EntryLine :=
  (readEntry st slot).map fun entry => ⟨shellBasename entry.name, entry.type, entry.size⟩

inductive LsOutput where
  | entry (line : EntryLine)
  | notFound
  | empty
  | listing (lines : List EntryLine)

/-- The lines of several views. -/
def shellPrintEntries (st : FsState) (slots : List Nat) : Option (List EntryLine) :=
  slots.mapM (shellPrintEntryLine st)

def lsDirectory (st : FsState) (absolutePath : Bytes) : Option LsOutput :=
  match fsList st absolutePath fileManagerViewMax with
  | [] => some .empty
  | slots => (shellPrintEntries st slots).map .listing

/-- `command_ls`; there is no outcome when a null pointer is followed. -/
def commandLs (st : ShellState) (path : Bytes) : Option LsOutput :=
  let absolutePath := st.resolvePath path
  match fsFind st.table absolutePath with
  | some slot =>
      if (st.table.nodeAt slot).entry.type ≠ fsTypeDir then
        (shellPrintEntryLine st.table slot).map .entry
      else lsDirectory st.table absolutePath
  | none =>
      if absolutePath ≠ [slash] then some .notFound else lsDirectory st.table absolutePath

/-- The loop of `shell_tree_walk` over the views still to be shown, with the indent of each. -/
def treeEntries (st : FsState) : Nat → Nat → List Nat → Option (List (Nat × EntryLine))
  | 0, _, _ => none
  | _ + 1, _, [] => some []
  | fuel + 1, depth, slot :: slots =>
      (shellPrintEntryLine st slot).bind fun line =>
        if (st.nodeAt slot).entry.type = fsTypeDir then
          (shellEntryAbsolutePath st slot).bind fun childPath =>
            (treeEntries st fuel (depth + 1) (fsList st childPath fileManagerViewMax)).bind
              fun inner => (treeEntries st fuel depth slots).map fun lines =>
                (depth, line) :: (inner ++ lines)
        else (treeEntries st fuel depth slots).map fun lines => (depth, line) :: lines

def shellTreeWalk (st : FsState) (fuel : Nat) (absolutePath : Bytes) (depth : Nat) :
    Option (List (Nat × EntryLine)) :=
  treeEntries st fuel depth (fsList st absolutePath fileManagerViewMax)

inductive TreeOutput where
  | notFound
  | entry (line : EntryLine)
  | tree (root : Bytes) (lines : List (Nat × EntryLine))

/-- `command_tree`; no outcome when a null pointer is followed or the fuel is used up. -/
def commandTree (fuel : Nat) (st : ShellState) (path : Bytes) : Option TreeOutput :=
  let absolutePath := st.resolvePath path
  match fsFind st.table absolutePath with
  | none =>
      if absolutePath = [slash] then
        (shellTreeWalk st.table fuel absolutePath 1).map (.tree [slash])
      else some .notFound
  | some slot =>
      if (st.table.nodeAt slot).entry.type ≠ fsTypeDir then
        (shellPrintEntryLine st.table slot).map .entry
      else (shellTreeWalk st.table fuel absolutePath 1).map (.tree absolutePath)

section Walks

/-- A view of a directory. -/
def isDirView (st : FsState) (slot : Nat) : Bool := (st.nodeAt slot).entry.type == fsTypeDir

/-- The path that a view shows. -/
def shownPath (st : FsState) (slot : Nat) : Bytes := (shellEntryAbsolutePath st slot).getD []

/-- The views that are shown of a directory. -/
def shownList (st : FsState) (path : Bytes) : List Nat := fsList st path fileManagerViewMax

/-- The directory that `tree` walks through. -/
def treeRoot (st : ShellState) (path : Bytes) : Option Bytes :=
  let absolutePath := st.resolvePath path
  match fsFind st.table absolutePath with
  | none => if absolutePath = [slash] then some absolutePath else none
  | some slot =>
      if (st.table.nodeAt slot).entry.type = fsTypeDir then some absolutePath else none

/-- No directory that the walk meets is shown again inside it. -/
def TreeEnds (st : FsState) (root : Bytes) : Prop :=
  Grounded (shownList st) (shownPath st) (isDirView st) (shownList st root)

variable {st : FsState}

theorem FsOk.shellPrintEntryLine (h : FsOk st) {slot : Nat} (hslot : slot < st.count) :
    ∃ line, shellPrintEntryLine st slot = some line := by
  obtain ⟨entry, hentry⟩ := h.readEntry hslot
  rw [X86.shellPrintEntryLine, hentry]
  exact ⟨_, rfl⟩

theorem FsOk.shellEntryAbsolutePath (h : FsOk st) {slot : Nat} (hslot : slot < st.count) :
    shellEntryAbsolutePath st slot = some (shownPath st slot) := by
  have hused : slot < st.used.length := by simpa using hslot
  obtain ⟨nameSlot, hname⟩ :=
    Option.isSome_iff_exists.mp (h.viewed _ (List.getElem_mem hused)).name
  rw [shownPath, X86.shellEntryAbsolutePath, nodeAt_used hused, hname]
  rfl

theorem fsFind_lt {path : Bytes} {slot : Nat} (h : fsFind st path = some slot) :
    slot < st.count := by
  rw [fsFind] at h
  cases hnorm : fsNormalizePath path with
  | none => simp [hnorm] at h
  | some p =>
    rw [hnorm] at h
    simpa using (fsFindNodeNormalized_some h).1

theorem mem_shownList {path : Bytes} {slot : Nat} (h : slot ∈ shownList st path) :
    slot < st.count := by
  obtain ⟨-, hslot, -⟩ := mem_fsList h
  simpa using hslot

/-- The line printed for a view. -/
def shownLine (st : FsState) (slot : Nat) : EntryLine :=
  (shellPrintEntryLine st slot).getD ⟨[], 0, 0⟩

theorem treeEntries_eq (h : FsOk st) {fuel depth : Nat} {slots : List Nat}
    (hslots : ∀ slot ∈ slots, slot < st.count) :
    treeEntries st fuel depth slots =
      (walk (shownList st) (shownPath st) (isDirView st) fuel depth slots).map
        (List.map (Prod.map id (shownLine st))) := by
  induction fuel generalizing depth slots with
  | zero => rfl
  | succ fuel ih =>
    cases slots with
    | nil => rfl
    | cons slot slots =>
      have hslot := hslots slot List.mem_cons_self
      have hrest : treeEntries st fuel depth slots =
          (walk (shownList st) (shownPath st) (isDirView st) fuel depth slots).map
            (List.map (Prod.map id (shownLine st))) :=
        ih fun s hs => hslots s (List.mem_cons_of_mem _ hs)
      obtain ⟨line, hline⟩ := h.shellPrintEntryLine hslot
      have hshown : shownLine st slot = line := by rw [shownLine, hline, Option.getD_some]
      rw [treeEntries, hline, Option.bind_some, walk, hrest]
      by_cases hdir : (st.nodeAt slot).entry.type = fsTypeDir
      · have hview : isDirView st slot = true := beq_iff_eq.mpr hdir
        have hinner : treeEntries st fuel (depth + 1) (shownList st (shownPath st slot)) =
            (walk (shownList st) (shownPath st) (isDirView st) fuel (depth + 1)
              (shownList st (shownPath st slot))).map (List.map (Prod.map id (shownLine st))) :=
          ih fun s hs => mem_shownList hs
        rw [shownList] at hinner
        rw [if_pos hdir, if_pos hview, h.shellEntryAbsolutePath hslot, Option.bind_some, hinner,
          shownList]
        cases walk (shownList st) (shownPath st) (isDirView st) fuel (depth + 1)
            (fsList st (shownPath st slot) fileManagerViewMax) with
        | none => rfl
        | some inner =>
          cases walk (shownList st) (shownPath st) (isDirView st) fuel depth slots with
          | none => rfl
          | some lines => simp [hshown]
      · have hview : ¬ isDirView st slot = true := fun hview => hdir (beq_iff_eq.mp hview)
        rw [if_neg hdir, if_neg hview]
        cases walk (shownList st) (shownPath st) (isDirView st) fuel depth slots with
        | none => rfl
        | some lines => simp [hshown]

theorem shellTreeWalk_eq (h : FsOk st) (fuel : Nat) (root : Bytes) (depth : Nat) :
    shellTreeWalk st fuel root depth =
      (walk (shownList st) (shownPath st) (isDirView st) fuel depth (shownList st root)).map
        (List.map (Prod.map id (shownLine st))) :=
  treeEntries_eq h fun _ hslot => mem_shownList hslot

/-- A walk that comes back has not met a directory inside itself. -/
theorem TreeEnds.of_run (h : FsOk st) {fuel : Nat} {root : Bytes} {lines : List (Nat × EntryLine)}
    (hrun : shellTreeWalk st fuel root 1 = some lines) : TreeEnds st root := by
  rw [shellTreeWalk_eq h] at hrun
  obtain ⟨walked, hwalk, -⟩ := Option.map_eq_some_iff.mp hrun
  exact (visits_of_walk hwalk).grounded

theorem TreeEnds.settles (h : FsOk st) {root : Bytes} (hends : TreeEnds st root) :
    ∃ lines, Settles (fun fuel => shellTreeWalk st fuel root 1) lines := by
  have hall : ∀ path, ∀ slot ∈ shownList st path, slot ∈ List.range st.count :=
    fun path slot hslot => List.mem_range.mpr (mem_shownList hslot)
  obtain ⟨out, hout⟩ := (exists_visits_iff_grounded hall).mpr hends
  obtain ⟨lines, hlines, -⟩ := settles_of_visits hout 1
  simp only [shellTreeWalk_eq h]
  exact ⟨_, hlines.map _⟩

end Walks

section Returns

variable {st : ShellState}

theorem commandTree_eq (h : FsOk st.table) (path : Bytes) :
    (∃ root, treeRoot st path = some root ∧ ∀ fuel, commandTree fuel st path =
      (shellTreeWalk st.table fuel root 1).map (.tree root)) ∨
    (treeRoot st path = none ∧ ∃ output, ∀ fuel, commandTree fuel st path = some output) := by
  dsimp only [treeRoot, commandTree]
  cases hfind : fsFind st.table (st.resolvePath path) with
  | none =>
    dsimp only
    by_cases hroot : st.resolvePath path = [slash]
    · simp only [hroot, if_true]
      exact Or.inl ⟨_, rfl, fun _ => rfl⟩
    · simp only [if_neg hroot]
      exact Or.inr ⟨trivial, _, fun _ => rfl⟩
  | some slot =>
    dsimp only
    by_cases hdir : (st.table.nodeAt slot).entry.type = fsTypeDir
    · simp only [hdir, ne_eq, not_true, if_true, if_false]
      exact Or.inl ⟨_, rfl, fun _ => rfl⟩
    · obtain ⟨line, hline⟩ := h.shellPrintEntryLine (fsFind_lt hfind)
      simp only [hdir, ne_eq, not_false_eq_true, if_true, if_false, hline, Option.map_some]
      exact Or.inr ⟨trivial, _, fun _ => rfl⟩

/-- When `tree` comes back, the walk it started has not met a directory inside itself. -/
theorem TreeEnds.of_commandTree (h : FsOk st.table) {fuel : Nat} {path : Bytes}
    {output : TreeOutput} (hrun : commandTree fuel st path = some output) {root : Bytes}
    (hroot : treeRoot st path = some root) : TreeEnds st.table root := by
  rcases commandTree_eq h path with hwalk | hother
  · obtain ⟨walked, hwalked, htree⟩ := hwalk
    obtain rfl := Option.some.inj (hwalked.symm.trans hroot)
    rw [htree] at hrun
    obtain ⟨lines, hlines, -⟩ := Option.map_eq_some_iff.mp hrun
    exact .of_run h hlines
  · rw [hother.1] at hroot
    cases hroot

theorem commandTree_settles (h : FsOk st.table) {path : Bytes}
    (hends : ∀ root, treeRoot st path = some root → TreeEnds st.table root) :
    ∃ output, Settles (fun fuel => commandTree fuel st path) output := by
  rcases commandTree_eq h path with hwalk | hother
  · obtain ⟨root, hroot, htree⟩ := hwalk
    simp only [htree]
    obtain ⟨lines, hlines⟩ := (hends root hroot).settles h
    exact ⟨_, hlines.map _⟩
  · obtain ⟨-, output, htree⟩ := hother
    simp only [htree]
    exact ⟨output, settles_some output⟩

/-- `tree` comes back exactly when the walk it starts meets no directory inside itself. -/
theorem commandTree_settles_iff (h : FsOk st.table) (path : Bytes) :
    (∃ output, Settles (fun fuel => commandTree fuel st path) output) ↔
      ∀ root, treeRoot st path = some root → TreeEnds st.table root := by
  constructor
  · intro hsettles root hroot
    obtain ⟨output, hsettles⟩ := hsettles
    obtain ⟨fuel, hrun⟩ := hsettles.exists_run
    exact .of_commandTree h hrun hroot
  · exact commandTree_settles h

/-- `ls` never follows a null pointer. -/
theorem FsOk.commandLs (h : FsOk st.table) (path : Bytes) :
    ∃ output, commandLs st path = some output := by
  have hlines : ∀ slots : List Nat, (∀ slot ∈ slots, slot < st.table.count) →
      ∃ lines, shellPrintEntries st.table slots = some lines := by
    intro slots hslots
    induction slots with
    | nil => exact ⟨[], rfl⟩
    | cons slot slots ih =>
      obtain ⟨line, hline⟩ := h.shellPrintEntryLine (hslots slot List.mem_cons_self)
      obtain ⟨lines, hlines⟩ := ih fun s hs => hslots s (List.mem_cons_of_mem _ hs)
      rw [shellPrintEntries] at hlines ⊢
      rw [List.mapM_cons, hline, hlines]
      exact ⟨_, rfl⟩
  have hlist : ∃ output, lsDirectory st.table (st.resolvePath path) = some output := by
    rw [lsDirectory]
    split
    · exact ⟨_, rfl⟩
    · obtain ⟨lines, hlines⟩ :=
        hlines (shownList st.table (st.resolvePath path)) fun _ hslot => mem_shownList hslot
      rw [shownList] at hlines
      rw [hlines]
      exact ⟨_, rfl⟩
  dsimp only [X86.commandLs]
  split
  · rename_i slot hfind
    split
    · obtain ⟨line, hline⟩ := h.shellPrintEntryLine (fsFind_lt hfind)
      rw [hline]
      exact ⟨_, rfl⟩
    · exact hlist
  · split
    · exact ⟨_, rfl⟩
    · exact hlist

end Returns

section Complete

variable {st : FsState}

/-- The children of a directory, in the order of their slots. -/
def isChildOf (st : FsState) (path : Bytes) (slot : Nat) : Bool :=
  match fsNormalizePath path with
  | none => false
  | some p => fsIsDirectChild p (st.nodeAt slot).name

def childrenOf (st : FsState) (path : Bytes) : List Nat :=
  (List.range st.count).filter (isChildOf st path)

/-- The paths of the directories. -/
def directoryPaths (st : FsState) : List Bytes :=
  [slash] :: ((List.range st.count).filter (isDirView st)).map (shownPath st)

/-- No directory has more children than the array has places. -/
def FewChildren (st : FsState) : Prop :=
  ∀ path ∈ directoryPaths st, (childrenOf st path).length ≤ fileManagerViewMax

/-- A tree whose views show their own slots, with their whole names. -/
structure ShowsItself (st : FsState) : Prop extends Shown st where
  tree : FsTree st.used

theorem ShowsItself.entry (h : ShowsItself st) {slot : Nat} (hslot : slot < st.count) :
    (st.nodeAt slot).entry =
      ⟨some slot, some slot, (st.nodeAt slot).size, (st.nodeAt slot).type⟩ := by
  have hused : slot < st.used.length := by simpa using hslot
  rw [nodeAt_used hused]
  exact congrArg FsNode.entry (h.views slot hused)

theorem ShowsItself.normal (h : ShowsItself st) {slot : Nat} (hslot : slot < st.count) :
    NormalName (st.nodeAt slot).name := by
  have hused : slot < st.used.length := by simpa using hslot
  rw [nodeAt_used hused]
  exact h.tree.normal _ (List.getElem_mem hused)

theorem ShowsItself.ok (h : ShowsItself st) : FsOk st := by
  refine ⟨h.tree, fun node hn => ?_⟩
  obtain ⟨slot, hused, rfl⟩ := List.mem_iff_getElem.mp hn
  have hslot : slot < st.count := by simpa using hused
  have hentry := h.entry hslot
  have hnormal := h.normal hslot
  rw [nodeAt_used hused] at hentry hnormal
  constructor
  · exact ⟨hnormal.ne_nil, by rw [hentry]⟩
  · rw [hentry]
    rfl
  · rw [hentry]
    rfl

theorem ShowsItself.isDirView (h : ShowsItself st) {slot : Nat} (hslot : slot < st.count) :
    isDirView st slot = true ↔ (st.nodeAt slot).type = fsTypeDir := by
  rw [X86.isDirView, h.entry hslot, beq_iff_eq]

theorem ShowsItself.shownPath (h : ShowsItself st) {slot : Nat} (hslot : slot < st.count) :
    shownPath st slot = slash :: (st.nodeAt slot).name := by
  have hused : slot < st.used.length := by simpa using hslot
  have hshort : (st.nodeAt slot).name.length < fsPathMax - 1 := by
    rw [nodeAt_used hused]
    have hname := h.names _ (List.getElem_mem hused)
    rw [shownNameMax] at hname
    have hmax : fsPathMax = 64 := rfl
    omega
  rw [X86.shownPath, X86.shellEntryAbsolutePath, h.entry hslot, Option.map_some, Option.getD_some,
    strcopyLimit_of_lt hshort]

theorem ShowsItself.normalizePath (h : ShowsItself st) {slot : Nat} (hslot : slot < st.count) :
    fsNormalizePath (X86.shownPath st slot) = some (st.nodeAt slot).name := by
  have hnormal := h.normal hslot
  rw [h.shownPath hslot, fsNormalizePath_slash hnormal.ne_nil, fsNormalizePath_of_normal hnormal]

/-- The path of the directory in front of the last slash. -/
def parentPath (name : Bytes) : Bytes :=
  match lastIndex? slash name with
  | none => [slash]
  | some i => slash :: name.take i

theorem fsNormalizePath_root : fsNormalizePath [slash] = some [] := rfl

theorem ShowsItself.mem_directoryPaths (h : ShowsItself st) {path : Bytes} :
    path ∈ directoryPaths st ↔ path = [slash] ∨ ∃ slot < st.count,
      (st.nodeAt slot).type = fsTypeDir ∧ path = slash :: (st.nodeAt slot).name := by
  rw [directoryPaths, List.mem_cons, List.mem_map]
  apply or_congr_right
  constructor
  · intro hmem
    obtain ⟨slot, hslot, rfl⟩ := hmem
    obtain ⟨hrange, hdir⟩ := List.mem_filter.mp hslot
    have hcount := List.mem_range.mp hrange
    exact ⟨slot, hcount, (h.isDirView hcount).mp hdir, h.shownPath hcount⟩
  · intro hmem
    obtain ⟨slot, hcount, hdir, rfl⟩ := hmem
    exact ⟨slot, List.mem_filter.mpr ⟨List.mem_range.mpr hcount, (h.isDirView hcount).mpr hdir⟩,
      h.shownPath hcount⟩

/-- Among the directories only the parent has a node as its child. -/
theorem ShowsItself.isChildOf_iff (h : ShowsItself st) {path : Bytes}
    (hpath : path ∈ directoryPaths st) {slot : Nat} (hslot : slot < st.count) :
    isChildOf st path slot = true ↔ path = parentPath (st.nodeAt slot).name := by
  have hnormal := h.normal hslot
  generalize hname : (st.nodeAt slot).name = name at hnormal
  have hpathnorm : ∃ p, fsNormalizePath path = some p ∧ path = slash :: p := by
    rcases h.mem_directoryPaths.mp hpath with rfl | hdir
    · exact ⟨[], rfl, rfl⟩
    · obtain ⟨dir, hdir, -, rfl⟩ := hdir
      refine ⟨_, ?_, rfl⟩
      rw [← h.shownPath hdir, h.normalizePath hdir]
  obtain ⟨p, hp, rfl⟩ := hpathnorm
  rw [isChildOf, hp, hname]
  dsimp only
  rw [fsIsDirectChild, parentPath]
  cases hlast : lastIndex? slash name with
  | none =>
    have hno := lastIndex?_eq_none.mp hlast
    by_cases hroot : p = []
    · simp [hroot, hno]
    · have hbelow : belowTest slash p name = false := by
        rw [← Bool.not_eq_true, belowTest_iff]
        intro hbelow
        obtain ⟨rest, rfl⟩ := hbelow
        exact hno (by simp)
      simp [hroot, hbelow]
  | some i =>
    obtain ⟨a, b, rfl, rfl, hb⟩ := lastIndex?_eq_some hlast
    have ha : a ≠ [] := by
      rintro rfl
      exact hnormal.head_ne rfl
    have htake : (a ++ slash :: b).take a.length = a := List.take_left
    dsimp only
    rw [htake]
    by_cases hroot : p = []
    · simp [hroot, ha]
    · rw [if_neg hroot, Bool.and_eq_true, belowTest_iff]
      constructor
      · intro hchild
        obtain ⟨hbelow, hlastname⟩ := hchild
        obtain ⟨rest, hrest⟩ := hbelow
        rw [hrest] at hlastname hlast
        have hdrop : (p ++ slash :: rest).drop (p.length + 1) = rest := by
          rw [← List.drop_drop, List.drop_left]
          rfl
        rw [hdrop] at hlastname
        have hno : slash ∉ rest := by simpa using hlastname
        rw [lastIndex?_append hno, Option.some.injEq] at hlast
        rw [(List.append_inj hrest hlast.symm).1]
      · intro hsame
        obtain rfl := (List.cons.inj hsame).2
        have hdrop : (p ++ slash :: b).drop (p.length + 1) = b := by
          rw [← List.drop_drop, List.drop_left]
          rfl
        rw [hdrop]
        exact ⟨⟨b, rfl⟩, by simpa using hb⟩

/-- In a tree the parent of a node is a directory. -/
theorem ShowsItself.parentPath_mem (h : ShowsItself st) {slot : Nat} (hslot : slot < st.count) :
    parentPath (st.nodeAt slot).name ∈ directoryPaths st := by
  have hused : slot < st.used.length := by simpa using hslot
  have hnormal := h.normal hslot
  rw [h.mem_directoryPaths, parentPath]
  cases hlast : lastIndex? slash (st.nodeAt slot).name with
  | none => exact Or.inl rfl
  | some i =>
    obtain ⟨a, b, hname, rfl, -⟩ := lastIndex?_eq_some hlast
    have ha : a ≠ [] := by
      rintro rfl
      exact hnormal.head_ne (by rw [hname]; rfl)
    dsimp only
    rw [hname, List.take_left]
    rw [nodeAt_used hused] at hname
    obtain ⟨dir, hdir, hdirname, htype⟩ :=
      h.tree.rooted _ (List.getElem_mem hused) a ha ⟨b, hname⟩
    obtain ⟨i, hi, rfl⟩ := List.mem_iff_getElem.mp hdir
    refine Or.inr ⟨i, by simpa using hi, ?_, ?_⟩
    · rw [nodeAt_used hi, htype]
    · rw [nodeAt_used hi, hdirname]

theorem ShowsItself.directoryPaths_nodup (h : ShowsItself st) : (directoryPaths st).Nodup := by
  rw [directoryPaths, List.nodup_cons]
  constructor
  · intro hmem
    obtain ⟨slot, hslot, hpath⟩ := List.mem_map.mp hmem
    have hcount := List.mem_range.mp (List.mem_filter.mp hslot).1
    rw [h.shownPath hcount] at hpath
    exact (h.normal hcount).ne_nil (List.cons.inj hpath).2
  · apply List.Nodup.map_on _ (List.nodup_range.filter _)
    intro i hi j hj hsame
    have hicount := List.mem_range.mp (List.mem_filter.mp hi).1
    have hjcount := List.mem_range.mp (List.mem_filter.mp hj).1
    rw [h.shownPath hicount, h.shownPath hjcount] at hsame
    have hiused : i < st.used.length := by simpa using hicount
    have hjused : j < st.used.length := by simpa using hjcount
    rw [nodeAt_used hiused, nodeAt_used hjused] at hsame
    have hi : i < (st.used.map FsNode.name).length := by simpa using hicount
    have hj : j < (st.used.map FsNode.name).length := by simpa using hjcount
    apply (@List.Nodup.getElem_inj_iff _ _ h.tree.distinct i hi j hj).mp
    simpa using (List.cons.inj hsame).2

/-- What is shown of a directory are its first children. -/
theorem ShowsItself.shownList (h : ShowsItself st) {path : Bytes}
    (hpath : path ∈ directoryPaths st) :
    shownList st path = (childrenOf st path).take fileManagerViewMax := by
  rw [X86.shownList, fsList, childrenOf]
  rcases h.mem_directoryPaths.mp hpath with rfl | hdir
  · rw [fsNormalizePath_root]
    rfl
  · obtain ⟨dir, hcount, htype, rfl⟩ := hdir
    have hused : dir < st.used.length := by simpa using hcount
    have hnorm : fsNormalizePath (slash :: (st.nodeAt dir).name) = some (st.nodeAt dir).name := by
      rw [← h.shownPath hcount, h.normalizePath hcount]
    have hfind : fsFindNodeNormalizedConst st (st.nodeAt dir).name = some (st.nodeAt dir) := by
      rw [fsFindNodeNormalizedConst, nodeAt_used hused]
      exact (lookup_eq_some h.tree.distinct).mpr ⟨List.getElem_mem hused, rfl⟩
    have hfilter : isChildOf st (slash :: (st.nodeAt dir).name) =
        fun slot => fsIsDirectChild (st.nodeAt dir).name (st.nodeAt slot).name := by
      funext slot
      rw [isChildOf, hnorm]
    rw [hnorm, hfilter]
    dsimp only
    rw [if_neg (h.normal hcount).ne_nil, hfind]
    dsimp only
    rw [if_neg (not_not.mpr htype)]

/-- Names get longer on the way down. -/
def pathRank (path : Bytes) : Nat := ((fsNormalizePath path).getD []).length

theorem ShowsItself.rank_lt (h : ShowsItself st) {path : Bytes} {slot : Nat}
    (hslot : slot < st.count) (hchild : isChildOf st path slot = true) :
    pathRank path < pathRank (X86.shownPath st slot) := by
  rw [pathRank, pathRank, h.normalizePath hslot, Option.getD_some]
  rw [isChildOf] at hchild
  cases hnorm : fsNormalizePath path with
  | none => simp [hnorm] at hchild
  | some p =>
    rw [hnorm] at hchild
    rw [Option.getD_some]
    dsimp only at hchild
    rw [fsIsDirectChild] at hchild
    split at hchild
    · rename_i hroot
      rw [hroot, List.length_nil]
      exact List.length_pos_of_ne_nil (h.normal hslot).ne_nil
    · obtain ⟨hbelow, -⟩ := Bool.and_eq_true_iff.mp hchild
      obtain ⟨rest, hrest⟩ := (belowTest_iff slash p _).mp hbelow
      rw [hrest, List.length_append, List.length_cons]
      omega

theorem isChildOf_of_shown {path : Bytes} {slot : Nat} (h : slot ∈ X86.shownList st path) :
    isChildOf st path slot = true := by
  obtain ⟨d, -, hnorm, hchild⟩ := mem_fsList h
  rw [isChildOf, hnorm]
  exact hchild

/-- The walk of a table that shows itself comes back. -/
theorem ShowsItself.treeEnds (h : ShowsItself st) (root : Bytes) : TreeEnds st root := by
  have hrank : ∀ path, ∀ slot ∈ X86.shownList st path, X86.isDirView st slot = true →
      pathRank path < pathRank (X86.shownPath st slot) ∧
        pathRank (X86.shownPath st slot) ≤ fsPathMax := by
    intro path slot hslot _
    have hcount := mem_shownList hslot
    refine ⟨h.rank_lt hcount (isChildOf_of_shown hslot), ?_⟩
    rw [pathRank, h.normalizePath hcount]
    exact (h.normal hcount).length_lt.le
  obtain ⟨out, hout⟩ := exists_visits hrank root
  exact hout.grounded

theorem ShowsItself.closed (h : ShowsItself st) :
    Closed (childrenOf st) (X86.shownPath st) (X86.isDirView st) (childrenOf st [slash])
      (List.range st.count) := by
  apply (closed_filter_iff (isChildOf st) [slash]).mpr
  intro slot hslot
  have hcount := List.mem_range.mp hslot
  rw [← List.count_eq_one_of_mem h.directoryPaths_nodup (h.parentPath_mem hcount), List.count]
  apply List.countP_congr
  intro path hpath
  rw [h.isChildOf_iff hpath hcount, beq_iff_eq]

/-- The line of a node: one step of indent for each directory around it. -/
def nodeLine (st : FsState) (slot : Nat) : Nat × EntryLine :=
  ((st.nodeAt slot).name.count slash + 1,
    ⟨shellBasename (st.nodeAt slot).name, (st.nodeAt slot).type, (st.nodeAt slot).size⟩)

theorem ShowsItself.shownLine (h : ShowsItself st) {slot : Nat} (hslot : slot < st.count) :
    X86.shownLine st slot = (nodeLine st slot).2 := by
  rw [X86.shownLine, X86.shellPrintEntryLine, readEntry, h.entry hslot]
  rfl

theorem count_slash_child {p name : Bytes} (h : fsIsDirectChild p name = true) :
    name.count slash = if p = [] then 0 else p.count slash + 1 := by
  rw [fsIsDirectChild] at h
  split at h
  · rename_i hroot
    rw [if_pos hroot, List.count_eq_zero]
    simpa using h
  · rename_i hne
    obtain ⟨hbelow, hlast⟩ := Bool.and_eq_true_iff.mp h
    obtain ⟨rest, rfl⟩ := (belowTest_iff slash p name).mp hbelow
    have hdrop : (p ++ slash :: rest).drop (p.length + 1) = rest := by
      rw [← List.drop_drop, List.drop_left]
      rfl
    rw [hdrop] at hlast
    have hno : rest.count slash = 0 := List.count_eq_zero.mpr (by simpa using hlast)
    rw [if_neg hne, List.count_append, List.count_cons_self, hno]

/-- What a directory lists is indented by one step more. -/
theorem ShowsItself.level (h : ShowsItself st) {dir slot : Nat} (hcount : dir < st.count)
    (hslot : slot ∈ X86.shownList st (X86.shownPath st dir)) :
    (nodeLine st slot).1 = (nodeLine st dir).1 + 1 := by
  have hchild := isChildOf_of_shown hslot
  rw [isChildOf, h.normalizePath hcount] at hchild
  dsimp only [nodeLine]
  rw [count_slash_child hchild, if_neg (h.normal hcount).ne_nil]

/-- The order in which `tree` shows the slots of a table. -/
structure TreeOrder (st : FsState) (slots : List Nat) : Prop where
  /-- each once, unless a directory has too many children -/
  each_once : slots.Perm (List.range st.count) ↔ FewChildren st
  directories_first : FewChildren st →
    DirectoriesFirst (childrenOf st) (X86.shownPath st) (X86.isDirView st) slots

theorem ShowsItself.treeOrder (h : ShowsItself st) {slots : List Nat}
    (hvisits : Visits (X86.shownList st) (X86.shownPath st) (X86.isDirView st)
      (X86.shownList st [slash]) slots) : TreeOrder st slots := by
  have hroot : [slash] ∈ directoryPaths st := List.mem_cons_self
  have hmem : ∀ slot ∈ slots, slot < st.count := by
    intro slot hslot
    rcases hvisits.mem hslot with hslot | hslot
    · exact mem_shownList hslot
    · obtain ⟨path, hslot⟩ := hslot
      exact mem_shownList hslot
  have hdir : ∀ slot ∈ slots, X86.isDirView st slot = true →
      X86.shownPath st slot ∈ directoryPaths st := by
    intro slot hslot hview
    exact List.mem_cons_of_mem _ (List.mem_map_of_mem
      (List.mem_filter.mpr ⟨List.mem_range.mpr (hmem slot hslot), hview⟩))
  have hfull : FewChildren st → ∀ path ∈ directoryPaths st,
      X86.shownList st path = childrenOf st path := by
    intro hfew path hpath
    rw [h.shownList hpath, List.take_of_length_le (hfew path hpath)]
  have hclosed : FewChildren st → Visits (childrenOf st) (X86.shownPath st) (X86.isDirView st)
      (childrenOf st [slash]) slots := by
    intro hfew
    rw [← hfull hfew _ hroot]
    exact hvisits.congr fun dir hslot hview => hfull hfew _ (hdir dir hslot hview)
  have hperm : FewChildren st → slots.Perm (List.range st.count) := by
    intro hfew
    apply (hclosed hfew).closed.perm h.closed
    intro dir _ node hlisted
    obtain ⟨hrange, hchild⟩ := List.mem_filter.mp hlisted.2
    exact h.rank_lt (List.mem_range.mp hrange) hchild
  refine ⟨⟨fun hall path hpath => ?_, hperm⟩, fun hfew => ?_⟩
  · -- every child of the directory is shown, and no other directory shows it
    have hshown : ∀ slot ∈ childrenOf st path, slot ∈ X86.shownList st path := by
      intro slot hslot
      obtain ⟨hrange, hchild⟩ := List.mem_filter.mp hslot
      have hcount := List.mem_range.mp hrange
      have hparent := (h.isChildOf_iff hpath hcount).mp hchild
      have hother : ∀ other ∈ directoryPaths st, slot ∈ X86.shownList st other →
          slot ∈ X86.shownList st path := by
        intro other hmember hlisted
        have hsame := (h.isChildOf_iff hmember hcount).mp (isChildOf_of_shown hlisted)
        rwa [hparent, ← hsame]
      have hvisited := hvisits.closed.mem_iff.mp (hall.mem_iff.mpr hrange)
      rcases List.mem_append.mp hvisited with hlisted | hlisted
      · exact hother _ hroot hlisted
      · obtain ⟨dir, hdirmem, hlisted⟩ := List.mem_flatMap.mp hlisted
        obtain ⟨hdirmem, hview⟩ := List.mem_filter.mp hdirmem
        exact hother _ (hdir dir hdirmem hview) hlisted
    have hnodup : (childrenOf st path).Nodup := List.nodup_range.filter _
    have hle := (hnodup.subperm fun slot hslot => hshown slot hslot).length_le
    rw [h.shownList hpath, List.length_take] at hle
    exact hle.trans (Nat.min_le_left _ _)
  · apply (hclosed hfew).directoriesFirst (hperm hfew)
    · intro path slot hslot
      exact List.mem_of_mem_filter hslot
    · intro path slot hslot
      exact List.count_filter (List.mem_filter.mp hslot).2

/-- `tree /` prints a line for every slot it shows. -/
theorem ShowsItself.tree_root (h : ShowsItself st) (cwd : Bytes) : ∃ slots,
    Settles (fun fuel => commandTree fuel ⟨st, cwd⟩ [slash])
      (.tree [slash] (slots.map (nodeLine st))) ∧ TreeOrder st slots := by
  obtain ⟨walked, hwalked⟩ := (h.treeEnds [slash]).settles h.ok
  have hresolve : ShellState.resolvePath ⟨st, cwd⟩ [slash] = [slash] := rfl
  have hnode : fsFind st [slash] = none := by
    cases hfind : fsFind st [slash] with
    | none => rfl
    | some slot =>
      rw [fsFind, fsNormalizePath_root] at hfind
      obtain ⟨hused, hname, -⟩ := fsFindNodeNormalized_some hfind
      exact absurd hname (h.tree.normal _ (List.getElem_mem hused)).ne_nil
  have htree : ∀ fuel, commandTree fuel ⟨st, cwd⟩ [slash] =
      (shellTreeWalk st fuel [slash] 1).map (.tree [slash]) := by
    intro fuel
    dsimp only [commandTree]
    rw [hresolve, hnode]
    exact if_pos rfl
  obtain ⟨fuel, hrun⟩ := hwalked.exists_run
  rw [shellTreeWalk_eq h.ok] at hrun
  obtain ⟨lines, hlines, rfl⟩ := Option.map_eq_some_iff.mp hrun
  have hstart : ∀ slot ∈ X86.shownList st [slash],
      slot < st.count ∧ (nodeLine st slot).1 = 1 := by
    intro slot hslot
    have hchild := isChildOf_of_shown hslot
    rw [isChildOf, fsNormalizePath_root] at hchild
    refine ⟨mem_shownList hslot, ?_⟩
    dsimp only [nodeLine]
    rw [count_slash_child hchild, if_pos rfl]
  have hlevels : ∀ line ∈ lines, line.2 < st.count ∧ line.1 = (nodeLine st line.2).1 :=
    walk_level
      (fun dir slot hcount hlisted => ⟨mem_shownList hlisted.2, h.level hcount hlisted.2⟩)
      hstart hlines
  refine ⟨lines.map Prod.snd, ?_, h.treeOrder (visits_of_walk hlines)⟩
  have hprinted : (lines.map Prod.snd).map (nodeLine st) =
      lines.map (Prod.map id (X86.shownLine st)) := by
    rw [List.map_map]
    apply List.map_congr_left
    intro line hline
    obtain ⟨hcount, hdepth⟩ := hlevels line hline
    exact Prod.ext hdepth.symm (h.shownLine hcount).symm
  rw [hprinted]
  simp only [htree]
  exact hwalked.map _

end Complete

section Runs

/-- The call removes no slot but the last and gives no node a name that is too long. -/
def KeepsViews (st : FsState) (op : FsOp) : Prop := RemovesLast st op ∧ NamesFit st op

theorem ShowsItself.step {st : FsState} (h : ShowsItself st) {op : FsOp} (hop : KeepsViews st op) :
    ShowsItself (fsStep st op) := by
  obtain ⟨htree, hviews⟩ := fsStep_coherent st op ⟨h.tree, h.views⟩ hop.1
  exact ⟨⟨hviews, (fsStep_shortNames_iff h.tree h.names op).mpr hop.2⟩, htree⟩

/-- `tree` in a table made by file-system calls: it comes back exactly when it meets no directory
inside itself, always as long as the views stay those of their slots, and then `tree /` shows each
entry once with its name, type and size, a directory before its contents, unless a directory has
more than 32 of them. -/
theorem commandTree_law (boot : Multiboot) (start : FsState) (ops : List FsOp)
    (htree : FsTree (fsInit boot start).table.used) :
    (∀ cwd path, (∃ output, Settles (fun fuel => commandTree fuel
        ⟨run fsStep (fsInit boot start).table ops, cwd⟩ path) output) ↔
      ∀ root, treeRoot ⟨run fsStep (fsInit boot start).table ops, cwd⟩ path = some root →
        TreeEnds (run fsStep (fsInit boot start).table ops) root) ∧
    (Guarded fsStep KeepsViews (fsInit boot start).table ops →
      (∀ root, TreeEnds (run fsStep (fsInit boot start).table ops) root) ∧
      ∀ cwd, ∃ slots, Settles (fun fuel => commandTree fuel
          ⟨run fsStep (fsInit boot start).table ops, cwd⟩ [slash])
          (.tree [slash] (slots.map (nodeLine (run fsStep (fsInit boot start).table ops)))) ∧
        TreeOrder (run fsStep (fsInit boot start).table ops) slots) := by
  have hok : FsOk (run fsStep (fsInit boot start).table ops) :=
    run_invariant (fun st op hst => hst.step op) (fsInit_ok boot start htree) ops
  refine ⟨fun cwd path => commandTree_settles_iff hok path, fun hguard => ?_⟩
  have hshown : ShowsItself (run fsStep (fsInit boot start).table ops) :=
    run_invariant_of_guarded (fun _ _ hst hop => hst.step hop)
      ⟨shown_fsInit boot start, htree⟩ ops hguard
  exact ⟨hshown.treeEnds, hshown.tree_root⟩

/-- The table after `mkdir /a`. -/
theorem commandTree_law_mkdir :
    (∀ cwd path, (∃ output, Settles (fun fuel => commandTree fuel
        ⟨run fsStep (fsInit plainBoot zeroTable).table [.mkdir (ascii "/a")], cwd⟩ path) output) ↔
      ∀ root, treeRoot
          ⟨run fsStep (fsInit plainBoot zeroTable).table [.mkdir (ascii "/a")], cwd⟩ path =
          some root →
        TreeEnds (run fsStep (fsInit plainBoot zeroTable).table [.mkdir (ascii "/a")]) root) ∧
    ((∀ root, TreeEnds
        (run fsStep (fsInit plainBoot zeroTable).table [.mkdir (ascii "/a")]) root) ∧
      ∀ cwd, ∃ slots, Settles (fun fuel => commandTree fuel
          ⟨run fsStep (fsInit plainBoot zeroTable).table [.mkdir (ascii "/a")], cwd⟩ [slash])
          (.tree [slash] (slots.map (nodeLine
            (run fsStep (fsInit plainBoot zeroTable).table [.mkdir (ascii "/a")])))) ∧
        TreeOrder (run fsStep (fsInit plainBoot zeroTable).table [.mkdir (ascii "/a")]) slots) :=
  ⟨(commandTree_law plainBoot zeroTable [.mkdir (ascii "/a")] fsInit_plainBoot_tree).1,
    (commandTree_law plainBoot zeroTable [.mkdir (ascii "/a")] fsInit_plainBoot_tree).2
      ⟨⟨fun _ hdrops => hdrops.elim, fun _ p hp => by
        obtain rfl : ascii "a" = p := Option.some.inj (by rw [← hp]; decide)
        decide⟩, trivial⟩⟩

/-- Removing a file in front of a directory that was moved into a later one. -/
def loopingCalls : List FsOp :=
  [.mkdir (ascii "/x"), .mkdir (ascii "/p"), .move (ascii "/x") (ascii "/p/x"),
    .remove (ascii "/README.TXT")]

theorem looping_views :
    4 ∈ shownList (run fsStep (fsUseBuiltin zeroTable.emptied) loopingCalls) (ascii "/p") ∧
      isDirView (run fsStep (fsUseBuiltin zeroTable.emptied) loopingCalls) 4 = true ∧
      shownPath (run fsStep (fsUseBuiltin zeroTable.emptied) loopingCalls) 4 = ascii "/p" := by
  decide +kernel

/-- The view of the inner directory then shows the outer one, and `tree` calls itself for ever. -/
theorem shellTreeWalk_loops (fuel : Nat) :
    shellTreeWalk (run fsStep (fsInit plainBoot zeroTable).table loopingCalls) fuel
      (ascii "/p") 1 = none := by
  have hok : FsOk (run fsStep (fsInit plainBoot zeroTable).table loopingCalls) :=
    run_invariant (fun st op hst => hst.step op) (fsInit_ok _ _ fsInit_plainBoot_tree) _
  obtain ⟨hlisted, hview, hpath⟩ := looping_views
  rw [← fsInit_plainBoot] at hlisted hview hpath
  cases hrun : shellTreeWalk (run fsStep (fsInit plainBoot zeroTable).table loopingCalls) fuel
      (ascii "/p") 1 with
  | none => rfl
  | some lines =>
    have hends := TreeEnds.of_run hok hrun
    rw [← hpath] at hlisted
    exact absurd (.single ⟨hview, hlisted⟩) (hends 4 ⟨4, by rwa [hpath] at hlisted, .refl⟩)

end Runs

end SnsxOS.X86
