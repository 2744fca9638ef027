import SnsxOS.X86.Initrd
import SnsxOS.X86.Paths

/-!
# What counts as a directory

Three functions of `kernel/fs.c` ask whether a path is a directory. `fs_is_dir` looks at the view
of the node a path names, `fs_list` and `fs_parent_exists` at the node itself, and only these two
know the root, whose normal form is empty and never the name of a node.
-/

namespace SnsxOS.X86

open Framework

/-- `fs_exists`. -/
def fsExists (st : FsState) (path : Bytes) : Bool := (fsFind st path).isSome

/-- `fs_is_dir`, which reads the type through the view. -/
def fsIsDir (st : FsState) (path : Bytes) : Bool :=
  match fsFind st path with
  | none => false
  | some slot => (st.nodeAt slot).entry.type == fsTypeDir

/-- The node has a name, and its view shows its type. -/
structure Labelled (node : FsNode) : Prop where
  named : node.name ≠ []
  shown : node.entry.type = node.type

def LabelledTable (st : FsState) : Prop := ∀ node ∈ st.used, Labelled node

theorem labelled_sync (slot : Nat) (node : FsNode) (h : node.name ≠ []) :
    Labelled (fsSyncEntry slot node) := ⟨h, rfl⟩

def EveryNode (P : FsNode → Prop) (st : FsState) : Prop := ∀ node ∈ st.used, P node

/-- A property of named nodes that `fs_sync_entry` gives. -/
structure GivenBySync (P : FsNode → Prop) : Prop where
  sync : ∀ slot node, node.name ≠ [] → P (fsSyncEntry slot node)
  named : ∀ node, P node → node.name ≠ []

section Invariant

variable {st : FsState} {P : FsNode → Prop}

theorem EveryNode.push (h : EveryNode P st) {node : FsNode} (hc : st.count < maxFsEntries)
    (hnode : P node) : EveryNode P (st.push node hc) := by
  intro m hm
  rw [SlotTable.used_push] at hm
  rcases List.mem_append.mp hm with hm | hm
  · exact h m hm
  · rw [List.mem_singleton.mp hm]
    exact hnode

theorem EveryNode.pushNode (hP : GivenBySync P) (h : EveryNode P st) {p : Bytes} {type : UInt32}
    {st' : FsState} (hp : p ≠ []) (hpush : fsPushNode st p type = some st') :
    EveryNode P st' := by
  obtain ⟨hc, rfl⟩ := fsPushNode_some hpush
  exact h.push hc (hP.sync _ _ hp)

theorem EveryNode.modify (h : EveryNode P st) (slot : Nat) {f : FsNode → FsNode}
    (hf : ∀ node, P node → P (f node)) : EveryNode P (st.modify slot f) := by
  intro m hm
  rw [SlotTable.used_modify] at hm
  obtain ⟨i, hi, rfl⟩ := List.mem_iff_getElem.mp hm
  have hi' : i < st.used.length := by simpa using hi
  rw [List.getElem_modify]
  split
  · exact hf _ (h _ (List.getElem_mem hi'))
  · exact h _ (List.getElem_mem hi')

theorem fsRemove_every (h : EveryNode P st) (path : Bytes) :
    EveryNode P (fsRemove st path).2 := by
  unfold fsRemove
  cases fsNormalizePath path with
  | none => exact h
  | some p =>
    dsimp only
    split
    · exact h
    cases hfind : fsFindNodeNormalized st p with
    | none => exact h
    | some slot =>
      obtain ⟨hs, -, -⟩ := fsFindNodeNormalized_some hfind
      dsimp only
      split
      · exact h
      · intro m hm
        rw [SlotTable.used_removeAt st (by simpa using hs)] at hm
        exact h m (List.mem_of_mem_eraseIdx hm)

theorem everyNode_emptied (st : FsState) : EveryNode P st.emptied := by
  intro node hn
  have hnil : SlotTable.used st.emptied = [] := List.take_zero
  rw [hnil] at hn
  exact absurd hn List.not_mem_nil

variable (hP : GivenBySync P)

include hP

theorem fsMkdir_every (h : EveryNode P st) (path : Bytes) :
    EveryNode P (fsMkdir st path).2 := by
  unfold fsMkdir
  cases fsNormalizePath path with
  | none => exact h
  | some p =>
    dsimp only
    split
    · exact h
    rename_i hp
    cases fsFindNodeNormalized st p with
    | some slot => exact h
    | none =>
      dsimp only
      split
      · exact h
      · cases hpush : fsPushNode st p fsTypeDir with
        | none => exact h
        | some st' => exact h.pushNode hP hp hpush

theorem fsWriteFile_every (h : EveryNode P st) (path data : Bytes) (type : UInt32) :
    EveryNode P (fsWriteFile st path data type).2 := by
  unfold fsWriteFile
  cases fsNormalizePath path with
  | none => exact h
  | some p =>
    dsimp only
    split
    · exact h
    rename_i hbad
    cases fsFindNodeNormalized st p with
    | some slot =>
      dsimp only
      split
      · exact h
      · apply h.modify
        exact fun node hn => hP.sync slot _ (hP.named node hn)
    | none =>
      dsimp only
      split
      · exact h
      · cases hpush : fsPushNode st p type with
        | none => exact h
        | some st' =>
          apply (h.pushNode hP (fun hp => hbad (Or.inl hp)) hpush).modify
          exact fun node hn => hP.sync _ _ (hP.named node hn)

theorem fsAppendFile_every (h : EveryNode P st) (path data : Bytes) :
    EveryNode P (fsAppendFile st path data).2 := by
  unfold fsAppendFile
  cases fsNormalizePath path with
  | none => exact h
  | some p =>
    dsimp only
    split
    · exact h
    cases fsFindNodeNormalized st p with
    | none => exact fsWriteFile_every hP h p data fsTypeText
    | some slot =>
      dsimp only
      split
      · exact h
      · apply h.modify
        exact fun node hn => hP.sync slot _ (hP.named node hn)

theorem fsCopy_every (h : EveryNode P st) (source destination : Bytes) :
    EveryNode P (fsCopy st source destination).2 := by
  unfold fsCopy
  cases fsNormalizePath source with
  | none => exact h
  | some s =>
    cases fsNormalizePath destination with
    | none => exact h
    | some d =>
      dsimp only
      cases fsFindNodeNormalizedConst st s with
      | none => exact h
      | some node =>
        dsimp only
        split
        · exact h
        split
        · exact h
        · exact fsWriteFile_every hP h d _ _

theorem fsMove_every (h : EveryNode P st) (source destination : Bytes) :
    EveryNode P (fsMove st source destination).2 := by
  unfold fsMove
  cases fsNormalizePath source with
  | none => exact h
  | some s =>
    cases fsNormalizePath destination with
    | none => exact h
    | some d =>
      dsimp only
      split
      · exact h
      rename_i hempty
      cases fsFindNodeNormalized st s with
      | none => exact h
      | some slot =>
        dsimp only
        split
        · exact h
        split
        · exact h
        split
        · exact h
        · intro m hm
          rw [SlotTable.used_mapUsed] at hm
          obtain ⟨i, hi, rfl⟩ := List.mem_iff_getElem.mp hm
          have hi' : i < st.used.length := by simpa using hi
          have hnode := h _ (List.getElem_mem hi')
          rw [List.getElem_mapIdx]
          split
          · apply hP.sync
            have hd : d ≠ [] := fun hd => hempty (Or.inr hd)
            simp [fsMoveName, hd]
          · exact hnode

theorem fsStep_every (st : FsState) (op : FsOp) (h : EveryNode P st) :
    EveryNode P (fsStep st op) := by
  cases op with
  | mkdir path => exact fsMkdir_every hP h path
  | writeFile path data type => exact fsWriteFile_every hP h path data type
  | appendFile path data => exact fsAppendFile_every hP h path data
  | remove path => exact fsRemove_every h path
  | copy source destination => exact fsCopy_every hP h source destination
  | move source destination => exact fsMove_every hP h source destination

theorem fsEnsureDirs_every (h : EveryNode P st) {parts : List Bytes}
    (hparts : ∀ part ∈ parts, part ≠ []) : EveryNode P (fsEnsureDirs st parts).2 := by
  induction parts generalizing st with
  | nil => exact h
  | cons part parts ih =>
    have hrest : ∀ q ∈ parts, q ≠ [] := fun q hq => hparts q (List.mem_cons_of_mem _ hq)
    rw [fsEnsureDirs]
    split
    · exact h
    · cases fsFindNodeNormalized st part with
      | none =>
        cases hpush : fsPushNode st part fsTypeDir with
        | none => exact h
        | some st' => exact ih (h.pushNode hP (hparts part List.mem_cons_self) hpush) hrest
      | some slot =>
        dsimp only
        split
        · exact h
        · exact ih h hrest

theorem fsLoadFile_every (h : EveryNode P st) (boot : Multiboot) (path : Bytes)
    (data size : Nat) (type : UInt32) :
    EveryNode P (fsLoadFile boot st path data size type).table := by
  rw [fsLoadFile]
  cases hnorm : fsNormalizePath path with
  | none => exact h
  | some p =>
    dsimp only
    split
    · exact h
    rename_i hbad
    have hp : p ≠ [] := fun hp => hbad (Or.inl hp)
    have hnormal := fsNormalizePath_normal hnorm hp
    have hchain : EveryNode P (fsEnsureDirChain st p).2 := by
      apply fsEnsureDirs_every hP h
      intro part hpart hnil
      -- a normal path has no leading slash
      obtain ⟨rest, hrest⟩ := mem_ancestors.mp hpart
      rw [hnil] at hrest
      exact hnormal.head_ne (by rw [hrest]; rfl)
    rcases hensure : fsEnsureDirChain st p with ⟨ok, st'⟩
    rw [hensure] at hchain
    cases ok with
    | false => exact hchain
    | true =>
      cases hpush : fsPushNode st' p type with
      | none => simpa only [hpush] using hchain
      | some st'' =>
        simp only [hpush]
        apply (hchain.pushNode hP hp hpush).modify
        exact fun node hn => hP.sync _ _ (hP.named node hn)

theorem fsLoadNodes_every (h : EveryNode P st) (boot : Multiboot) (entries : List Nat) :
    EveryNode P (fsLoadNodes boot st entries).1 := by
  induction entries generalizing st with
  | nil => exact h
  | cons i entries ih =>
    have hfirst : EveryNode P (fsLoadNode boot st i).table := fsLoadFile_every hP h boot _ _ _ _
    rw [fsLoadNodes]
    dsimp only
    split
    · exact ih hfirst
    · exact hfirst

theorem fsLoadInitrd_every (h : EveryNode P st) (boot : Multiboot) :
    EveryNode P (fsLoadInitrd boot st).1 := by
  rw [fsLoadInitrd]
  split
  · split
    · exact fsLoadNodes_every hP h boot _
    · exact h
  · exact h

theorem fsUseBuiltin_every (st : FsState) : EveryNode P (fsUseBuiltin st) := by
  rw [fsUseBuiltin]
  exact run_invariant (I := EveryNode P) (fsStep_every hP) (everyNode_emptied st) builtinOps

/-- Whatever the boot loader passes, every node that `fs_init` leaves has been synchronised. -/
theorem fsInit_every (boot : Multiboot) (st : FsState) :
    EveryNode P (fsInit boot st).table := by
  have hloaded : EveryNode P
      (if boot.HasModule then fsLoadInitrd boot st.emptied else (st.emptied, [])).1 := by
    split
    · exact fsLoadInitrd_every hP (everyNode_emptied st) boot
    · exact everyNode_emptied st
  unfold fsInit
  generalize (if boot.HasModule then fsLoadInitrd boot st.emptied else (st.emptied, [])) = loaded
    at hloaded ⊢
  dsimp only
  by_cases hcount : 0 < loaded.1.count
  · rw [if_pos hcount]
    exact hloaded
  · rw [if_neg hcount]
    dsimp only
    exact fsUseBuiltin_every hP loaded.1

/-- The tables that calls can make of the one `fs_init` leaves. -/
def FsReachable (st : FsState) : Prop :=
  ∃ boot start ops, st = run fsStep (fsInit boot start).table ops

omit hP in
theorem givenBySync_labelled : GivenBySync Labelled := ⟨labelled_sync, fun _ h => h.named⟩

omit hP in
theorem FsReachable.labelled (h : FsReachable st) : LabelledTable st := by
  obtain ⟨boot, start, ops, rfl⟩ := h
  exact run_invariant (fsStep_every givenBySync_labelled)
    (fsInit_every givenBySync_labelled boot start) ops

end Invariant

section Directories

/-- `fs_list` lists the path: its normal form is empty or names a directory. -/
def FsListable (st : FsState) (path : Bytes) : Prop :=
  ∃ p, fsNormalizePath path = some p ∧
    (p = [] ∨ ∃ node, fsFindNodeNormalizedConst st p = some node ∧ node.type = fsTypeDir)

/-- The normalised path of a new entry below a normalised path. -/
def entryBelow (p name : Bytes) : Bytes := if p = [] then name else p ++ slash :: name

/-- `fs_parent_exists` accepts the path as the parent of any new entry. -/
def FsParent (st : FsState) (path : Bytes) : Prop :=
  ∃ p, fsNormalizePath path = some p ∧
    ∀ name, name ≠ [] → slash ∉ name → fsParentExists st (entryBelow p name) = true

/-- The three tests of a directory agree on the path. -/
structure DirectoryTestsAgree (st : FsState) (path : Bytes) : Prop where
  list : fsIsDir st path = true ↔ FsListable st path
  parent : fsIsDir st path = true ↔ FsParent st path

variable {st : FsState} {path : Bytes}

/-- `fs_list` stores the children of a listable path and nothing otherwise. -/
theorem fsList_of_not_listable (h : ¬ FsListable st path) (maxResults : Nat) :
    fsList st path maxResults = [] := by
  rw [fsList]
  cases hnorm : fsNormalizePath path with
  | none => rfl
  | some p =>
    have hp : p ≠ [] := fun hp => h ⟨p, hnorm, Or.inl hp⟩
    dsimp only
    rw [if_neg hp]
    cases hfind : fsFindNodeNormalizedConst st p with
    | none => rfl
    | some node =>
      have hdir : node.type ≠ fsTypeDir := fun hd => h ⟨p, hnorm, Or.inr ⟨node, hfind, hd⟩⟩
      exact if_pos hdir

theorem fsList_of_listable (h : FsListable st path) (maxResults : Nat) : ∃ p,
    fsNormalizePath path = some p ∧ fsList st path maxResults =
      ((List.range st.count).filter fun i =>
        fsIsDirectChild p (st.nodeAt i).name).take maxResults := by
  obtain ⟨p, hnorm, hdir⟩ := h
  refine ⟨p, hnorm, ?_⟩
  rw [fsList, hnorm]
  dsimp only
  rcases hdir with hp | hnode
  · rw [if_pos hp]
  · obtain ⟨node, hfind, hd⟩ := hnode
    split
    · rfl
    · rw [hfind]
      exact if_neg (not_not.mpr hd)

/-- A directory is a node of directory type under the normal form of the path. -/
theorem fsIsDir_iff (h : LabelledTable st) : fsIsDir st path = true ↔
    ∃ p, fsNormalizePath path = some p ∧
      ∃ node, fsFindNodeNormalizedConst st p = some node ∧ node.type = fsTypeDir := by
  rw [fsIsDir, fsFind]
  cases fsNormalizePath path with
  | none => simp
  | some p =>
    dsimp only
    cases hfind : fsFindNodeNormalized st p with
    | none =>
      have hnone : fsFindNodeNormalizedConst st p = none :=
        lookup_eq_none.mpr (fsFindNodeNormalized_none hfind)
      simp [hnone]
    | some slot =>
      obtain ⟨hs, -, hnode⟩ := fsFindNodeNormalized_some hfind
      have hconst : fsFindNodeNormalizedConst st p = some st.used[slot] :=
        lookup_of_slotOf hfind hs
      simp [hconst, hnode, (h _ (List.getElem_mem hs)).shown]

theorem LabelledTable.not_find_nil (h : LabelledTable st) :
    fsFindNodeNormalizedConst st [] = none := by
  apply lookup_eq_none.mpr
  intro hm
  obtain ⟨node, hn, he⟩ := List.mem_map.mp hm
  exact (h node hn).named he

/-- The parent of an entry below a nonempty normalised path is the node under that path. -/
theorem fsParentExists_entryBelow {p name : Bytes} (hp : p ≠ []) (hfit : p.length < fsPathMax)
    (hname : slash ∉ name) : fsParentExists st (entryBelow p name) = true ↔
      ∃ node, fsFindNodeNormalizedConst st p = some node ∧ node.type = fsTypeDir := by
  rw [entryBelow, if_neg hp, fsParentExists, fsParentPath, lastIndex?_append hname]
  simp only [if_neg (not_le.mpr hfit), List.take_left', if_neg hp]
  cases fsFindNodeNormalizedConst st p <;> simp

/-- Below the root every name is a path whose parent exists. -/
theorem fsParentExists_root {name : Bytes} (hname : slash ∉ name) :
    fsParentExists st (entryBelow [] name) = true := by
  rw [entryBelow, if_pos rfl, fsParentExists, fsParentPath, lastIndex?_eq_none.mpr hname]
  rfl

/-- The normal form of a path is empty exactly when the path spells the root. -/
theorem fsNormalizePath_names {p : Bytes} (h : fsNormalizePath path = some p) :
    p ≠ [] ↔ pathNames slash path ≠ [] := by
  rw [fsNormalizePath_eq] at h
  split at h
  · obtain rfl := Option.some.inj h
    rw [not_iff_not]
    constructor
    · intro hnil
      rw [← pathNames_normalForm, hnil, pathNames_nil]
    · intro hnil
      rw [normalForm, hnil]
      rfl
  · cases h

/-- The tests agree on every path that does not spell the root. -/
theorem directoryTestsAgree_iff (h : LabelledTable st) (path : Bytes) :
    DirectoryTestsAgree st path ↔ ∃ c ∈ path, c ≠ slash := by
  have hroot : (∃ c ∈ path, c ≠ slash) ↔ pathNames slash path ≠ [] := by
    rw [Ne, pathNames_eq_nil]
    push Not
    rfl
  rw [hroot]
  constructor
  · intro hagree hnil
    have hnorm : fsNormalizePath path = some [] := by
      rw [fsNormalizePath_eq, normalForm, trailing, hnil]
      rfl
    have hdir := hagree.list.mpr ⟨[], hnorm, Or.inl rfl⟩
    rw [fsIsDir_iff h, hnorm] at hdir
    obtain ⟨p, hp, node, hfind, -⟩ := hdir
    obtain rfl := Option.some.inj hp
    rw [h.not_find_nil] at hfind
    cases hfind
  · intro hne
    constructor
    · rw [fsIsDir_iff h]
      constructor
      · intro hdir
        obtain ⟨p, hnorm, hnode⟩ := hdir
        exact ⟨p, hnorm, Or.inr hnode⟩
      · intro hlist
        obtain ⟨p, hnorm, hdir⟩ := hlist
        exact ⟨p, hnorm, hdir.resolve_left ((fsNormalizePath_names hnorm).mpr hne)⟩
    · rw [fsIsDir_iff h]
      constructor
      · intro hdir
        obtain ⟨p, hnorm, hnode⟩ := hdir
        have hp := (fsNormalizePath_names hnorm).mpr hne
        refine ⟨p, hnorm, fun name _ hname => ?_⟩
        exact (fsParentExists_entryBelow hp (fsNormalizePath_normal hnorm hp).length_lt hname).mpr
          hnode
      · intro hparent
        obtain ⟨p, hnorm, hnames⟩ := hparent
        have hp := (fsNormalizePath_names hnorm).mpr hne
        have hchild := hnames [97] (by simp) (by decide)
        exact ⟨p, hnorm, (fsParentExists_entryBelow hp
          (fsNormalizePath_normal hnorm hp).length_lt (by decide)).mp hchild⟩

/-- The root is listed and takes new entries, and `fs_is_dir` denies it. -/
theorem root_not_dir (h : LabelledTable st) (hroot : ∀ c ∈ path, c = slash) :
    FsListable st path ∧ FsParent st path ∧ fsIsDir st path = false := by
  have hnorm : fsNormalizePath path = some [] := by
    rw [fsNormalizePath_eq, normalForm, trailing, pathNames_eq_nil.mpr hroot]
    rfl
  refine ⟨⟨[], hnorm, Or.inl rfl⟩, ⟨[], hnorm, fun name _ hname => fsParentExists_root hname⟩, ?_⟩
  rw [fsIsDir, fsFind, hnorm]
  dsimp only
  cases hfind : fsFindNodeNormalized st [] with
  | none => rfl
  | some slot =>
    obtain ⟨hs, hname, -⟩ := fsFindNodeNormalized_some hfind
    exact absurd hname (h _ (List.getElem_mem hs)).named

end Directories

end SnsxOS.X86
