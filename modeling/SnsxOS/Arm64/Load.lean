import SnsxOS.Arm64.Persist

/-!
# Loading a listing into a table

A snapshot is restored, and the first table of a session is built, by storing nodes one after
another. Between nodes that agree this is a replay: a node is kept as it stands when its path is
taken, appended when its parent is there, and dropped otherwise.
-/

namespace SnsxOS.Arm64

open Framework

/-- The parent of the node is the root or a directory of the table. -/
def hasParent (table : Table) (node : FileNode ArmFsType) : Bool :=
  let parent := parentDirectory node.path
  decide (parent = [] ∨ parent = [slash]) ||
    table.any fun m => decide (m.path = parent ∧ m.type = .dir)

/-- `restoreNode` on the nodes. -/
def loadNode (table : Table) (node : FileNode ArmFsType) : Table :=
  if node.type = .dir then (tableMkdir table node.path).2
  else (tableWrite table node.path node.bytes .text).2

/-- The entry can be stored under its path in some table. -/
structure Loadable (node : FileNode ArmFsType) : Prop where
  absolute : node.path.head? = some slash
  fits : node.path.length < fsPathMax
  size_le : node.bytes.length ≤ fsMaxFileSize
  dir_empty : node.type = .dir → node.bytes = [] ∧ node.path ≠ [slash]

theorem restoreNode_nodes {fs : ArmFs} (hok : EntriesOk fs) {node : FileNode ArmFsType}
    (hpath : NulFree node.path) :
    (restoreNode fs node).nodes = loadNode fs.nodes node ∧ EntriesOk (restoreNode fs node) := by
  rw [restoreNode, loadNode]
  split
  · have h := fsMkdir_refines hok hpath
    exact ⟨h.nodes, h.ok⟩
  · have h := fsWrite_refines hok hpath node.bytes .text
    exact ⟨h.nodes, h.ok⟩

theorem foldl_restoreNode_nodes {fs : ArmFs} (hok : EntriesOk fs) {nodes : Table}
    (hpaths : ∀ node ∈ nodes, NulFree node.path) :
    (nodes.foldl restoreNode fs).nodes = nodes.foldl loadNode fs.nodes := by
  induction nodes generalizing fs with
  | nil => rfl
  | cons node nodes ih =>
    obtain ⟨hnodes, hrestored⟩ := restoreNode_nodes hok (hpaths node (by simp))
    rw [List.foldl_cons, List.foldl_cons, ← hnodes]
    exact ih hrestored fun n hn => hpaths n (by simp [hn])

section Effect

variable {table : Table} {node : FileNode ArmFsType}

/-- What loading asks of a node before it looks at the table. -/
structure Storable (node : FileNode ArmFsType) : Prop where
  absolute : node.path.head? = some slash
  ne_root : node.type = .dir → node.path ≠ [slash]
  size_le : node.type = .text → node.bytes.length ≤ fsMaxFileSize

/-- The node as a table holds it: a directory has no content. -/
def stripped (node : FileNode ArmFsType) : FileNode ArmFsType :=
  if node.type = .dir then ⟨node.path, .dir, []⟩ else node

/-- Why a node is not stored. -/
inductive Skips (table : Table) (node : FileNode ArmFsType) : Prop
  | unfit (bad : ¬ Storable node)
  | taken (slot : Nat) (first : slotOf FileNode.path table node.path = some slot)
      (hslot : slot < table.length) (dir : node.type = .dir ∨ table[slot].type = .dir)
  | refused (absent : node.path ∉ table.map FileNode.path)
      (full : canPush table node.path = false)

/-- What loading a node makes of a table. -/
inductive LoadEffect (table : Table) (node : FileNode ArmFsType) (next : Table) : Prop
  | skipped (why : Skips table node) (same : next = table)
  | pushed (good : Storable node) (absent : node.path ∉ table.map FileNode.path)
      (room : canPush table node.path = true) (push : next = table ++ [stripped node])
  | stored (good : Storable node) (slot : Nat)
      (first : slotOf FileNode.path table node.path = some slot) (hslot : slot < table.length)
      (file : table[slot].type = .text) (text : node.type = .text)
      (store : next = table.set slot node)

theorem ArmFsType.text_of_ne_dir {type : ArmFsType} (h : type ≠ .dir) : type = .text := by
  cases type with
  | text => rfl
  | dir => exact absurd rfl h

@[simp] theorem stripped_path (node : FileNode ArmFsType) : (stripped node).path = node.path := by
  rw [stripped]
  split
  · rfl
  · rfl

@[simp] theorem stripped_type (node : FileNode ArmFsType) : (stripped node).type = node.type := by
  rw [stripped]
  split
  · rename_i hdir
    exact hdir.symm
  · rfl

theorem stripped_of_text (htext : node.type = .text) : stripped node = node := by
  rw [stripped, if_neg]
  rw [htext]
  intro hdir
  cases hdir

theorem Loadable.stripped (h : Loadable node) : stripped node = node := by
  rw [Arm64.stripped]
  split
  · rename_i hdir
    rw [← (h.dir_empty hdir).1, ← hdir]
  · rfl

theorem Loadable.storable (h : Loadable node) : Storable node :=
  ⟨h.absolute, fun hdir => (h.dir_empty hdir).2, fun _ => h.size_le⟩

theorem tableMkdir_loads (hdir : node.type = .dir) :
    LoadEffect table node (tableMkdir table node.path).2 := by
  rw [tableMkdir]
  split
  · rename_i hbad
    refine .skipped (.unfit fun hgood => ?_) rfl
    rcases hbad with hhead | hroot
    · exact hhead hgood.absolute
    · exact hgood.ne_root hdir hroot
  · rename_i hgood
    push Not at hgood
    have hstorable : Storable node := by
      refine ⟨hgood.1, fun _ => hgood.2, fun htext => ?_⟩
      rw [hdir] at htext
      cases htext
    split
    · rename_i found hfound
      cases hslot : slotOf FileNode.path table node.path with
      | some slot =>
        obtain ⟨hlt, -⟩ := slotOf_eq_some hslot
        exact .skipped (.taken slot hslot hlt (Or.inl hdir)) rfl
      | none =>
        rw [lookup_eq_none.mpr (slotOf_eq_none.mp hslot)] at hfound
        cases hfound
    · rename_i hnone
      have habsent := lookup_eq_none.mp hnone
      split
      · rename_i hroom
        refine .pushed hstorable habsent hroom ?_
        rw [stripped, if_pos hdir]
      · rename_i hfull
        exact .skipped (.refused habsent (Bool.eq_false_iff.mpr hfull)) rfl

theorem tableWrite_loads (htext : node.type = .text) :
    LoadEffect table node (tableWrite table node.path node.bytes .text).2 := by
  have hnode : (⟨node.path, .text, node.bytes⟩ : FileNode ArmFsType) = node := by
    rw [← htext]
  rw [tableWrite]
  split
  · rename_i hbad
    refine .skipped (.unfit fun hgood => ?_) rfl
    rcases hbad with hhead | hlong | htype
    · exact hhead hgood.absolute
    · exact absurd (hgood.size_le htext) (not_le.mpr hlong)
    · cases htype
  · rename_i hgood
    rw [not_or, not_or, not_not, not_lt] at hgood
    have hstorable : Storable node := by
      refine ⟨hgood.1, fun hdir => ?_, fun _ => hgood.2.1⟩
      rw [htext] at hdir
      cases hdir
    split
    · rename_i slot hslot
      obtain ⟨hlt, hpath⟩ := slotOf_eq_some hslot
      have htype : table[slot]?.map FileNode.type = some table[slot].type := by
        rw [List.getElem?_eq_getElem hlt, Option.map_some]
      split
      · rename_i hdir
        rw [htype, Option.some.injEq] at hdir
        exact .skipped (.taken slot hslot hlt (Or.inr hdir)) rfl
      · rename_i hfile
        rw [htype, Option.some.injEq] at hfile
        refine .stored hstorable slot hslot hlt (ArmFsType.text_of_ne_dir hfile) htext ?_
        rw [modify_eq_set hlt, hpath, hnode]
    · rename_i hnone
      have habsent := slotOf_eq_none.mp hnone
      split
      · rename_i hroom
        refine .pushed hstorable habsent hroom ?_
        rw [stripped_of_text htext, hnode]
      · rename_i hfull
        exact .skipped (.refused habsent (Bool.eq_false_iff.mpr hfull)) rfl

/-- Loading skips a node, appends it, or replaces the file at its path. -/
theorem loadNode_effect (table : Table) (node : FileNode ArmFsType) :
    LoadEffect table node (loadNode table node) := by
  rw [loadNode]
  split
  · rename_i hdir
    exact tableMkdir_loads hdir
  · rename_i hfile
    exact tableWrite_loads (ArmFsType.text_of_ne_dir hfile)

end Effect

/-- Loading a node touches its own path only. -/
theorem mem_loadNode {table : Table} {node m : FileNode ArmFsType}
    (hm : m ∈ loadNode table node) : m ∈ table ∨ m.path = node.path := by
  cases loadNode_effect table node with
  | skipped _ hsame =>
    rw [hsame] at hm
    exact Or.inl hm
  | pushed _ _ _ hpush =>
    rw [hpush] at hm
    rcases List.mem_append.mp hm with hm | hm
    · exact Or.inl hm
    · rw [List.mem_singleton.mp hm]
      exact Or.inr (stripped_path node)
  | stored _ slot _ hslot _ _ hstore =>
    rw [hstore] at hm
    rcases List.mem_or_eq_of_mem_set hm with hm | rfl
    · exact Or.inl hm
    · exact Or.inr rfl

theorem mem_foldl_loadNode {table nodes : Table} {m : FileNode ArmFsType}
    (hm : m ∈ nodes.foldl loadNode table) : m ∈ table ∨ m.path ∈ nodes.map FileNode.path := by
  induction nodes generalizing table with
  | nil => exact Or.inl hm
  | cons node nodes ih =>
    rcases ih hm with hm | hm
    · rcases mem_loadNode hm with hm | hm
      · exact Or.inl hm
      · exact Or.inr (by simp [hm])
    · exact Or.inr (by simp [hm])

/-- Loading appends at most one path. -/
theorem paths_prefix_loadNode (table : Table) (node : FileNode ArmFsType) :
    table.map FileNode.path <+: (loadNode table node).map FileNode.path := by
  cases loadNode_effect table node with
  | skipped _ hsame => rw [hsame]
  | pushed _ _ _ hpush =>
    rw [hpush, List.map_append]
    exact List.prefix_append _ _
  | stored _ slot hfirst hslot _ _ hstore =>
    rw [hstore, map_set hslot (slotOf_eq_some hfirst).2.symm]

theorem paths_prefix_foldl (table nodes : Table) :
    table.map FileNode.path <+: (nodes.foldl loadNode table).map FileNode.path := by
  induction nodes generalizing table with
  | nil => exact List.prefix_rfl
  | cons node nodes ih => exact (paths_prefix_loadNode table node).trans (ih _)

/-- No path is lost by loading. -/
theorem paths_foldl_loadNode (table nodes : Table) :
    table.map FileNode.path ⊆ (nodes.foldl loadNode table).map FileNode.path :=
  (paths_prefix_foldl table nodes).subset

/-- A loaded table has one entry for each path and no directory at the root. -/
structure Loaded (table : Table) : Prop where
  nodup : (table.map FileNode.path).Nodup
  root : ∀ node ∈ table, node.type = .dir → node.path ≠ [slash]

theorem Loaded.nil : Loaded [] := by constructor <;> simp

theorem Loaded.push {table : Table} (h : Loaded table) {node : FileNode ArmFsType}
    (hfresh : node.path ∉ table.map FileNode.path)
    (hroot : node.type = .dir → node.path ≠ [slash]) : Loaded (table ++ [node]) := by
  constructor
  · rw [List.map_append, List.map_singleton, ← List.concat_eq_append]
    exact h.nodup.concat hfresh
  · intro m hm
    rcases List.mem_append.mp hm with hm | hm
    · exact h.root m hm
    · rw [List.mem_singleton.mp hm]
      exact hroot

theorem Loaded.loadNode {table : Table} (h : Loaded table) (node : FileNode ArmFsType) :
    Loaded (loadNode table node) := by
  cases loadNode_effect table node with
  | skipped _ hsame =>
    rw [hsame]
    exact h
  | pushed hgood habsent _ hpush =>
    rw [hpush]
    apply h.push
    · simpa using habsent
    · simpa using hgood.ne_root
  | stored _ slot hfirst hslot _ htext hstore =>
    rw [hstore]
    constructor
    · rw [map_set hslot (slotOf_eq_some hfirst).2.symm]
      exact h.nodup
    · intro m hm
      rcases List.mem_or_eq_of_mem_set hm with hm | rfl
      · exact h.root m hm
      · intro hdir
        rw [htext] at hdir
        cases hdir

theorem foldl_loadNode_loaded {table : Table} (h : Loaded table) (nodes : Table) :
    Loaded (nodes.foldl loadNode table) := by
  induction nodes generalizing table with
  | nil => exact h
  | cons node nodes ih => exact ih (h.loadNode node)

theorem hasParent_mono (table table' : Table) (node : FileNode ArmFsType)
    (hsub : table ⊆ table') (h : hasParent table node = true) : hasParent table' node = true := by
  simp only [hasParent, Bool.or_eq_true, decide_eq_true_eq, List.any_eq_true] at h ⊢
  rcases h with hroot | ⟨m, hm, hdir⟩
  · exact Or.inl hroot
  · exact Or.inr ⟨m, hsub hm, hdir⟩

theorem parentOk_eq_hasParent {table : Table} (hcons : Consistent FileNode.path table)
    {node : FileNode ArmFsType} (hfit : node.path.length < fsPathMax) :
    parentOk table node.path = hasParent table node := by
  simp only [parentOk, hasParent, strcopyLimit_of_lt hfit]
  by_cases hroot : parentDirectory node.path = [] ∨ parentDirectory node.path = [slash]
  · simp only [hroot, if_true, decide_true, Bool.true_or]
  · simp only [hroot, if_false, decide_false, Bool.false_or]
    cases hlookup : lookup FileNode.path table (parentDirectory node.path) with
    | none =>
      symm
      rw [List.any_eq_false]
      intro m hm hdir
      apply lookup_eq_none.mp hlookup
      rw [decide_eq_true_eq] at hdir
      rw [← hdir.1]
      exact List.mem_map_of_mem hm
    | some m =>
      obtain ⟨hm, hpath⟩ := mem_of_lookup hlookup
      dsimp only
      rw [Bool.eq_iff_iff, beq_iff_eq, List.any_eq_true]
      constructor
      · intro hdir
        exact ⟨m, hm, decide_eq_true ⟨hpath, hdir⟩⟩
      · intro hex
        obtain ⟨m', hm', hdir⟩ := hex
        rw [decide_eq_true_eq] at hdir
        rw [hcons m hm m' hm' (hpath.trans hdir.1.symm)]
        exact hdir.2

/-- In a table that agrees with the node, loading it is accepting it. -/
theorem loadNode_eq_accept {table : Table} {node : FileNode ArmFsType}
    (hcons : Consistent FileNode.path (table ++ [node])) (hroom : table.length < fsMaxEntries)
    (hload : Loadable node) :
    loadNode table node = accept FileNode.path hasParent table node := by
  have hparent := parentOk_eq_hasParent
    (hcons.subset (List.subset_append_left table [node])) hload.fits
  have hpush : canPush table node.path = hasParent table node := by
    rw [canPush, hparent, decide_eq_true ⟨hroom, hload.fits⟩, Bool.and_true]
  rw [accept, ← hpush]
  cases loadNode_effect table node with
  | skipped hwhy hsame =>
    rw [hsame]
    cases hwhy with
    | unfit hbad => exact absurd hload.storable hbad
    | taken slot hfirst hslot _ =>
      rw [if_pos]
      rw [← (slotOf_eq_some hfirst).2]
      exact List.mem_map_of_mem (List.getElem_mem hslot)
    | refused habsent hfull => rw [if_neg habsent, if_neg (Bool.eq_false_iff.mp hfull)]
  | pushed _ habsent hroom hnext =>
    rw [hnext, if_neg habsent, if_pos hroom, hload.stripped]
  | stored _ slot hfirst hslot _ _ hstore =>
    have hmem : table[slot] ∈ table := List.getElem_mem hslot
    have hpath := (slotOf_eq_some hfirst).2
    have hsame : table[slot] = node :=
      hcons _ (List.mem_append_left _ hmem) _ (by simp) hpath
    rw [hstore, if_pos, ← hsame, List.set_getElem_self]
    rw [← hsame]
    exact List.mem_map_of_mem hmem

theorem foldl_loadNode_eq {table nodes : Table}
    (hcons : Consistent FileNode.path (table ++ nodes))
    (hroom : table.length + nodes.length ≤ fsMaxEntries)
    (hload : ∀ node ∈ nodes, Loadable node) :
    nodes.foldl loadNode table = acceptAll FileNode.path hasParent table nodes := by
  induction nodes generalizing table with
  | nil => rfl
  | cons node nodes ih =>
    rw [List.length_cons] at hroom
    have hfirst : loadNode table node = accept FileNode.path hasParent table node := by
      apply loadNode_eq_accept _ (by omega) (hload node (by simp))
      apply hcons.subset
      intro m hm
      rcases List.mem_append.mp hm with hm | hm
      · exact List.mem_append_left _ hm
      · rw [List.mem_singleton.mp hm]
        simp
    have hlen : (accept FileNode.path hasParent table node).length ≤ table.length + 1 := by
      rw [accept]
      split
      · omega
      · split
        · simp
        · omega
    rw [List.foldl_cons, acceptAll, List.foldl_cons, hfirst]
    exact ih hcons.accept (by omega) fun n hn => hload n (by simp [hn])

/-- Each node of the listing has its parent before it. -/
def ParentsFirst (table : Table) : Prop := OrderReady hasParent [] table

instance : DecidablePred ParentsFirst := fun table =>
  inferInstanceAs (Decidable (OrderReady hasParent [] table))

end SnsxOS.Arm64
