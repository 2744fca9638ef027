import SnsxOS.X86.FileSystem
import Mathlib.Data.List.Chain

/-!
# The x86 table is a tree

Every call of a mutating operation has one of five effects on the used slots. Each effect keeps
the tree: normalised distinct names under present directories, and bounded sizes.
-/

namespace SnsxOS.X86

open Framework

/-- A normalised path: not empty, short, without leading, trailing or doubled separator. -/
structure NormalName (name : Bytes) : Prop where
  ne_nil : name ≠ []
  length_lt : name.length < fsPathMax
  head_ne : name.head? ≠ some slash
  last_ne : name.getLast? ≠ some slash
  single : name.IsChain fun a b => a = slash → b ≠ slash

private theorem fsNormalizeLoop_output {input output result : Bytes} {last : Bool}
    (h : fsNormalizeLoop input output last = some result)
    (hlen : output.length < fsPathMax) (hhead : output.head? ≠ some slash)
    (hsingle : output.IsChain fun a b => a = slash → b ≠ slash)
    (hlast : output.getLast? = some slash → last = true) :
    result.length < fsPathMax ∧ result.head? ≠ some slash ∧
      result.IsChain fun a b => a = slash → b ≠ slash := by
  induction input generalizing output last with
  | nil =>
    obtain rfl : output = result := by simpa [fsNormalizeLoop] using h
    exact ⟨hlen, hhead, hsingle⟩
  | cons ch input ih =>
    rw [fsNormalizeLoop] at h
    split at h
    · rename_i hch
      split at h
      · exact ih h hlen hhead hsingle fun _ => rfl
      · rename_i hmid
        have hne : output ≠ [] := fun h0 => hmid (Or.inl (by rw [h0]; rfl))
        have hl : output.getLast? ≠ some slash := fun h0 => hmid (Or.inr (hlast h0))
        split at h
        · cases h
        · rename_i hfit
          apply ih h
          · simp only [List.length_append, List.length_singleton]; omega
          · rwa [List.head?_append_of_ne_nil _ hne]
          · apply List.isChain_append.mpr
            refine ⟨hsingle, List.isChain_singleton _, fun x hx y _ hxs => ?_⟩
            exact absurd (hxs ▸ hx) hl
          · exact fun _ => rfl
    · rename_i hch
      split at h
      · cases h
      · rename_i hfit
        apply ih h
        · simp only [List.length_append, List.length_singleton]; omega
        · cases output with
          | nil => simpa using hch
          | cons a output => simpa using hhead
        · apply List.isChain_append.mpr
          refine ⟨hsingle, List.isChain_singleton _, fun x _ y hy _ => ?_⟩
          obtain rfl : ch = y := by simpa using hy
          exact hch
        · intro hc
          exact absurd (by simpa using hc) hch

theorem fsNormalizePath_normal {input p : Bytes} (h : fsNormalizePath input = some p)
    (hp : p ≠ []) : NormalName p := by
  rw [fsNormalizePath] at h
  split at h
  · exact absurd (by simpa using h.symm) hp
  · obtain ⟨output, hloop, rfl⟩ := Option.map_eq_some_iff.mp h
    obtain ⟨hlen, hhead, hsingle⟩ :=
      fsNormalizeLoop_output hloop (by decide) (by simp) (by simp) (by simp)
    have hpre := output.rdropWhile_prefix (· == slash)
    refine ⟨hp, lt_of_le_of_lt hpre.length_le hlen, ?_, ?_, hsingle.prefix hpre⟩
    · obtain ⟨r, hr⟩ := hpre
      rwa [← hr, List.head?_append_of_ne_nil _ hp] at hhead
    · rw [List.getLast?_eq_getLast_of_ne_nil hp]
      have hlast := List.rdropWhile_last_not (· == slash) output hp
      simpa using hlast

private theorem fsNormalizeLoop_normal {s output : Bytes} {last : Bool}
    (hlen : output.length + s.length < fsPathMax)
    (hhead : output = [] ∨ last = true → s.head? ≠ some slash)
    (hsingle : s.IsChain fun a b => a = slash → b ≠ slash) :
    fsNormalizeLoop s output last = some (output ++ s) := by
  induction s generalizing output last with
  | nil => simp [fsNormalizeLoop]
  | cons ch s ih =>
    have hfit : ¬ fsPathMax ≤ output.length + 1 := by
      rw [List.length_cons] at hlen; omega
    have hnext : ch = slash → s.head? ≠ some slash := by
      intro hch h0
      cases s with
      | nil => simp at h0
      | cons c s =>
        obtain rfl : c = slash := by simpa using h0
        exact (List.isChain_cons_cons.mp hsingle).1 hch rfl
    have hlen' : ∀ c : UInt8, (output ++ [c]).length + s.length < fsPathMax := by
      intro c
      rw [List.length_cons] at hlen
      simp only [List.length_append, List.length_singleton]; omega
    rw [fsNormalizeLoop]
    split
    · rename_i hch
      have hmid : ¬ (output.length = 0 ∨ last = true) := by
        intro h0
        apply hhead (h0.imp_left List.eq_nil_of_length_eq_zero)
        simp [hch]
      rw [if_neg hmid, ih (hlen' _) (fun _ => hnext hch) hsingle.tail, hch]
      simp
    · rw [ih (hlen' _) (by simp) hsingle.tail]
      simp

/-- Normalising a normalised path changes nothing. -/
theorem fsNormalizePath_of_normal {p : Bytes} (hp : NormalName p) :
    fsNormalizePath p = some p := by
  have hloop : fsNormalizeLoop p [] false = some p :=
    fsNormalizeLoop_normal (by simpa using hp.length_lt) (fun _ => hp.head_ne) hp.single
  have hdrop : p.rdropWhile (· == slash) = p := by
    apply List.rdropWhile_eq_self_iff.mpr
    intro hl hs
    apply hp.last_ne
    rw [List.getLast?_eq_getLast_of_ne_nil hl]
    simpa using hs
  rw [fsNormalizePath, if_neg hp.ne_nil, hloop, Option.map_some, hdrop]

theorem NormalName.prefix {q p : Bytes} (hp : NormalName p) (hq : q ≠ [])
    (h : Below slash q p) : NormalName q := by
  obtain ⟨r, rfl⟩ := h
  have hlen := hp.length_lt
  rw [List.length_append] at hlen
  refine ⟨hq, by omega, ?_, ?_, hp.single.prefix (List.prefix_append _ _)⟩
  · have hhead := hp.head_ne
    rwa [List.head?_append_of_ne_nil _ hq] at hhead
  · intro hlast
    exact (List.isChain_append.mp hp.single).2.2 slash hlast slash (by simp) rfl rfl

/-- A normalised path continued by the rest of a name below its source is normalised. -/
theorem NormalName.move {source destination name : Bytes} (hd : NormalName destination)
    (hn : NormalName name) (hin : InSubtree slash source name)
    (hlen : destination.length + (name.drop source.length).length < fsPathMax) :
    NormalName (rebase source destination name) := by
  obtain ⟨r, rfl, hr⟩ := hin.exists_suffix
  rw [List.drop_left] at hlen
  rw [rebase_append]
  have hsingle := List.isChain_append.mp hn.single
  refine ⟨by simp [hd.ne_nil], by simpa using hlen, ?_, ?_, ?_⟩
  · rw [List.head?_append_of_ne_nil _ hd.ne_nil]
    exact hd.head_ne
  · intro hlast
    rcases hr with rfl | ⟨t, rfl⟩
    · exact hd.last_ne (by simpa using hlast)
    · apply hn.last_ne
      simpa [List.getLast?_append] using hlast
  · apply List.isChain_append.mpr
    refine ⟨hd.single, hsingle.2.1, fun x hx y _ hxs => ?_⟩
    exact absurd (hxs ▸ hx) hd.last_ne

/-- The used slots form a tree of normalised names with bounded sizes. -/
structure FsTree (nodes : List FsNode) : Prop
    extends TreeTable slash FsNode.name (fun node => node.type = fsTypeDir) nodes where
  normal : ∀ node ∈ nodes, NormalName node.name
  size_le : ∀ node ∈ nodes, node.size ≤ fsMaxEntrySize

theorem FsTree.nil : FsTree [] := ⟨TreeTable.nil, by simp, by simp⟩

/-- The node's view points at its own slot. -/
def Synced (slot : Nat) (node : FsNode) : Prop := node = fsSyncEntry slot node

theorem fsSyncEntry_synced (slot : Nat) (node : FsNode) :
    Synced slot (fsSyncEntry slot node) := rfl

/-- What `fs_move` does to one slot. -/
def fsMoveNode (source destination : Bytes) (slot : Nat) (node : FsNode) : FsNode :=
  if fsMoved source node then
    fsSyncEntry slot { node with name := fsMoveName source destination node.name }
  else node

/-- What one call can do to the used slots when `drops` lists the slots it may remove. -/
inductive FsEffect (drops : Nat → Prop) (nodes : List FsNode) : List FsNode → Prop
  | same : FsEffect drops nodes nodes
  | push (node : FsNode) (normal : NormalName node.name)
      (absent : node.name ∉ nodes.map FsNode.name)
      (rooted : Rooted slash FsNode.name (fun node => node.type = fsTypeDir) nodes node.name)
      (size : node.size ≤ fsMaxEntrySize) (synced : Synced nodes.length node) :
      FsEffect drops nodes (nodes ++ [node])
  | store (slot : Nat) (hslot : slot < nodes.length) (f : FsNode → FsNode)
      (name : (f nodes[slot]).name = nodes[slot].name)
      (file : nodes[slot].type ≠ fsTypeDir) (size : (f nodes[slot]).size ≤ fsMaxEntrySize)
      (synced : Synced slot (f nodes[slot])) : FsEffect drops nodes (nodes.modify slot f)
  | remove (slot : Nat) (hslot : slot < nodes.length) (dropped : drops slot)
      (leaf : nodes[slot].type = fsTypeDir →
        ∀ node ∈ nodes, ¬ Below slash nodes[slot].name node.name) :
      FsEffect drops nodes (nodes.eraseIdx slot)
  | rename (source destination : Bytes) (present : source ∈ nodes.map FsNode.name)
      (normal : NormalName destination) (absent : destination ∉ nodes.map FsNode.name)
      (rooted : Rooted slash FsNode.name (fun node => node.type = fsTypeDir) nodes destination)
      (outside : ¬ Below slash source destination)
      (fits : ∀ node ∈ nodes, InSubtree slash source node.name →
        destination.length + (node.name.drop source.length).length < fsPathMax) :
      FsEffect drops nodes (nodes.mapIdx (fsMoveNode source destination))

theorem fsMoved_iff {source : Bytes} {node : FsNode} :
    fsMoved source node = true ↔ InSubtree slash source node.name := by
  simp [fsMoved, InSubtree, belowTest_iff]

section Views

variable {st : FsState}

theorem nodeAt_used {slot : Nat} (h : slot < st.used.length) :
    st.nodeAt slot = st.used[slot] := by
  have hc : slot < st.count := by simpa using h
  have hget := st.getElem?_used hc
  rw [List.getElem?_eq_getElem h] at hget
  rw [FsState.nodeAt, List.getD_eq_getElem?_getD, ← hget, Option.getD_some]

theorem fsFindNodeNormalized_some {p : Bytes} {slot : Nat}
    (h : fsFindNodeNormalized st p = some slot) :
    ∃ hs : slot < st.used.length, st.used[slot].name = p ∧ st.nodeAt slot = st.used[slot] := by
  obtain ⟨hs, hname⟩ := slotOf_eq_some h
  exact ⟨hs, hname, nodeAt_used hs⟩

theorem fsFindNodeNormalized_none {p : Bytes} (h : fsFindNodeNormalized st p = none) :
    p ∉ st.used.map FsNode.name := slotOf_eq_none.mp h

/-- `fs_parent_exists` finds every directory on the way to the path. -/
theorem fsParentExists_rooted (h : FsTree st.used) {p : Bytes}
    (hp : fsParentExists st p = true) :
    Rooted slash FsNode.name (fun node => node.type = fsTypeDir) st.used p := by
  rw [fsParentExists, fsParentPath] at hp
  cases hlast : lastIndex? slash p with
  | none => exact Rooted.of_not_mem (lastIndex?_eq_none.mp hlast)
  | some length =>
    obtain ⟨a, b, rfl, rfl, hb⟩ := lastIndex?_eq_some hlast
    apply Rooted.of_parent h.toTreeTable hb
    rw [hlast] at hp
    by_cases hlen : fsPathMax ≤ a.length
    · simp [hlen] at hp
    · by_cases ha : a = []
      · exact Or.inl ha
      · right
        simp only [hlen, if_false, List.take_left, ha] at hp
        cases hfind : fsFindNodeNormalizedConst st a with
        | none => simp [hfind] at hp
        | some node =>
          obtain ⟨hm, hk⟩ := mem_of_lookup hfind
          exact ⟨node, hm, hk, by simpa [hfind] using hp⟩

theorem fsHasChildren_iff {p : Bytes} (hp : p ≠ []) :
    fsHasChildren st p = true ↔ ∃ node ∈ st.used, Below slash p node.name := by
  simp [fsHasChildren, hp, belowTest_iff]

theorem fsPushNode_some {p : Bytes} {type : UInt32} {st' : FsState}
    (h : fsPushNode st p type = some st') :
    ∃ hc : st.count < maxFsEntries, st' = st.push
      (fsSyncEntry st.count { FsNode.zero with name := p, type := type }) hc := by
  rw [fsPushNode] at h
  split at h
  · rename_i hc
    split at h
    · cases h
    · exact ⟨hc, (Option.some.inj h).symm⟩
  · cases h

/-- A node written through its own slot number after a push is a pushed node. -/
theorem used_push_modify {node : FsNode} (hc : st.count < maxFsEntries)
    (f : FsNode → FsNode) :
    ((st.push node hc).modify ((st.push node hc).count - 1) f).used = st.used ++ [f node] := by
  have hlast : (st.push node hc).count - 1 = st.used.length := by
    rw [SlotTable.length_used]
    exact Nat.add_sub_cancel _ _
  rw [SlotTable.used_modify, SlotTable.used_push, hlast]
  apply List.ext_getElem
  · simp
  · intro i h1 h2
    rw [List.getElem_modify]
    split
    · subst i
      simp
    · rename_i hi
      have hlt : i < st.used.length := by
        rw [List.length_modify, List.length_append, List.length_singleton] at h1
        omega
      simp [List.getElem_append_left hlt]

end Views

section Effects

variable {st : FsState} {drops : Nat → Prop}

theorem fsMkdir_effect (h : FsTree st.used) (path : Bytes) :
    FsEffect drops st.used (fsMkdir st path).2.used := by
  unfold fsMkdir
  cases hnorm : fsNormalizePath path with
  | none => exact .same
  | some p =>
    by_cases hp : p = []
    · simpa [hp] using .same
    simp only [hp, if_false]
    cases hfind : fsFindNodeNormalized st p with
    | some slot => exact .same
    | none =>
      by_cases hparent : fsParentExists st p = true
      · cases hpush : fsPushNode st p fsTypeDir with
        | none => simpa [hparent] using .same
        | some st' =>
          obtain ⟨hc, rfl⟩ := fsPushNode_some hpush
          simp only [hparent, Bool.not_true, Bool.false_eq_true, if_false, SlotTable.used_push]
          apply FsEffect.push
          · exact fsNormalizePath_normal hnorm hp
          · exact fsFindNodeNormalized_none hfind
          · exact fsParentExists_rooted h hparent
          · exact Nat.zero_le _
          · rw [SlotTable.length_used]
            exact fsSyncEntry_synced _ _
      · simpa [hparent] using .same

/-- The common part of `fs_write_file` and the calls that end in it. -/
theorem fsWriteFile_effect (h : FsTree st.used) (path data : Bytes) (type : UInt32) :
    FsEffect drops st.used (fsWriteFile st path data type).2.used := by
  unfold fsWriteFile
  cases hnorm : fsNormalizePath path with
  | none => exact .same
  | some p =>
    by_cases hbad : p = [] ∨ type = fsTypeDir ∨ fsMaxEntrySize < data.length
    · simpa only [hbad, if_true] using .same
    simp only [hbad, if_false]
    push Not at hbad
    obtain ⟨hp, -, hsize⟩ := hbad
    cases hfind : fsFindNodeNormalized st p with
    | some slot =>
      obtain ⟨hs, -, hnode⟩ := fsFindNodeNormalized_some hfind
      by_cases hdir : (st.nodeAt slot).type = fsTypeDir
      · simpa [hdir] using .same
      · simp only [hdir, if_false, SlotTable.used_modify]
        exact .store slot hs _ rfl (hnode ▸ hdir) hsize (fsSyncEntry_synced _ _)
    | none =>
      by_cases hparent : fsParentExists st p = true
      · cases hpush : fsPushNode st p type with
        | none => simpa [hparent] using .same
        | some st' =>
          obtain ⟨hc, rfl⟩ := fsPushNode_some hpush
          simp only [hparent, Bool.not_true, Bool.false_eq_true, if_false, used_push_modify]
          apply FsEffect.push
          · exact fsNormalizePath_normal hnorm hp
          · exact fsFindNodeNormalized_none hfind
          · exact fsParentExists_rooted h hparent
          · exact hsize
          · rw [SlotTable.length_used]
            exact fsSyncEntry_synced _ _
      · simpa [hparent] using .same

theorem fsAppendFile_effect (h : FsTree st.used) (path data : Bytes) :
    FsEffect drops st.used (fsAppendFile st path data).2.used := by
  unfold fsAppendFile
  cases hnorm : fsNormalizePath path with
  | none => exact .same
  | some p =>
    by_cases hp : p = []
    · simpa [hp] using .same
    simp only [hp, if_false]
    cases hfind : fsFindNodeNormalized st p with
    | none => exact fsWriteFile_effect h p data fsTypeText
    | some slot =>
      obtain ⟨hs, -, hnode⟩ := fsFindNodeNormalized_some hfind
      by_cases hbad : (st.nodeAt slot).type ≠ fsTypeText ∨
          fsMaxEntrySize < (st.nodeAt slot).size + data.length
      · simpa only [hbad, if_true] using .same
      · simp only [hbad, if_false, SlotTable.used_modify]
        push Not at hbad
        rw [hnode] at hbad
        have hfile : st.used[slot].type ≠ fsTypeDir := by
          rw [hbad.1]
          decide
        exact .store slot hs _ rfl hfile hbad.2 (fsSyncEntry_synced _ _)

/-- The slots a call removes: `fs_remove` drops the node its path names, unless that node is a
directory with children. -/
def fsDrops (st : FsState) (op : FsOp) (slot : Nat) : Prop :=
  match op with
  | .remove path => ∃ normalized, fsNormalizePath path = some normalized ∧
      fsFindNodeNormalized st normalized = some slot ∧
      ¬ ((st.nodeAt slot).type = fsTypeDir ∧ fsHasChildren st normalized = true)
  | _ => False

theorem fsRemove_effect (path : Bytes) :
    FsEffect (fsDrops st (.remove path)) st.used (fsRemove st path).2.used := by
  unfold fsRemove
  cases hnorm : fsNormalizePath path with
  | none => exact .same
  | some p =>
    by_cases hp : p = []
    · simpa [hp] using .same
    simp only [hp, if_false]
    cases hfind : fsFindNodeNormalized st p with
    | none => exact .same
    | some slot =>
      obtain ⟨hs, hname, hnode⟩ := fsFindNodeNormalized_some hfind
      by_cases hbusy : (st.nodeAt slot).type = fsTypeDir ∧ fsHasChildren st p = true
      · simpa only [hbusy, and_self, if_true] using .same
      · simp only [hbusy, if_false]
        rw [SlotTable.used_removeAt st (by simpa using hs)]
        apply FsEffect.remove slot hs ⟨p, hnorm, hfind, hbusy⟩
        intro hdir node hn hbelow
        rw [hname] at hbelow
        exact hbusy ⟨hnode ▸ hdir, (fsHasChildren_iff hp).mpr ⟨node, hn, hbelow⟩⟩

theorem fsCopy_effect (h : FsTree st.used) (source destination : Bytes) :
    FsEffect drops st.used (fsCopy st source destination).2.used := by
  unfold fsCopy
  cases fsNormalizePath source with
  | none => exact .same
  | some s =>
    cases fsNormalizePath destination with
    | none => exact .same
    | some d =>
      dsimp only
      cases fsFindNodeNormalizedConst st s with
      | none => exact .same
      | some node =>
        dsimp only
        split
        · exact .same
        · split
          · exact .same
          · exact fsWriteFile_effect h d _ _

/-- The first loop of `fs_move` checks the length of every new name. -/
theorem fsMoveAllowed_fits {source destination : Bytes}
    (h : fsMoveAllowed st source destination = true) :
    ∀ node ∈ st.used, InSubtree slash source node.name →
      destination.length + (node.name.drop source.length).length < fsPathMax := by
  intro node hn hin
  obtain ⟨i, hi, rfl⟩ := List.mem_iff_getElem.mp hn
  rw [fsMoveAllowed, List.all_eq_true] at h
  have hrow := h i (by simpa using hi)
  rw [nodeAt_used hi, if_pos (fsMoved_iff.mpr hin)] at hrow
  simp only [Bool.and_eq_true, Bool.not_eq_true', decide_eq_false_iff_not] at hrow
  omega

theorem fsMove_effect (h : FsTree st.used) (source destination : Bytes) :
    FsEffect drops st.used (fsMove st source destination).2.used := by
  unfold fsMove
  cases fsNormalizePath source with
  | none => exact .same
  | some s =>
    cases hnorm : fsNormalizePath destination with
    | none => exact .same
    | some d =>
      dsimp only
      by_cases hempty : s = [] ∨ d = []
      · simpa only [hempty, if_true] using .same
      simp only [hempty, if_false]
      push Not at hempty
      obtain ⟨hs, hd⟩ := hempty
      cases hfind : fsFindNodeNormalized st s with
      | none => exact .same
      | some slot =>
        obtain ⟨hslot, hname, hnode⟩ := fsFindNodeNormalized_some hfind
        dsimp only
        split
        · exact .same
        rename_i hbad
        push Not at hbad
        obtain ⟨habsent, hparent⟩ := hbad
        split
        · exact .same
        rename_i hself
        split
        · exact .same
        rename_i hallowed
        have habsent' : d ∉ st.used.map FsNode.name := by
          apply lookup_eq_none.mp
          simpa [fsFindNodeNormalizedConst] using habsent
        have hrooted := fsParentExists_rooted h (by simpa using hparent)
        have houtside : ¬ Below slash s d := by
          intro hbelow
          obtain ⟨node, hn, hk, hdir⟩ := hrooted s hs hbelow
          have hsame : st.used[slot] = node :=
            h.key_inj (List.getElem_mem hslot) hn (hname.trans hk.symm)
          exact hself ⟨by rw [hnode, hsame]; exact hdir, (belowTest_iff _ _ _).mpr hbelow⟩
        rw [SlotTable.used_mapUsed]
        apply FsEffect.rename s d
        · exact List.mem_map.mpr ⟨_, List.getElem_mem hslot, hname⟩
        · exact fsNormalizePath_normal hnorm hd
        · exact habsent'
        · exact hrooted
        · exact houtside
        · exact fsMoveAllowed_fits (by simpa using hallowed)

/-- The effect of any call on a tree. -/
theorem fsStep_effect (h : FsTree st.used) (op : FsOp) :
    FsEffect (fsDrops st op) st.used (fsStep st op).used := by
  cases op with
  | mkdir path => exact fsMkdir_effect h path
  | writeFile path data type => exact fsWriteFile_effect h path data type
  | appendFile path data => exact fsAppendFile_effect h path data
  | remove path => exact fsRemove_effect path
  | copy source destination => exact fsCopy_effect h source destination
  | move source destination => exact fsMove_effect h source destination

end Effects

section Preservation

variable {nodes nodes' : List FsNode}

theorem FsTree.push (h : FsTree nodes) {node : FsNode} (normal : NormalName node.name)
    (absent : node.name ∉ nodes.map FsNode.name)
    (rooted : Rooted slash FsNode.name (fun node => node.type = fsTypeDir) nodes node.name)
    (size : node.size ≤ fsMaxEntrySize) : FsTree (nodes ++ [node]) := by
  refine ⟨h.toTreeTable.push absent rooted, fun m hm => ?_, fun m hm => ?_⟩
  · rcases List.mem_append.mp hm with hm | hm
    · exact h.normal m hm
    · rw [List.mem_singleton.mp hm]
      exact normal
  · rcases List.mem_append.mp hm with hm | hm
    · exact h.size_le m hm
    · rw [List.mem_singleton.mp hm]
      exact size

private theorem FsTree.store (h : FsTree nodes) {slot : Nat} (hslot : slot < nodes.length)
    {f : FsNode → FsNode} (name : (f nodes[slot]).name = nodes[slot].name)
    (file : nodes[slot].type ≠ fsTypeDir) (size : (f nodes[slot]).size ≤ fsMaxEntrySize) :
    FsTree (nodes.modify slot f) := by
  have hself : nodes[slot] ∈ nodes := List.getElem_mem hslot
  refine ⟨h.toTreeTable.of_same_keys (map_modify hslot name) ?_, fun m hm => ?_,
    fun m hm => ?_⟩
  · intro d hd hdir
    obtain ⟨i, hi, rfl⟩ := List.mem_iff_getElem.mp hd
    have hne : slot ≠ i := by
      intro he
      subst he
      exact file hdir
    refine ⟨nodes[i], ?_, rfl, hdir⟩
    apply List.mem_iff_getElem.mpr
    exact ⟨i, by simpa using hi, by simp [hne]⟩
  · rcases mem_modify hslot hm with rfl | hm
    · rw [name]
      exact h.normal _ hself
    · exact h.normal m hm
  · rcases mem_modify hslot hm with rfl | hm
    · exact size
    · exact h.size_le m hm

private theorem FsTree.remove (h : FsTree nodes) {slot : Nat} (hslot : slot < nodes.length)
    (leaf : nodes[slot].type = fsTypeDir →
      ∀ node ∈ nodes, ¬ Below slash nodes[slot].name node.name) :
    FsTree (nodes.eraseIdx slot) := by
  have hself : nodes[slot] ∈ nodes := List.getElem_mem hslot
  refine ⟨h.toTreeTable.eraseIdx hslot fun n hn => ?_, fun m hm => ?_, fun m hm => ?_⟩
  · by_cases hdir : nodes[slot].type = fsTypeDir
    · exact leaf hdir n hn
    · exact h.not_below hself hn (h.normal _ hself).ne_nil hdir
  · exact h.normal m (List.mem_of_mem_eraseIdx hm)
  · exact h.size_le m (List.mem_of_mem_eraseIdx hm)

theorem fsMoveNode_name (source destination : Bytes) (slot : Nat) (node : FsNode) :
    (fsMoveNode source destination slot node).name =
      if InSubtree slash source node.name then rebase source destination node.name
      else node.name := by
  by_cases h : InSubtree slash source node.name
  · rw [fsMoveNode, if_pos (fsMoved_iff.mpr h), if_pos h]
    rfl
  · rw [fsMoveNode, if_neg (mt fsMoved_iff.mp h), if_neg h]

theorem fsMoveNode_rest (source destination : Bytes) (slot : Nat) (node : FsNode) :
    (fsMoveNode source destination slot node).type = node.type ∧
      (fsMoveNode source destination slot node).size = node.size ∧
      (fsMoveNode source destination slot node).data = node.data := by
  rw [fsMoveNode]
  split <;> exact ⟨rfl, rfl, rfl⟩

private theorem FsTree.rename (h : FsTree nodes) {source destination : Bytes}
    (present : source ∈ nodes.map FsNode.name) (normal : NormalName destination)
    (absent : destination ∉ nodes.map FsNode.name)
    (rooted : Rooted slash FsNode.name (fun node => node.type = fsTypeDir) nodes destination)
    (outside : ¬ Below slash source destination)
    (fits : ∀ node ∈ nodes, InSubtree slash source node.name →
      destination.length + (node.name.drop source.length).length < fsPathMax) :
    FsTree (nodes.mapIdx (fsMoveNode source destination)) := by
  have hsource : source ≠ [] := by
    obtain ⟨n, hn, rfl⟩ := List.mem_map.mp present
    exact (h.normal n hn).ne_nil
  have hmem : ∀ m ∈ nodes.mapIdx (fsMoveNode source destination),
      ∃ i, ∃ n ∈ nodes, m = fsMoveNode source destination i n := by
    intro m hm
    obtain ⟨i, hi, rfl⟩ := List.mem_iff_getElem.mp hm
    have hi' : i < nodes.length := by simpa using hi
    exact ⟨i, nodes[i], List.getElem_mem hi', by simp⟩
  -- paths and types alone decide the tree, and on them the slot number plays no part
  have hproj : (nodes.mapIdx (fsMoveNode source destination)).map
      (fun n => (n.name, n.type)) =
      (nodes.map fun n => (n.name, n.type)).map fun v =>
        (if InSubtree slash source v.1 then rebase source destination v.1 else v.1, v.2) := by
    apply List.ext_getElem
    · simp
    · intro i h1 h2
      simp only [List.getElem_map, List.getElem_mapIdx, fsMoveNode_name,
        (fsMoveNode_rest source destination _ _).1]
  have hviews : TreeTable slash Prod.fst (fun v : Bytes × UInt32 => v.2 = fsTypeDir)
      (nodes.map fun n => (n.name, n.type)) :=
    (TreeTable.map_iff _ _ _ _).mpr h.toTreeTable
  refine ⟨?_, fun m hm => ?_, fun m hm => ?_⟩
  · rw [← TreeTable.map_iff (fun n : FsNode => (n.name, n.type)) Prod.fst
      (fun v => v.2 = fsTypeDir), hproj]
    apply hviews.rename hsource normal.ne_nil
    · rw [List.map_map]
      exact absent
    · exact outside
    · intro q hq hb
      obtain ⟨d, hd, hk, hdir⟩ := rooted q hq hb
      exact ⟨_, List.mem_map_of_mem hd, hk, hdir⟩
    · intro v _
      rfl
    · intro v _ hv
      exact hv
  · obtain ⟨i, n, hn, rfl⟩ := hmem m hm
    rw [fsMoveNode_name]
    split
    · rename_i hin
      exact normal.move (h.normal n hn) hin (fits n hn hin)
    · exact h.normal n hn
  · obtain ⟨i, n, hn, rfl⟩ := hmem m hm
    rw [(fsMoveNode_rest source destination i n).2.1]
    exact h.size_le n hn

/-- Every effect keeps the tree. -/
theorem FsEffect.tree {drops : Nat → Prop} (he : FsEffect drops nodes nodes') (h : FsTree nodes) :
    FsTree nodes' := by
  cases he with
  | same => exact h
  | push node normal absent rooted size synced => exact h.push normal absent rooted size
  | store slot hslot f name file size synced => exact h.store hslot name file size
  | remove slot hslot dropped leaf => exact h.remove hslot leaf
  | rename source destination present normal absent rooted outside fits =>
    exact h.rename present normal absent rooted outside fits

end Preservation

theorem fsStep_tree (st : FsState) (op : FsOp) (h : FsTree st.used) :
    FsTree (fsStep st op).used :=
  (fsStep_effect h op).tree h

theorem fsUseBuiltin_tree (st : FsState) : FsTree (fsUseBuiltin st).used := by
  have hempty : FsTree (SlotTable.used
      { st with count := 0, count_le := Nat.zero_le _ } : List FsNode) := by
    have hnil : SlotTable.used { st with count := 0, count_le := Nat.zero_le _ } = [] :=
      List.take_zero
    rw [hnil]
    exact FsTree.nil
  exact run_invariant (I := fun st : FsState => FsTree st.used) fsStep_tree hempty builtinOps

/-- After any calls on the built-in table, whatever the slots held before, the used slots form
a tree that fits the table. -/
theorem fsReachable_tree (st : FsState) (ops : List FsOp) :
    (run fsStep (fsUseBuiltin st) ops).count ≤ maxFsEntries ∧
      FsTree (run fsStep (fsUseBuiltin st) ops).used := by
  refine ⟨(run fsStep (fsUseBuiltin st) ops).count_le, ?_⟩
  exact run_invariant (I := fun st : FsState => FsTree st.used) fsStep_tree (fsUseBuiltin_tree st) ops

end SnsxOS.X86
