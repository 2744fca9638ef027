import SnsxOS.X86.TreeInvariant
import Mathlib.Data.Set.Card

/-!
# The x86 file system as a finite map

Abstractly the file system is a finite map from normalised paths to a type and bytes. The table
refines this map under every call. The views handed to callers show the map as long as no call
removes a slot other than the last one: `fs_remove` shifts the later slots down together with
their views, which keep pointing at the slots they were built for.
-/

namespace SnsxOS.X86

open Framework

abbrev FileMap := Bytes → Option (UInt32 × Bytes)

namespace FileMap

def IsDir (m : FileMap) (p : Bytes) : Prop := ∃ bytes, m p = some (fsTypeDir, bytes)

/-- All directories on the way to the path are there. -/
def Reachable (m : FileMap) (p : Bytes) : Prop := ∀ q, q ≠ [] → Below slash q p → m.IsDir q

/-- The map has room for one more path. -/
def Room (m : FileMap) : Prop := {p | m p ≠ none}.ncard < maxFsEntries

noncomputable section

open scoped Classical in
def mkdir (m : FileMap) (p : Bytes) : Bool × FileMap :=
  match m p with
  | some content => (content.1 == fsTypeDir, m)
  | none =>
      if m.Reachable p ∧ m.Room then (true, Function.update m p (some (fsTypeDir, [])))
      else (false, m)

open scoped Classical in
def writeFile (m : FileMap) (p data : Bytes) (type : UInt32) : Bool × FileMap :=
  if type = fsTypeDir ∨ fsMaxEntrySize < data.length then (false, m)
  else match m p with
    | some content =>
        if content.1 = fsTypeDir then (false, m)
        else (true, Function.update m p (some (type, data)))
    | none =>
        if m.Reachable p ∧ m.Room then (true, Function.update m p (some (type, data)))
        else (false, m)

def appendFile (m : FileMap) (p data : Bytes) : Bool × FileMap :=
  match m p with
  | none => m.writeFile p data fsTypeText
  | some content =>
      if content.1 = fsTypeText ∧ content.2.length + data.length ≤ fsMaxEntrySize then
        (true, Function.update m p (some (fsTypeText, content.2 ++ data)))
      else (false, m)

open scoped Classical in
def remove (m : FileMap) (p : Bytes) : Bool × FileMap :=
  match m p with
  | none => (false, m)
  | some content =>
      if content.1 = fsTypeDir ∧ ∃ q, m q ≠ none ∧ Below slash p q then (false, m)
      else (true, Function.update m p none)

def copy (m : FileMap) (source destination : Bytes) : Bool × FileMap :=
  match m source with
  | none => (false, m)
  | some content =>
      if content.1 = fsTypeDir ∨ m destination ≠ none then (false, m)
      else m.writeFile destination content.2 content.1

/-- The map with the subtree at `source` found at `destination` instead. -/
def renamed (m : FileMap) (source destination : Bytes) : FileMap := fun p =>
  if InSubtree slash destination p then m (rebase destination source p)
  else if InSubtree slash source p then none else m p

open scoped Classical in
def move (m : FileMap) (source destination : Bytes) : Bool × FileMap :=
  if m source ≠ none ∧ m destination = none ∧ m.Reachable destination ∧
      ¬ Below slash source destination ∧ (∀ p, m p ≠ none → InSubtree slash source p →
        destination.length + (p.drop source.length).length < fsPathMax) then
    (true, m.renamed source destination)
  else (false, m)

/-- A call on the path its argument normalises to. -/
def onPath (m : FileMap) (path : Bytes) (f : Bytes → Bool × FileMap) : Bool × FileMap :=
  match fsNormalizePath path with
  | none => (false, m)
  | some p => if p = [] then (false, m) else f p

def call (m : FileMap) : FsOp → Bool × FileMap
  | .mkdir path => m.onPath path m.mkdir
  | .writeFile path data type => m.onPath path fun p => m.writeFile p data type
  | .appendFile path data => m.onPath path fun p => m.appendFile p data
  | .remove path => m.onPath path m.remove
  | .copy source destination => m.onPath source fun s =>
      m.onPath destination fun d => m.copy s d
  | .move source destination => m.onPath source fun s =>
      m.onPath destination fun d => m.move s d

def step (m : FileMap) (op : FsOp) : FileMap := (m.call op).2

/-- The map `fs_use_builtin` sets up. -/
def builtin : FileMap := run step (fun _ => none) builtinOps

end

end FileMap

def FsNode.content (node : FsNode) : UInt32 × Bytes :=
  (node.type, node.data.read 0 node.size)

/-- The map that the used slots represent. -/
def contents (nodes : List FsNode) : FileMap := fun p =>
  (lookup FsNode.name nodes p).map FsNode.content

section Contents

variable {nodes : List FsNode} {p : Bytes}

theorem contents_eq_none : contents nodes p = none ↔ p ∉ nodes.map FsNode.name := by
  rw [contents, Option.map_eq_none_iff, lookup_eq_none]

theorem contents_ne_none : contents nodes p ≠ none ↔ ∃ node ∈ nodes, node.name = p := by
  rw [Ne, contents_eq_none, not_not, List.mem_map]

theorem contents_getElem (h : FsTree nodes) {slot : Nat} (hs : slot < nodes.length) :
    contents nodes nodes[slot].name = some nodes[slot].content := by
  rw [contents, (lookup_eq_some h.distinct).mpr ⟨List.getElem_mem hs, rfl⟩, Option.map_some]

theorem contents_isDir (h : FsTree nodes) :
    (contents nodes).IsDir p ↔ ∃ d ∈ nodes, d.name = p ∧ d.type = fsTypeDir := by
  constructor
  · intro hdir
    obtain ⟨bytes, hb⟩ := hdir
    obtain ⟨d, hd, hc⟩ := Option.map_eq_some_iff.mp hb
    obtain ⟨hm, hk⟩ := mem_of_lookup hd
    exact ⟨d, hm, hk, congrArg Prod.fst hc⟩
  · intro hex
    obtain ⟨d, hd, hk, hdir⟩ := hex
    refine ⟨d.data.read 0 d.size, ?_⟩
    rw [contents, (lookup_eq_some h.distinct).mpr ⟨hd, hk⟩, Option.map_some, FsNode.content, hdir]

theorem contents_reachable (h : FsTree nodes) : (contents nodes).Reachable p ↔
    Rooted slash FsNode.name (fun node => node.type = fsTypeDir) nodes p := by
  simp only [FileMap.Reachable, Rooted, contents_isDir h]

theorem contents_room (h : FsTree nodes) :
    (contents nodes).Room ↔ nodes.length < maxFsEntries := by
  have hset : {p | contents nodes p ≠ none} = ((nodes.map FsNode.name).toFinset : Set Bytes) := by
    ext p
    simp only [Set.mem_ofPred_eq, contents_ne_none, List.coe_toFinset, List.mem_map]
  rw [FileMap.Room, hset, Set.ncard_coe_finset, List.toFinset_card_of_nodup h.distinct,
    List.length_map]

theorem contents_push {node : FsNode} (absent : node.name ∉ nodes.map FsNode.name) :
    contents (nodes ++ [node]) =
      Function.update (contents nodes) node.name (some node.content) := by
  funext p
  rw [contents, lookup_append_singleton absent, Function.update_apply]
  split <;> rfl

theorem contents_modify (h : FsTree nodes) {slot : Nat} (hs : slot < nodes.length)
    {f : FsNode → FsNode} (name : (f nodes[slot]).name = nodes[slot].name) :
    contents (nodes.modify slot f) =
      Function.update (contents nodes) nodes[slot].name (some (f nodes[slot]).content) := by
  funext p
  rw [contents, lookup_modify h.distinct hs name, Function.update_apply]
  split <;> rfl

theorem contents_eraseIdx (h : FsTree nodes) {slot : Nat} (hs : slot < nodes.length) :
    contents (nodes.eraseIdx slot) =
      Function.update (contents nodes) nodes[slot].name none := by
  funext p
  rw [contents, lookup_eraseIdx h.distinct hs, Function.update_apply]
  split <;> rfl

/-- The part of a node that the map shows, with its path. -/
private def pathContent (node : FsNode) : Bytes × UInt32 × Bytes := (node.name, node.content)

private theorem contents_eq_view (p : Bytes) : contents nodes p =
    (lookup Prod.fst (nodes.map pathContent) p).map Prod.snd := by
  rw [lookup_map, Option.map_map]
  rfl

theorem contents_rename (h : FsTree nodes) {source destination : Bytes}
    (present : source ∈ nodes.map FsNode.name) (normal : NormalName destination)
    (absent : destination ∉ nodes.map FsNode.name)
    (rooted : Rooted slash FsNode.name (fun node => node.type = fsTypeDir) nodes destination)
    (outside : ¬ Below slash source destination) :
    contents (nodes.mapIdx (fsMoveNode source destination)) =
      (contents nodes).renamed source destination := by
  have hsource : source ≠ [] := by
    obtain ⟨n, hn, rfl⟩ := List.mem_map.mp present
    exact (h.normal n hn).ne_nil
  have hproj : (nodes.mapIdx (fsMoveNode source destination)).map pathContent =
      (nodes.map pathContent).map fun v =>
        (if InSubtree slash source v.1 then rebase source destination v.1 else v.1, v.2) := by
    apply List.ext_getElem
    · simp
    · intro i h1 h2
      have hi : i < nodes.length := by simpa using h2
      obtain ⟨ht, hs, hd⟩ := fsMoveNode_rest source destination i nodes[i]
      simp only [List.getElem_map, List.getElem_mapIdx, pathContent, FsNode.content,
        fsMoveNode_name, ht, hs, hd]
  have hviews : TreeTable slash Prod.fst (fun v : Bytes × UInt32 × Bytes => v.2.1 = fsTypeDir)
      (nodes.map pathContent) := (TreeTable.map_iff _ _ _ _).mpr h.toTreeTable
  funext p
  rw [contents_eq_view, hproj, lookup_rename hviews hsource normal.ne_nil]
  · simp only [FileMap.renamed, contents_eq_view]
    split
    · rw [Option.map_map]
      rfl
    · split <;> rfl
  · rw [List.map_map]
    exact absent
  · exact outside
  · intro q hq hb
    obtain ⟨d, hd, hk, hdir⟩ := rooted q hq hb
    exact ⟨_, List.mem_map_of_mem hd, hk, hdir⟩
  · intro v _
    rfl
  · intro v _ hv
    exact hv
  · intro v _ hv
    rw [if_neg hv]

end Contents

section Refinement

variable {st : FsState}

theorem contents_of_find {p : Bytes} {slot : Nat} (h : FsTree st.used)
    (hfind : fsFindNodeNormalized st p = some slot) :
    contents st.used p = some (st.nodeAt slot).content := by
  obtain ⟨hs, rfl, hnode⟩ := fsFindNodeNormalized_some hfind
  rw [contents_getElem h hs, hnode]

theorem contents_of_not_find {p : Bytes} (hfind : fsFindNodeNormalized st p = none) :
    contents st.used p = none :=
  contents_eq_none.mpr (fsFindNodeNormalized_none hfind)

theorem contents_const (p : Bytes) :
    contents st.used p = (fsFindNodeNormalizedConst st p).map FsNode.content := rfl

/-- On a tree the parent check and the check of all ancestors agree. -/
theorem fsParentExists_iff (h : FsTree st.used) {p : Bytes} (hp : NormalName p) :
    fsParentExists st p = true ↔ (contents st.used).Reachable p := by
  rw [contents_reachable h]
  refine ⟨fsParentExists_rooted h, fun hroot => ?_⟩
  rw [fsParentExists, fsParentPath]
  cases hlast : lastIndex? slash p with
  | none => simp
  | some length =>
    obtain ⟨a, b, rfl, rfl, hb⟩ := lastIndex?_eq_some hlast
    have hlen := hp.length_lt
    rw [List.length_append] at hlen
    by_cases ha : a = []
    · simp [ha, fsPathMax]
    · obtain ⟨d, hd, rfl, hdir⟩ := hroot a ha ⟨b, rfl⟩
      have hfit : ¬ fsPathMax ≤ d.name.length := by omega
      have hfind : fsFindNodeNormalizedConst st d.name = some d :=
        (lookup_eq_some h.distinct).mpr ⟨hd, rfl⟩
      simp [hfit, ha, hfind, hdir]

theorem fsPushNode_eq {p : Bytes} (hp : NormalName p) (type : UInt32) :
    fsPushNode st p type = if hc : st.count < maxFsEntries then
      some (st.push (fsSyncEntry st.count { FsNode.zero with name := p, type := type }) hc)
    else none := by
  have hfit : ¬ fsPathMax < p.length + 1 := not_lt.mpr hp.length_lt
  simp only [fsPushNode, hfit, if_false]

theorem fsMkdir_refines (h : FsTree st.used) {p : Bytes} (hp : NormalName p) {path : Bytes}
    (hnorm : fsNormalizePath path = some p) :
    (contents st.used).mkdir p = ((fsMkdir st path).1, contents (fsMkdir st path).2.used) := by
  simp only [fsMkdir, hnorm, hp.ne_nil, if_false, FileMap.mkdir]
  cases hfind : fsFindNodeNormalized st p with
  | some slot =>
    rw [contents_of_find h hfind]
    rfl
  | none =>
    have hroom := contents_room h
    rw [SlotTable.length_used] at hroom
    rw [contents_of_not_find hfind]
    simp only [← fsParentExists_iff h hp, hroom, fsPushNode_eq hp]
    by_cases hparent : fsParentExists st p = true
    · by_cases hc : st.count < maxFsEntries
      · simp only [hparent, hc, and_self, if_true, dif_pos, Bool.not_true, Bool.false_eq_true,
          if_false, SlotTable.used_push]
        rw [contents_push]
        · simp [fsSyncEntry, FsNode.content, FsNode.zero]
        · exact fsFindNodeNormalized_none hfind
      · simp [hparent, hc]
    · simp [hparent]

theorem fsWriteFile_refines (h : FsTree st.used) {p : Bytes} (hp : NormalName p)
    {path : Bytes} (hnorm : fsNormalizePath path = some p) (data : Bytes) (type : UInt32) :
    (contents st.used).writeFile p data type =
      ((fsWriteFile st path data type).1, contents (fsWriteFile st path data type).2.used) := by
  simp only [fsWriteFile, hnorm, hp.ne_nil, false_or, FileMap.writeFile]
  split
  · rfl
  rename_i hbad
  push Not at hbad
  have hread : ∀ b : Buffer fsMaxEntrySize, (b.write 0 data).read 0 data.length = data :=
    fun b => b.read_write_self (by simpa using hbad.2)
  cases hfind : fsFindNodeNormalized st p with
  | some slot =>
    obtain ⟨hs, rfl, hnode⟩ := fsFindNodeNormalized_some hfind
    rw [contents_of_find h hfind]
    dsimp only
    rw [show (st.nodeAt slot).content.1 = (st.nodeAt slot).type from rfl]
    split
    · rfl
    · rw [SlotTable.used_modify, contents_modify h hs rfl]
      simp [fsSyncEntry, FsNode.content, hread]
  | none =>
    have hroom := contents_room h
    rw [SlotTable.length_used] at hroom
    rw [contents_of_not_find hfind]
    simp only [← fsParentExists_iff h hp, hroom, fsPushNode_eq hp]
    by_cases hparent : fsParentExists st p = true
    · by_cases hc : st.count < maxFsEntries
      · simp only [hparent, hc, and_self, if_true, dif_pos, Bool.not_true, Bool.false_eq_true,
          if_false, used_push_modify]
        rw [contents_push]
        · simp [fsSyncEntry, FsNode.content, FsNode.zero, hread]
        · exact fsFindNodeNormalized_none hfind
      · simp [hparent, hc]
    · simp [hparent]

theorem fsAppendFile_refines (h : FsTree st.used) {p : Bytes} (hp : NormalName p)
    {path : Bytes} (hnorm : fsNormalizePath path = some p) (data : Bytes) :
    (contents st.used).appendFile p data =
      ((fsAppendFile st path data).1, contents (fsAppendFile st path data).2.used) := by
  simp only [fsAppendFile, hnorm, hp.ne_nil, if_false, FileMap.appendFile]
  cases hfind : fsFindNodeNormalized st p with
  | none =>
    rw [contents_of_not_find hfind]
    exact fsWriteFile_refines h hp (fsNormalizePath_of_normal hp) data fsTypeText
  | some slot =>
    obtain ⟨hs, rfl, hnode⟩ := fsFindNodeNormalized_some hfind
    rw [contents_of_find h hfind]
    dsimp only
    rw [hnode]
    have hsize : st.used[slot].content.2.length = st.used[slot].size :=
      Buffer.length_read _ (by simpa using h.size_le _ (List.getElem_mem hs))
    rw [hsize, show st.used[slot].content.1 = st.used[slot].type from rfl]
    by_cases hfit : st.used[slot].type = fsTypeText ∧
        st.used[slot].size + data.length ≤ fsMaxEntrySize
    · have hbad : ¬ (st.used[slot].type ≠ fsTypeText ∨
          fsMaxEntrySize < st.used[slot].size + data.length) := by
        push Not
        exact hfit
      rw [if_pos hfit, if_neg hbad, SlotTable.used_modify, contents_modify h hs rfl]
      simp [fsSyncEntry, FsNode.content, hfit.1, Buffer.read_write_append _ _ _ hfit.2]
    · have hbad : st.used[slot].type ≠ fsTypeText ∨
          fsMaxEntrySize < st.used[slot].size + data.length := by
        rcases not_and_or.mp hfit with ht | hl
        · exact Or.inl ht
        · exact Or.inr (not_le.mp hl)
      rw [if_neg hfit, if_pos hbad]

theorem fsRemove_refines (h : FsTree st.used) {p : Bytes} (hp : NormalName p)
    {path : Bytes} (hnorm : fsNormalizePath path = some p) :
    (contents st.used).remove p =
      ((fsRemove st path).1, contents (fsRemove st path).2.used) := by
  simp only [fsRemove, hnorm, hp.ne_nil, if_false, FileMap.remove]
  cases hfind : fsFindNodeNormalized st p with
  | none => rw [contents_of_not_find hfind]
  | some slot =>
    obtain ⟨hs, rfl, hnode⟩ := fsFindNodeNormalized_some hfind
    have hchildren : (∃ q, contents st.used q ≠ none ∧ Below slash st.used[slot].name q) ↔
        fsHasChildren st st.used[slot].name = true := by
      rw [fsHasChildren_iff hp.ne_nil]
      constructor
      · intro hex
        obtain ⟨q, hq, hb⟩ := hex
        obtain ⟨node, hn, rfl⟩ := contents_ne_none.mp hq
        exact ⟨node, hn, hb⟩
      · intro hex
        obtain ⟨node, hn, hb⟩ := hex
        exact ⟨node.name, contents_ne_none.mpr ⟨node, hn, rfl⟩, hb⟩
    rw [contents_of_find h hfind]
    simp only [hchildren, show (st.nodeAt slot).content.1 = (st.nodeAt slot).type from rfl]
    split
    · rfl
    · rw [SlotTable.used_removeAt st (by simpa using hs), contents_eraseIdx h hs]

theorem not_const_nil (h : FsTree st.used) : fsFindNodeNormalizedConst st [] = none := by
  apply lookup_eq_none.mpr
  intro hm
  obtain ⟨n, hn, he⟩ := List.mem_map.mp hm
  exact (h.normal n hn).ne_nil he

theorem fsCopy_refines (h : FsTree st.used) (source destination : Bytes) :
    (contents st.used).call (.copy source destination) =
      ((fsCopy st source destination).1, contents (fsCopy st source destination).2.used) := by
  simp only [fsCopy, FileMap.call, FileMap.onPath]
  cases hs : fsNormalizePath source with
  | none => rfl
  | some s =>
    cases hd : fsNormalizePath destination with
    | none =>
      dsimp only
      split <;> rfl
    | some d =>
      dsimp only
      by_cases hsnil : s = []
      · rw [if_pos hsnil, hsnil, not_const_nil h]
      rw [if_neg hsnil, FileMap.copy, contents_const s]
      cases hfind : fsFindNodeNormalizedConst st s with
      | none =>
        dsimp only [Option.map_none]
        split <;> rfl
      | some node =>
        dsimp only [Option.map_some]
        have habsent : contents st.used d ≠ none ↔
            (fsFindNodeNormalizedConst st d).isSome = true := by
          rw [contents_const, Ne, Option.map_eq_none_iff, ← Ne, Option.isSome_iff_ne_none]
        rw [show node.content.1 = node.type from rfl]
        simp only [habsent]
        by_cases hdnil : d = []
        · rw [if_pos hdnil, hdnil, not_const_nil h]
          split
          · rfl
          · simp [fsWriteFile, fsNormalizePath]
        · rw [if_neg hdnil]
          have hnormal := fsNormalizePath_normal hd hdnil
          by_cases hdir : node.type = fsTypeDir
          · rw [if_pos (Or.inl hdir), if_pos hdir]
          · rw [if_neg hdir]
            by_cases hpresent : (fsFindNodeNormalizedConst st d).isSome = true
            · rw [if_pos (Or.inr hpresent), if_pos hpresent]
            · rw [if_neg (not_or.mpr ⟨hdir, hpresent⟩), if_neg hpresent]
              exact fsWriteFile_refines h hnormal (fsNormalizePath_of_normal hnormal) _ _

/-- Below an absent destination nothing can collide, so the first loop of `fs_move` only
decides whether the new names fit. -/
theorem fsMoveAllowed_iff (h : FsTree st.used) {source destination : Bytes}
    (hd : destination ≠ []) (habsent : destination ∉ st.used.map FsNode.name) :
    fsMoveAllowed st source destination = true ↔
      ∀ node ∈ st.used, InSubtree slash source node.name →
        destination.length + (node.name.drop source.length).length < fsPathMax := by
  refine ⟨fsMoveAllowed_fits, fun hfits => ?_⟩
  rw [fsMoveAllowed, List.all_eq_true]
  intro i hi
  have hi' : i < st.used.length := by simpa using hi
  rw [nodeAt_used hi']
  split
  · rename_i hmoved
    have hin := fsMoved_iff.mp hmoved
    have hfit := hfits _ (List.getElem_mem hi') hin
    rw [Bool.and_eq_true]
    constructor
    · simp only [Bool.not_eq_true', decide_eq_false_iff_not]
      omega
    · rw [List.all_eq_true]
      intro j hj
      have hj' : j < st.used.length := by simpa using hj
      have hne : st.used[j].name ≠ fsMoveName source destination st.used[i].name := by
        intro he
        apply h.not_inSubtree hd habsent _ (List.getElem_mem hj')
        rw [he]
        exact hin.rebase destination
      rw [nodeAt_used hj']
      simp [hne]
  · rfl

theorem fsMove_refines (h : FsTree st.used) (source destination : Bytes) :
    (contents st.used).call (.move source destination) =
      ((fsMove st source destination).1, contents (fsMove st source destination).2.used) := by
  simp only [fsMove, FileMap.call, FileMap.onPath]
  cases hs : fsNormalizePath source with
  | none => rfl
  | some s =>
    cases hd : fsNormalizePath destination with
    | none =>
      dsimp only
      split <;> rfl
    | some d =>
      dsimp only
      by_cases hsnil : s = []
      · rw [if_pos hsnil, if_pos (Or.inl hsnil)]
      by_cases hdnil : d = []
      · rw [if_neg hsnil, if_pos hdnil, if_pos (Or.inr hdnil)]
      rw [if_neg hsnil, if_neg hdnil, if_neg (not_or.mpr ⟨hsnil, hdnil⟩), FileMap.move]
      have hnormal := fsNormalizePath_normal hd hdnil
      cases hfind : fsFindNodeNormalized st s with
      | none =>
        rw [if_neg]
        exact fun hm => hm.1 (contents_of_not_find hfind)
      | some slot =>
        obtain ⟨hslot, hname, hnode⟩ := fsFindNodeNormalized_some hfind
        dsimp only
        have hpresent : contents st.used s ≠ none := by
          rw [contents_of_find h hfind]
          simp
        have hconst : (fsFindNodeNormalizedConst st d).isSome = true ↔
            contents st.used d ≠ none := by
          rw [contents_const, Ne, Option.map_eq_none_iff, ← Ne, Option.isSome_iff_ne_none]
        by_cases hbad : (fsFindNodeNormalizedConst st d).isSome = true ∨
            fsParentExists st d = false
        · rw [if_pos hbad, if_neg]
          intro hm
          rcases hbad with hc | hp
          · exact hconst.mp hc hm.2.1
          · rw [(fsParentExists_iff h hnormal).mpr hm.2.2.1] at hp
            cases hp
        rw [if_neg hbad]
        obtain ⟨hc, hp⟩ := not_or.mp hbad
        have hnone : contents st.used d = none := by
          by_contra hne
          exact hc (hconst.mpr hne)
        have hreach : (contents st.used).Reachable d :=
          (fsParentExists_iff h hnormal).mp (by simpa using hp)
        by_cases hself : (st.nodeAt slot).type = fsTypeDir ∧ belowTest slash s d = true
        · rw [if_pos hself, if_neg]
          exact fun hm => hm.2.2.2.1 ((belowTest_iff _ _ _).mp hself.2)
        rw [if_neg hself]
        have houtside : ¬ Below slash s d := by
          intro hb
          obtain ⟨node, hn, hk, hdir⟩ := (contents_isDir h).mp (hreach s hsnil hb)
          have hsame : st.used[slot] = node :=
            h.key_inj (List.getElem_mem hslot) hn (hname.trans hk.symm)
          exact hself ⟨by rw [hnode, hsame]; exact hdir, (belowTest_iff _ _ _).mpr hb⟩
        have hfits : fsMoveAllowed st s d = true ↔ ∀ p, contents st.used p ≠ none →
            InSubtree slash s p → d.length + (p.drop s.length).length < fsPathMax := by
          rw [fsMoveAllowed_iff h hdnil (contents_eq_none.mp hnone)]
          constructor
          · intro hall p hne hin
            obtain ⟨node, hn, rfl⟩ := contents_ne_none.mp hne
            exact hall node hn hin
          · intro hall node hn hin
            exact hall node.name (contents_ne_none.mpr ⟨node, hn, rfl⟩) hin
        by_cases hall : fsMoveAllowed st s d = true
        · rw [if_pos ⟨hpresent, hnone, hreach, houtside, hfits.mp hall⟩, if_neg (by simp [hall])]
          have hrename := contents_rename h (List.mem_map.mpr ⟨_, List.getElem_mem hslot, hname⟩)
            hnormal (contents_eq_none.mp hnone) ((contents_reachable h).mp hreach) houtside
          rw [SlotTable.used_mapUsed, ← hrename]
          rfl
        · rw [if_neg fun hm => hall (hfits.mpr hm.2.2.2.2), if_pos (by simpa using hall)]

private theorem onPath_refines {path : Bytes} {f : Bytes → Bool × FileMap}
    {r : Bool × FsState} (hnone : fsNormalizePath path = none → r = (false, st))
    (hnil : fsNormalizePath path = some [] → r = (false, st))
    (hsome : ∀ p, NormalName p → fsNormalizePath path = some p →
      f p = (r.1, contents r.2.used)) :
    (contents st.used).onPath path f = (r.1, contents r.2.used) := by
  rw [FileMap.onPath]
  cases hnorm : fsNormalizePath path with
  | none => rw [hnone hnorm]
  | some p =>
    dsimp only
    by_cases hp : p = []
    · rw [if_pos hp, hnil (hp ▸ hnorm)]
    · rw [if_neg hp]
      exact hsome p (fsNormalizePath_normal hnorm hp) hnorm

/-- Every call returns what the call on the map returns and leaves the updated map. -/
theorem fsCall_refines (h : FsTree st.used) (op : FsOp) :
    (contents st.used).call op = ((fsCall st op).1, contents (fsStep st op).used) := by
  cases op with
  | copy source destination => exact fsCopy_refines h source destination
  | move source destination => exact fsMove_refines h source destination
  | mkdir path =>
    exact onPath_refines (fun hn => by simp [fsCall, fsMkdir, hn])
      (fun hn => by simp [fsCall, fsMkdir, hn])
      fun p hp hnorm => fsMkdir_refines h hp hnorm
  | writeFile path data type =>
    exact onPath_refines (fun hn => by simp [fsCall, fsWriteFile, hn])
      (fun hn => by simp [fsCall, fsWriteFile, hn])
      fun p hp hnorm => fsWriteFile_refines h hp hnorm data type
  | appendFile path data =>
    exact onPath_refines (fun hn => by simp [fsCall, fsAppendFile, hn])
      (fun hn => by simp [fsCall, fsAppendFile, hn])
      fun p hp hnorm => fsAppendFile_refines h hp hnorm data
  | remove path =>
    exact onPath_refines (fun hn => by simp [fsCall, fsRemove, hn])
      (fun hn => by simp [fsCall, fsRemove, hn])
      fun p hp hnorm => fsRemove_refines h hp hnorm

theorem contents_run (h : FsTree st.used) (ops : List FsOp) :
    contents (run fsStep st ops).used = run FileMap.step (contents st.used) ops := by
  induction ops generalizing st with
  | nil => rfl
  | cons op ops ih =>
    rw [run_cons, run_cons, ih (fsStep_tree st op h), FileMap.step, fsCall_refines h op]

/-- The table and the map that start as `fs_use_builtin` leaves them stay related. -/
theorem contents_reachable_run (st : FsState) (ops : List FsOp) :
    contents (run fsStep (fsUseBuiltin st) ops).used =
      run FileMap.step FileMap.builtin ops := by
  have hnil : SlotTable.used { st with count := 0, count_le := Nat.zero_le _ } = [] :=
    List.take_zero
  have hempty : FsTree (SlotTable.used { st with count := 0, count_le := Nat.zero_le _ }) := by
    rw [hnil]
    exact ⟨TreeTable.nil, by simp, by simp⟩
  have hbuiltin : contents (fsUseBuiltin st).used = FileMap.builtin := by
    rw [fsUseBuiltin, contents_run hempty, hnil]
    rfl
  rw [contents_run (fsUseBuiltin_tree st), hbuiltin]

end Refinement

section Views

/-- Every used slot carries the view `fs_sync_entry` builds for it. -/
def Coherent (nodes : List FsNode) : Prop :=
  ∀ slot (hs : slot < nodes.length), Synced slot nodes[slot]

/-- The call removes no slot but the last. -/
def RemovesLast (st : FsState) (op : FsOp) : Prop :=
  ∀ slot, fsDrops st op slot → slot + 1 = st.count

theorem FsEffect.coherent {drops : Nat → Prop} {nodes nodes' : List FsNode}
    (he : FsEffect drops nodes nodes') (hlast : ∀ slot, drops slot → slot + 1 = nodes.length)
    (h : Coherent nodes) : Coherent nodes' := by
  intro i hi
  cases he with
  | same => exact h i hi
  | push node normal absent rooted size synced =>
    by_cases hlt : i < nodes.length
    · rw [List.getElem_append_left hlt]
      exact h i hlt
    · have heq : i = nodes.length := by
        rw [List.length_append, List.length_singleton] at hi
        omega
      subst heq
      simpa using synced
  | store slot hslot f name file size synced =>
    rw [List.getElem_modify]
    split
    · subst i
      exact synced
    · exact h i (by simpa using hi)
  | remove slot hslot dropped leaf =>
    have hend := hlast slot dropped
    have hlt : i < slot := by
      rw [List.length_eraseIdx_of_lt hslot] at hi
      omega
    rw [List.getElem_eraseIdx_of_lt hi hlt]
    exact h i (hlt.trans hslot)
  | rename source destination present normal absent rooted outside fits =>
    rw [List.getElem_mapIdx, fsMoveNode]
    split
    · exact fsSyncEntry_synced _ _
    · exact h i (by simpa using hi)

theorem fsStep_coherent (st : FsState) (op : FsOp) (h : FsTree st.used ∧ Coherent st.used)
    (hguard : RemovesLast st op) : FsTree (fsStep st op).used ∧ Coherent (fsStep st op).used := by
  have he := fsStep_effect h.1 op
  refine ⟨he.tree h.1, he.coherent ?_ h.2⟩
  rw [SlotTable.length_used]
  exact hguard

theorem fsUseBuiltin_coherent (st : FsState) : Coherent (fsUseBuiltin st).used := by
  have hnil : SlotTable.used { st with count := 0, count_le := Nat.zero_le _ } = [] :=
    List.take_zero
  have hempty : FsTree (SlotTable.used { st with count := 0, count_le := Nat.zero_le _ }) ∧
      Coherent (SlotTable.used { st with count := 0, count_le := Nat.zero_le _ }) := by
    rw [hnil]
    exact ⟨⟨TreeTable.nil, by simp, by simp⟩, fun i hi => absurd hi (by simp)⟩
  have hguard : Guarded fsStep RemovesLast { st with count := 0, count_le := Nat.zero_le _ }
      builtinOps := by
    simp [builtinOps, Guarded, RemovesLast, fsDrops]
  exact (run_invariant_of_guarded (I := fun st : FsState => FsTree st.used ∧ Coherent st.used)
    fsStep_coherent hempty builtinOps hguard).2

/-- The view of a path that the map assigns a content. -/
def viewOf (p : Bytes) (content : UInt32 × Bytes) : EntryRead :=
  ⟨p, content.2, content.2.length, content.1⟩

/-- What a caller reads through the views handed out is what the map holds. -/
structure ViewsShow (st : FsState) (m : FileMap) : Prop where
  find : ∀ path, (fsFind st path).map (readEntry st) =
    ((fsNormalizePath path).bind fun p => (m p).map (viewOf p)).map some
  get : ∀ index slot, fsGet st index = some slot →
    ∃ p content, m p = some content ∧ readEntry st slot = some (viewOf p content)
  list : ∀ directory maxResults slot, slot ∈ fsList st directory maxResults →
    ∃ d p content, fsNormalizePath directory = some d ∧ fsIsDirectChild d p = true ∧
      m p = some content ∧ readEntry st slot = some (viewOf p content)

variable {st : FsState}

theorem readEntry_of_coherent (h : FsTree st.used) (hc : Coherent st.used) {slot : Nat}
    (hs : slot < st.used.length) :
    readEntry st slot = some (viewOf st.used[slot].name st.used[slot].content) := by
  have hlen : st.used[slot].content.2.length = st.used[slot].size :=
    Buffer.length_read _ (by simpa using h.size_le _ (List.getElem_mem hs))
  have hentry : (st.nodeAt slot).entry =
      ⟨some slot, some slot, st.used[slot].size, st.used[slot].type⟩ := by
    rw [nodeAt_used hs]
    exact congrArg FsNode.entry (hc slot hs)
  rw [readEntry, hentry, viewOf, hlen]
  simp only [nodeAt_used hs]
  rfl

/-- `fs_list` hands out views of used slots that hold direct children. -/
theorem mem_fsList {directory : Bytes} {maxResults slot : Nat}
    (hmem : slot ∈ fsList st directory maxResults) : ∃ d, slot < st.used.length ∧
      fsNormalizePath directory = some d ∧ fsIsDirectChild d (st.nodeAt slot).name = true := by
  rw [fsList] at hmem
  cases hnorm : fsNormalizePath directory with
  | none => simp [hnorm] at hmem
  | some d =>
    have hchild : slot ∈ (List.range st.count).filter fun i =>
        fsIsDirectChild d (st.nodeAt i).name := by
      simp only [hnorm] at hmem
      split at hmem
      · exact List.mem_of_mem_take hmem
      · split at hmem
        · cases hmem
        · split at hmem
          · cases hmem
          · exact List.mem_of_mem_take hmem
    obtain ⟨hrange, hdirect⟩ := List.mem_filter.mp hchild
    exact ⟨d, by simpa using hrange, rfl, hdirect⟩

/-- A tree with coherent views shows its contents. -/
theorem viewsShow_contents (h : FsTree st.used) (hc : Coherent st.used) :
    ViewsShow st (contents st.used) := by
  refine ⟨fun path => ?_, fun index slot hget => ?_, fun directory maxResults slot hmem => ?_⟩
  · rw [fsFind]
    cases fsNormalizePath path with
    | none => rfl
    | some p =>
      dsimp only [Option.bind_some]
      cases hfind : fsFindNodeNormalized st p with
      | none =>
        rw [contents_of_not_find hfind]
        rfl
      | some slot =>
        obtain ⟨hs, rfl, -⟩ := fsFindNodeNormalized_some hfind
        rw [contents_getElem h hs, Option.map_some, readEntry_of_coherent h hc hs]
        rfl
  · rw [fsGet] at hget
    split at hget
    · cases hget
    · rename_i hlt
      obtain rfl : index = slot := Option.some.inj hget
      have hs : index < st.used.length := by
        rw [SlotTable.length_used]
        exact not_le.mp hlt
      exact ⟨_, _, contents_getElem h hs, readEntry_of_coherent h hc hs⟩
  · obtain ⟨d, hs, hnorm, hdirect⟩ := mem_fsList hmem
    rw [nodeAt_used hs] at hdirect
    exact ⟨d, _, _, hnorm, hdirect, contents_getElem h hs, readEntry_of_coherent h hc hs⟩

/-- In runs that remove only last slots, every view handed out shows the map. -/
theorem viewsShow_of_removes_last (st : FsState) (ops : List FsOp)
    (hguard : Guarded fsStep RemovesLast (fsUseBuiltin st) ops) :
    ViewsShow (run fsStep (fsUseBuiltin st) ops) (run FileMap.step FileMap.builtin ops) := by
  have hinv := run_invariant_of_guarded
    (I := fun st : FsState => FsTree st.used ∧ Coherent st.used) fsStep_coherent
    ⟨fsUseBuiltin_tree st, fsUseBuiltin_coherent st⟩ ops hguard
  rw [← contents_reachable_run st ops]
  exact viewsShow_contents hinv.1 hinv.2

/-- The table before anything was stored. -/
def zeroTable : FsState :=
  ⟨List.replicate maxFsEntries FsNode.zero, 0, List.length_replicate, Nat.zero_le _⟩

/-- A run that adds a file and removes it again. -/
theorem viewsShow_of_removes_last_write_remove : ViewsShow
    (run fsStep (fsUseBuiltin zeroTable)
      [.writeFile (ascii "/home/a") (ascii "x") fsTypeText, .remove (ascii "/home/a")])
    (run FileMap.step FileMap.builtin
      [.writeFile (ascii "/home/a") (ascii "x") fsTypeText, .remove (ascii "/home/a")]) := by
  apply viewsShow_of_removes_last
  refine ⟨fun slot hd => hd.elim, fun slot hd => ?_, trivial⟩
  obtain ⟨p, hp, hfind, -⟩ := hd
  have hpath : fsNormalizePath (ascii "/home/a") = some (ascii "home/a") := by decide
  rw [hpath, Option.some.injEq] at hp
  subst hp
  have hslot : fsFindNodeNormalized
      (fsStep (fsUseBuiltin zeroTable) (.writeFile (ascii "/home/a") (ascii "x") fsTypeText))
      (ascii "home/a") = some 5 := by decide +kernel
  have hcount : (fsStep (fsUseBuiltin zeroTable)
      (.writeFile (ascii "/home/a") (ascii "x") fsTypeText)).count = 6 := by decide +kernel
  rw [hslot, Option.some.injEq] at hfind
  rw [hcount, ← hfind]

/-- After `/README.TXT` is removed, the view of `/docs/MOTD.TXT` shows another file. -/
theorem not_viewsShow_remove : ¬ ∀ (st : FsState) (ops : List FsOp),
    ViewsShow (run fsStep (fsUseBuiltin st) ops) (run FileMap.step FileMap.builtin ops) := by
  intro h
  have hfind := (h zeroTable [.remove (ascii "/README.TXT")]).find (ascii "/docs/MOTD.TXT")
  rw [← contents_reachable_run zeroTable] at hfind
  revert hfind
  decide +kernel

end Views

end SnsxOS.X86
