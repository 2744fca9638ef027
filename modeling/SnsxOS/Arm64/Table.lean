import SnsxOS.Arm64.FileSystem

/-!
# The ARM64 file system as a table of nodes

The operations on a list of paths, types and contents, without the memory the entries lie in.
As long as every path fits its field the operations of the source do exactly this, and a move
whose new paths fit keeps it so.
-/

namespace SnsxOS.Arm64

open Framework

abbrev Table := List (FileNode ArmFsType)

def IsDir (node : FileNode ArmFsType) : Prop := node.type = .dir

instance : DecidablePred IsDir := fun node => inferInstanceAs (Decidable (node.type = .dir))

/-- The parent of the path is the root or a directory of the table. -/
def parentOk (table : Table) (path : Bytes) : Bool :=
  let parent := parentDirectory (strcopyLimit path fsPathMax)
  if parent = [] ∨ parent = [slash] then true
  else match lookup FileNode.path table parent with
    | none => false
    | some node => node.type == .dir

/-- The table has room for one more path, and the path fits. -/
def canPush (table : Table) (path : Bytes) : Bool :=
  parentOk table path && decide (table.length < fsMaxEntries ∧ path.length + 1 ≤ fsPathMax)

def tableWrite (table : Table) (path data : Bytes) (type : ArmFsType) : Bool × Table :=
  if path.head? ≠ some slash ∨ fsMaxFileSize < data.length ∨ type = .dir then (false, table)
  else match slotOf FileNode.path table path with
    | some slot =>
        if (table[slot]?.map FileNode.type) = some .dir then (false, table)
        else (true, table.modify slot fun node => ⟨node.path, type, data⟩)
    | none =>
        if canPush table path then (true, table ++ [⟨path, type, data⟩]) else (false, table)

def tableMkdir (table : Table) (path : Bytes) : Bool × Table :=
  if path.head? ≠ some slash ∨ path = [slash] then (false, table)
  else match lookup FileNode.path table path with
    | some node => (node.type == .dir, table)
    | none =>
        if canPush table path then (true, table ++ [⟨path, .dir, []⟩]) else (false, table)

def tableHasChildren (table : Table) (path : Bytes) : Bool :=
  if path = [slash] then decide (0 < table.length)
  else table.any fun node => belowTest slash path node.path

def tableRemove (table : Table) (path : Bytes) : Bool × Table :=
  if path.head? ≠ some slash ∨ path = [slash] then (false, table)
  else match slotOf FileNode.path table path with
    | none => (false, table)
    | some slot =>
        if (table[slot]?.map FileNode.type) = some .dir ∧ tableHasChildren table path = true then
          (false, table)
        else (true, table.eraseIdx slot)

def tableCopy (table : Table) (source destination : Bytes) : Bool × Table :=
  match lookup FileNode.path table source with
  | none => (false, table)
  | some src =>
      if src.type = .dir ∨ (lookup FileNode.path table destination).isSome then (false, table)
      else tableWrite table destination src.bytes src.type

def moveNode (source destination : Bytes) (node : FileNode ArmFsType) : FileNode ArmFsType :=
  if InSubtree slash source node.path then
    { node with path := rebase source destination node.path }
  else node

def tableMove (table : Table) (source destination : Bytes) : Bool × Table :=
  match lookup FileNode.path table source with
  | none => (false, table)
  | some src =>
      if (lookup FileNode.path table destination).isSome ∨ parentOk table destination = false then
        (false, table)
      else if src.type = .dir ∧ belowTest slash source destination = true then (false, table)
      else (true, table.map (moveNode source destination))

/-- `fs_copy` finds a file and a free destination that can be pushed. -/
def copyAccepted (table : Table) (source destination : Bytes) : Bool :=
  match lookup FileNode.path table source with
  | none => false
  | some src => src.type != .dir && (lookup FileNode.path table destination).isNone &&
      canPush table destination

/-- `fs_move` finds its source, a free destination below a directory, and no directory is moved
into itself. -/
def moveAccepted (table : Table) (source destination : Bytes) : Bool :=
  match lookup FileNode.path table source with
  | none => false
  | some src =>
      (lookup FileNode.path table destination).isNone && parentOk table destination &&
        !(src.type == .dir && belowTest slash source destination)

def tableAppendLine (table : Table) (path text : Bytes) : Bool × Table :=
  match lookup FileNode.path table path with
  | some node =>
      if node.type = .dir then (false, table)
      else match endLine node.bytes with
        | none => (false, table)
        | some content =>
            if fsMaxFileSize < content.length + text.length + 1 then (false, table)
            else tableWrite table path (content ++ text ++ [newline]) .text
  | none =>
      if !parentOk table path then (false, table)
      else if fsMaxFileSize < text.length + 1 then (false, table)
      else tableWrite table path (text ++ [newline]) .text

def tableCall (table : Table) : FsOp → Bool × Table
  | .mkdir path => tableMkdir table path
  | .write path data type => tableWrite table path data type
  | .appendLine path text => tableAppendLine table path text
  | .remove path => tableRemove table path
  | .copy source destination => tableCopy table source destination
  | .move source destination => tableMove table source destination

def tableStep (table : Table) (op : FsOp) : Table := (tableCall table op).2

/-- Path and data of the entry stay in their fields. -/
structure EntryOk (entry : ArmFsEntry) : Prop where
  path_lt : entry.path.length < fsPathMax
  size_le : entry.size ≤ fsMaxFileSize

def EntriesOk (fs : ArmFs) : Prop := ∀ entry ∈ fs.entries, EntryOk entry

/-- The arguments of a call are C strings, and the new paths of a move fit. -/
def OpFits (table : Table) : FsOp → Prop
  | .mkdir path => NulFree path
  | .write path _ _ => NulFree path
  | .appendLine path _ => NulFree path
  | .remove _ => True
  | .copy _ destination => NulFree destination
  | .move source destination => NulFree destination ∧
      (moveAccepted table source destination = true →
        ∀ node ∈ table, InSubtree slash source node.path →
          destination.length + (node.path.drop source.length).length < fsPathMax)

instance (table : Table) : DecidablePred (OpFits table)
  | .mkdir path => inferInstanceAs (Decidable (NulFree path))
  | .write path _ _ => inferInstanceAs (Decidable (NulFree path))
  | .appendLine path _ => inferInstanceAs (Decidable (NulFree path))
  | .remove _ => inferInstanceAs (Decidable True)
  | .copy _ destination => inferInstanceAs (Decidable (NulFree destination))
  | .move source destination => inferInstanceAs (Decidable (NulFree destination ∧
      (moveAccepted table source destination = true →
        ∀ node ∈ table, InSubtree slash source node.path →
          destination.length + (node.path.drop source.length).length < fsPathMax)))

section Entries

variable {entry : ArmFsEntry} {path data : Bytes}

theorem fresh_path (hpath : NulFree path) (hfit : path.length + 1 ≤ fsPathMax)
    (type : ArmFsType) : (ArmFsEntry.fresh path type).path = path := by
  rw [ArmFsEntry.path, ArmFsEntry.fresh, strcopyLimit_of_lt (by omega)]
  exact Buffer.str_strcpy _ hpath (by omega)

theorem fresh_ok (hpath : NulFree path) (hfit : path.length + 1 ≤ fsPathMax)
    (type : ArmFsType) : EntryOk (ArmFsEntry.fresh path type) :=
  ⟨by rw [fresh_path hpath hfit]; exact hfit, Nat.zero_le _⟩

theorem setData_path (h : EntryOk entry) (hdata : data.length ≤ fsMaxFileSize) :
    (entry.setData data).path = entry.path :=
  Buffer.str_write_of_lt _ _ h.path_lt (by omega)

theorem setData_ok (h : EntryOk entry) (hdata : data.length ≤ fsMaxFileSize) :
    EntryOk (entry.setData data) :=
  ⟨by rw [setData_path h hdata]; exact h.path_lt, hdata⟩

theorem setData_bytes (entry : ArmFsEntry) (hdata : data.length ≤ fsMaxFileSize) :
    (entry.setData data).bytes = data :=
  Buffer.read_write_self _ (by omega)

theorem clearData_ok (h : EntryOk entry) : EntryOk entry.clearData ∧
    entry.clearData.path = entry.path := by
  have hpath : entry.clearData.path = entry.path :=
    Buffer.str_write_of_lt _ _ h.path_lt (by rw [List.length_replicate])
  exact ⟨⟨by rw [hpath]; exact h.path_lt, h.size_le⟩, hpath⟩

theorem setPath_path (entry : ArmFsEntry) (hpath : NulFree path) (hfit : path.length < fsPathMax) :
    (entry.setPath path).path = path :=
  Buffer.str_strcpy _ hpath (by omega)

/-- A path written within its field leaves the data alone. -/
theorem setPath_bytes (entry : ArmFsEntry) (hfit : path.length < fsPathMax) :
    (entry.setPath path).bytes = entry.bytes := by
  apply Buffer.read_write_of_le
  · rw [List.length_append, List.length_singleton]
    omega
  · omega

theorem path_nulFree (entry : ArmFsEntry) : NulFree entry.path := Buffer.str_nulFree _

theorem moved_iff {source : Bytes} :
    (entry.path = source ∨ belowTest slash source entry.path = true) ↔
      InSubtree slash source entry.path := by
  rw [belowTest_iff]
  rfl

theorem appendPath_path (entry : ArmFsEntry) {suffix : Bytes} (hsuffix : NulFree suffix)
    (hfit : entry.path.length + suffix.length < fsPathMax) :
    (entry.appendPath suffix).path = entry.path ++ suffix :=
  Buffer.str_strcat _ hsuffix
    (show entry.path.length + suffix.length + 1 ≤ fsPathMax + fsMaxFileSize by omega)

theorem appendPath_bytes (entry : ArmFsEntry) {suffix : Bytes}
    (hfit : entry.path.length + suffix.length < fsPathMax) :
    (entry.appendPath suffix).bytes = entry.bytes := by
  apply Buffer.read_write_of_le
  · rw [List.length_append, List.length_singleton]
    exact hfit
  · omega

/-- A renamed entry whose new path fits keeps all but its path. -/
theorem fsRenameEntry_node {sourceLen : Nat} {destination : Bytes} (h : EntryOk entry)
    (hdest : NulFree destination)
    (hlen : destination.length + (entry.path.drop sourceLen).length < fsPathMax) :
    (fsRenameEntry sourceLen destination entry).node =
        { entry.node with path := destination ++ entry.path.drop sourceLen } ∧
      EntryOk (fsRenameEntry sourceLen destination entry) := by
  have hsuffix : strcopyLimit (entry.path.drop sourceLen) fsPathMax =
      entry.path.drop sourceLen := strcopyLimit_of_lt (by omega)
  have hfree : NulFree (entry.path.drop sourceLen) := (path_nulFree entry).drop _
  have hdestLt : destination.length < fsPathMax := by omega
  rw [fsRenameEntry, strcopyLimit_of_lt hdestLt, hsuffix]
  have hset := setPath_path entry hdest hdestLt
  have hbytes := setPath_bytes entry hdestLt
  generalize entry.path.drop sourceLen = suffix at *
  by_cases hempty : suffix = []
  · rw [if_pos hempty, hempty, List.append_nil]
    refine ⟨?_, by rw [hset]; exact hdestLt, h.size_le⟩
    simp only [ArmFsEntry.node, hset, hbytes]
    rfl
  · rw [if_neg hempty]
    have happend := appendPath_path (entry.setPath destination) hfree (by rw [hset]; exact hlen)
    have hkeep := appendPath_bytes (entry.setPath destination) (by rw [hset]; exact hlen)
    rw [hset] at happend
    rw [hbytes] at hkeep
    refine ⟨?_, by rw [happend, List.length_append]; exact hlen, h.size_le⟩
    simp only [ArmFsEntry.node, happend, hkeep]
    rfl

theorem fsMoveEntry_eq (source destination : Bytes) :
    fsMoveEntry source destination entry =
      if InSubtree slash source entry.path then fsRenameEntry source.length destination entry
      else entry := by
  simp only [fsMoveEntry, moved_iff]
  rfl

/-- A move whose new path fits replaces the leading source of the path and nothing else. -/
theorem fsMoveEntry_node {source destination : Bytes} (h : EntryOk entry)
    (hdest : NulFree destination)
    (hfit : InSubtree slash source entry.path →
      destination.length + (entry.path.drop source.length).length < fsPathMax) :
    (fsMoveEntry source destination entry).node = moveNode source destination entry.node ∧
      EntryOk (fsMoveEntry source destination entry) := by
  have hnode : entry.node.path = entry.path := rfl
  rw [fsMoveEntry_eq, moveNode, hnode]
  by_cases hin : InSubtree slash source entry.path
  · rw [if_pos hin, if_pos hin, rebase]
    exact fsRenameEntry_node h hdest (hfit hin)
  · rw [if_neg hin, if_neg hin]
    exact ⟨rfl, h⟩

end Entries

section Refinement

variable {fs : ArmFs}

@[simp] theorem persistMarkDirty_entries (fs : ArmFs) :
    fs.persistMarkDirty.entries = fs.entries := by
  rw [ArmFs.persistMarkDirty]
  split <;> rfl

@[simp] theorem persistMarkDirty_nodes (fs : ArmFs) :
    fs.persistMarkDirty.nodes = fs.nodes := by
  rw [ArmFs.nodes, persistMarkDirty_entries, ArmFs.nodes]

theorem fsFind_nodes (fs : ArmFs) (path : Bytes) :
    fsFind fs path = slotOf FileNode.path fs.nodes path :=
  (slotOf_map ArmFsEntry.node FileNode.path fs.entries path).symm

theorem fsEntry_nodes (fs : ArmFs) (path : Bytes) :
    lookup FileNode.path fs.nodes path = (fsEntry fs path).map ArmFsEntry.node :=
  lookup_map ArmFsEntry.node FileNode.path fs.entries path

theorem fsParentExists_nodes (fs : ArmFs) (path : Bytes) :
    fsParentExists fs path = parentOk fs.nodes path := by
  simp only [fsParentExists, parentOk, fsEntry_nodes]
  split
  · rfl
  · cases fsEntry fs (parentDirectory (strcopyLimit path fsPathMax)) <;> rfl

theorem fsHasChildren_nodes (fs : ArmFs) (path : Bytes) :
    fsHasChildren fs path = tableHasChildren fs.nodes path := by
  rw [fsHasChildren, tableHasChildren, ArmFs.nodes, List.length_map, List.any_map]
  rfl

theorem typeAt_nodes (fs : ArmFs) (slot : Nat) :
    fs.entries[slot]?.map ArmFsEntry.type = fs.nodes[slot]?.map FileNode.type := by
  rw [ArmFs.nodes, List.getElem?_map, Option.map_map]
  rfl

theorem nodes_nulFree (fs : ArmFs) : ∀ node ∈ fs.nodes, NulFree node.path := by
  intro node hnode
  obtain ⟨entry, -, rfl⟩ := List.mem_map.mp hnode
  exact path_nulFree entry

@[simp] theorem length_nodes (fs : ArmFs) : fs.nodes.length = fs.entries.length :=
  List.length_map _

/-- The outcome of a call is the outcome on the nodes, and all paths still fit. -/
structure Refines (result : Bool × ArmFs) (expected : Bool × Table) : Prop where
  answer : result.1 = expected.1
  nodes : result.2.nodes = expected.2
  ok : EntriesOk result.2

theorem Refines.failed (hok : EntriesOk fs) : Refines (false, fs) (false, fs.nodes) :=
  ⟨rfl, rfl, hok⟩

private theorem EntriesOk.push (hok : EntriesOk fs) {entry : ArmFsEntry} (he : EntryOk entry)
    (hroom : fs.entries.length < fsMaxEntries) : EntriesOk (fs.push entry hroom) := by
  intro m hm
  rcases List.mem_append.mp hm with hm | hm
  · exact hok m hm
  · rw [List.mem_singleton.mp hm]
    exact he

private theorem EntriesOk.modify (hok : EntriesOk fs) {slot : Nat}
    (hslot : slot < fs.entries.length) {f : ArmFsEntry → ArmFsEntry}
    (he : EntryOk (f fs.entries[slot])) : EntriesOk (fs.modify slot f) := by
  intro m hm
  rcases mem_modify hslot hm with rfl | hm
  · exact he
  · exact hok m hm

theorem nodes_modify {slot : Nat} (hslot : slot < fs.entries.length)
    {f : ArmFsEntry → ArmFsEntry} {g : FileNode ArmFsType → FileNode ArmFsType}
    (hfg : (f fs.entries[slot]).node = g fs.entries[slot].node) :
    (fs.modify slot f).nodes = fs.nodes.modify slot g := by
  apply List.ext_getElem
  · simp [ArmFs.nodes, ArmFs.modify]
  · intro i h1 h2
    simp only [ArmFs.nodes, ArmFs.modify, List.getElem_map, List.getElem_modify]
    split
    · subst i
      exact hfg
    · rfl

/-- Pushing a node and storing its data adds the node. -/
theorem push_setData {path data : Bytes} (hpath : NulFree path)
    (hfit : path.length + 1 ≤ fsPathMax) (hdata : data.length ≤ fsMaxFileSize)
    (type : ArmFsType) (hroom : fs.entries.length < fsMaxEntries) :
    let pushed := fs.push (ArmFsEntry.fresh path type) hroom
    let stored := pushed.modify (pushed.entries.length - 1) fun entry => entry.setData data
    stored.nodes = fs.nodes ++ [⟨path, type, data⟩] ∧ (EntriesOk fs → EntriesOk stored) := by
  intro pushed stored
  have hfresh := fresh_ok hpath hfit type
  have hlen : pushed.entries.length - 1 = fs.entries.length := by
    simp [pushed, ArmFs.push]
  have hslot : pushed.entries.length - 1 < pushed.entries.length := by
    rw [hlen]
    simp [pushed, ArmFs.push]
  have hlast : pushed.entries[pushed.entries.length - 1] = ArmFsEntry.fresh path type := by
    simp [pushed, ArmFs.push]
  have hnode : (ArmFsEntry.setData (ArmFsEntry.fresh path type) data).node =
      ⟨path, type, data⟩ := by
    rw [ArmFsEntry.node, setData_path hfresh hdata, setData_bytes _ hdata,
      fresh_path hpath hfit]
    rfl
  constructor
  · have hmodify := nodes_modify hslot (f := fun entry => entry.setData data)
      (g := fun _ => ⟨path, type, data⟩) (by rw [hlast]; exact hnode)
    rw [show stored.nodes = _ from hmodify, hlen]
    have hnodes : pushed.nodes = fs.nodes ++ [(ArmFsEntry.fresh path type).node] := by
      simp [pushed, ArmFs.nodes, ArmFs.push]
    rw [hnodes]
    apply List.ext_getElem
    · simp
    · intro i h1 h2
      rw [List.getElem_modify]
      split
      · subst i
        simp
      · rename_i hne
        have hlt : i < fs.nodes.length := by
          simp only [List.length_modify, List.length_append, List.length_singleton,
            length_nodes] at h1 ⊢
          omega
        rw [List.getElem_append_left hlt, List.getElem_append_left hlt]
  · intro hok
    apply EntriesOk.modify (hok.push hfresh hroom) hslot
    rw [hlast]
    exact setData_ok hfresh hdata

theorem fsPush_eq (fs : ArmFs) (path : Bytes) (type : ArmFsType) :
    fsPush fs path type =
      if h : fs.entries.length < fsMaxEntries ∧ path.length + 1 ≤ fsPathMax then
        some (fs.push (ArmFsEntry.fresh path type) h.1)
      else none := by
  rw [fsPush]
  by_cases hroom : fs.entries.length < fsMaxEntries
  · by_cases hfit : path.length + 1 ≤ fsPathMax
    · rw [dif_pos hroom, if_neg (not_lt.mpr hfit), dif_pos ⟨hroom, hfit⟩]
    · rw [dif_pos hroom, if_pos (not_le.mp hfit), dif_neg fun h => hfit h.2]
  · rw [dif_neg hroom, dif_neg fun h => hroom h.1]

theorem fsWrite_refines (hok : EntriesOk fs) {path : Bytes} (hpath : NulFree path)
    (data : Bytes) (type : ArmFsType) :
    Refines (fsWrite fs path data type) (tableWrite fs.nodes path data type) := by
  rw [fsWrite, tableWrite]
  by_cases hbad : path.head? ≠ some slash ∨ fsMaxFileSize < data.length ∨ type = .dir
  · rw [if_pos hbad, if_pos hbad]
    exact Refines.failed hok
  have hdata : data.length ≤ fsMaxFileSize := not_lt.mp fun h => hbad (Or.inr (Or.inl h))
  rw [if_neg hbad, if_neg hbad, ← fsFind_nodes]
  cases hfind : fsFind fs path with
  | some slot =>
    obtain ⟨hslot, -⟩ := slotOf_eq_some hfind
    dsimp only
    rw [typeAt_nodes]
    split
    · exact Refines.failed hok
    · have hentry := hok _ (List.getElem_mem hslot)
      obtain ⟨hclear, hpathClear⟩ := clearData_ok hentry
      have hstored := setData_ok hclear hdata
      refine ⟨rfl, ?_, ?_⟩
      · rw [persistMarkDirty_nodes]
        apply nodes_modify hslot
        simp only [ArmFsEntry.node, ArmFsEntry.path, ArmFsEntry.bytes]
        congr 1
        · exact (setData_path hclear hdata).trans hpathClear
        · exact setData_bytes _ hdata
      · rw [EntriesOk, persistMarkDirty_entries]
        exact EntriesOk.modify hok hslot ⟨hstored.path_lt, hstored.size_le⟩
  | none =>
    dsimp only
    rw [canPush, ← fsParentExists_nodes, length_nodes, fsPush_eq]
    by_cases hparent : fsParentExists fs path = true
    · by_cases hroom : fs.entries.length < fsMaxEntries ∧ path.length + 1 ≤ fsPathMax
      · obtain ⟨hnodes, hstored⟩ := push_setData hpath hroom.2 hdata type hroom.1
        rw [dif_pos hroom]
        simp only [hparent, hroom, Bool.not_true, Bool.false_eq_true, if_false, and_self,
          decide_true, Bool.and_true, if_true]
        refine ⟨rfl, ?_, ?_⟩
        · rw [persistMarkDirty_nodes]
          exact hnodes
        · rw [EntriesOk, persistMarkDirty_entries]
          exact hstored hok
      · simp only [hparent, hroom, Bool.not_true, Bool.false_eq_true, if_false, decide_false,
          Bool.and_false, dite_false]
        exact Refines.failed hok
    · simp only [hparent, Bool.not_false, if_true, Bool.false_and, Bool.false_eq_true,
        if_false]
      exact Refines.failed hok

theorem fsMkdir_refines (hok : EntriesOk fs) {path : Bytes} (hpath : NulFree path) :
    Refines (fsMkdir fs path) (tableMkdir fs.nodes path) := by
  rw [fsMkdir, tableMkdir]
  by_cases hbad : path.head? ≠ some slash ∨ path = [slash]
  · rw [if_pos hbad, if_pos hbad]
    exact Refines.failed hok
  rw [if_neg hbad, if_neg hbad, fsEntry_nodes]
  cases fsEntry fs path with
  | some entry => exact ⟨rfl, rfl, hok⟩
  | none =>
    dsimp only [Option.map_none]
    rw [canPush, ← fsParentExists_nodes, length_nodes, fsPush_eq]
    by_cases hparent : fsParentExists fs path = true
    · by_cases hroom : fs.entries.length < fsMaxEntries ∧ path.length + 1 ≤ fsPathMax
      · have hfresh := fresh_ok hpath hroom.2 ArmFsType.dir
        have hnode : (ArmFsEntry.fresh path .dir).node = ⟨path, .dir, []⟩ := by
          rw [ArmFsEntry.node, fresh_path hpath hroom.2, ArmFsEntry.bytes]
          simp [ArmFsEntry.fresh]
        rw [dif_pos hroom]
        simp only [hparent, hroom, Bool.not_true, Bool.false_eq_true, if_false, and_self,
          decide_true, Bool.and_true, if_true]
        refine ⟨rfl, ?_, ?_⟩
        · rw [persistMarkDirty_nodes]
          simp [ArmFs.nodes, ArmFs.push, hnode]
        · rw [EntriesOk, persistMarkDirty_entries]
          exact hok.push hfresh hroom.1
      · simp only [hparent, hroom, Bool.not_true, Bool.false_eq_true, if_false, decide_false,
          Bool.and_false, dite_false]
        exact Refines.failed hok
    · simp only [hparent, Bool.not_false, if_true, Bool.false_and, Bool.false_eq_true,
        if_false]
      exact Refines.failed hok

theorem fsRemove_refines (hok : EntriesOk fs) (path : Bytes) :
    Refines (fsRemove fs path) (tableRemove fs.nodes path) := by
  rw [fsRemove, tableRemove]
  by_cases hbad : path.head? ≠ some slash ∨ path = [slash]
  · rw [if_pos hbad, if_pos hbad]
    exact Refines.failed hok
  rw [if_neg hbad, if_neg hbad, ← fsFind_nodes]
  cases fsFind fs path with
  | none => exact Refines.failed hok
  | some slot =>
    dsimp only
    rw [typeAt_nodes, fsHasChildren_nodes]
    split
    · exact Refines.failed hok
    · refine ⟨rfl, ?_, ?_⟩
      · rw [persistMarkDirty_nodes]
        exact (List.eraseIdx_map _ _ _).symm
      · rw [EntriesOk, persistMarkDirty_entries]
        exact fun entry hm => hok entry (List.mem_of_mem_eraseIdx hm)

theorem fsCopy_refines (hok : EntriesOk fs) (source : Bytes) {destination : Bytes}
    (hdest : NulFree destination) :
    Refines (fsCopy fs source destination) (tableCopy fs.nodes source destination) := by
  rw [fsCopy, tableCopy, fsEntry_nodes, fsEntry_nodes]
  cases fsEntry fs source with
  | none => exact Refines.failed hok
  | some src =>
    dsimp only [Option.map_some]
    rw [Option.isSome_map]
    by_cases hbad : src.type = .dir ∨ (fsEntry fs destination).isSome = true
    · rw [if_pos hbad, if_pos (show src.node.type = .dir ∨ _ from hbad)]
      exact Refines.failed hok
    · rw [if_neg hbad, if_neg (show ¬ (src.node.type = .dir ∨ _) from hbad)]
      exact fsWrite_refines hok hdest src.bytes src.type

theorem moveAccepted_iff {table : Table} {source destination : Bytes} :
    moveAccepted table source destination = true ↔
      ∃ src, lookup FileNode.path table source = some src ∧
        ¬ ((lookup FileNode.path table destination).isSome ∨
          parentOk table destination = false) ∧
        ¬ (src.type = .dir ∧ belowTest slash source destination = true) := by
  rw [moveAccepted]
  cases lookup FileNode.path table source with
  | none => simp
  | some src =>
    cases lookup FileNode.path table destination <;>
      cases parentOk table destination <;>
        cases belowTest slash source destination <;> simp

theorem tableMove_eq (table : Table) (source destination : Bytes) :
    tableMove table source destination =
      if moveAccepted table source destination = true then
        (true, table.map (moveNode source destination))
      else (false, table) := by
  rw [tableMove]
  cases hsource : lookup FileNode.path table source with
  | none => rw [if_neg (by simp [moveAccepted_iff, hsource])]
  | some src =>
    dsimp only
    split
    · rename_i hbad
      rw [if_neg (by simp only [moveAccepted_iff, hsource]; grind)]
    · rename_i hfree
      split
      · rename_i hself
        rw [if_neg (by simp only [moveAccepted_iff, hsource]; grind)]
      · rename_i hself
        rw [if_pos (moveAccepted_iff.mpr ⟨src, hsource, hfree, hself⟩)]

theorem fsMove_refines (hok : EntriesOk fs) {source destination : Bytes}
    (hdest : NulFree destination)
    (hfits : moveAccepted fs.nodes source destination = true →
      ∀ node ∈ fs.nodes, InSubtree slash source node.path →
        destination.length + (node.path.drop source.length).length < fsPathMax) :
    Refines (fsMove fs source destination) (tableMove fs.nodes source destination) := by
  rw [moveAccepted_iff, fsEntry_nodes, fsEntry_nodes] at hfits
  rw [fsMove, tableMove, fsEntry_nodes, fsEntry_nodes, fsParentExists_nodes]
  cases hsource : fsEntry fs source with
  | none => exact Refines.failed hok
  | some src =>
    dsimp only [Option.map_some]
    rw [hsource] at hfits
    rw [Option.isSome_map, show src.node.type = src.type from rfl] at *
    split
    · exact Refines.failed hok
    · rename_i hfree
      split
      · exact Refines.failed hok
      · rename_i hself
        replace hfits := hfits ⟨src.node, rfl, hfree, hself⟩
        have hentry : ∀ entry ∈ fs.entries,
            (fsMoveEntry source destination entry).node =
              moveNode source destination entry.node ∧
            EntryOk (fsMoveEntry source destination entry) := fun entry hm =>
          fsMoveEntry_node (hok entry hm) hdest
            (hfits entry.node (List.mem_map_of_mem hm))
        refine ⟨rfl, ?_, ?_⟩
        · rw [persistMarkDirty_nodes, ArmFs.nodes, ArmFs.map, List.map_map, ArmFs.nodes,
            List.map_map]
          exact List.map_congr_left fun entry hm => (hentry entry hm).1
        · rw [EntriesOk, persistMarkDirty_entries]
          intro m hm
          obtain ⟨entry, he, rfl⟩ := List.mem_map.mp hm
          exact (hentry entry he).2

theorem fsAppendLine_refines (hok : EntriesOk fs) {path : Bytes} (hpath : NulFree path)
    (text : Bytes) :
    Refines (fsAppendLine fs path text) (tableAppendLine fs.nodes path text) := by
  rw [fsAppendLine, tableAppendLine, fsEntry_nodes]
  cases fsEntry fs path with
  | some entry =>
    dsimp only [Option.map_some]
    rw [show entry.node.type = entry.type from rfl, show entry.node.bytes = entry.bytes from rfl]
    split
    · exact Refines.failed hok
    · cases endLine entry.bytes with
      | none => exact Refines.failed hok
      | some content =>
        dsimp only
        split
        · exact Refines.failed hok
        · exact fsWrite_refines hok hpath _ _
  | none =>
    dsimp only [Option.map_none]
    rw [fsParentExists_nodes]
    split
    · exact Refines.failed hok
    · split
      · exact Refines.failed hok
      · exact fsWrite_refines hok hpath _ _

/-- Every call whose paths fit does to the nodes what the table operation does. -/
theorem fsCall_refines (hok : EntriesOk fs) {op : FsOp} (hop : OpFits fs.nodes op) :
    Refines (fsCall fs op) (tableCall fs.nodes op) := by
  cases op with
  | mkdir path => exact fsMkdir_refines hok hop
  | write path data type => exact fsWrite_refines hok hop data type
  | appendLine path text => exact fsAppendLine_refines hok hop text
  | remove path => exact fsRemove_refines hok path
  | copy source destination => exact fsCopy_refines hok source hop
  | move source destination => exact fsMove_refines hok hop.1 hop.2

/-- A run on the nodes follows the run of the source as long as the paths fit. -/
theorem run_refines (hok : EntriesOk fs) {ops : List FsOp}
    (hops : Guarded tableStep OpFits fs.nodes ops) :
    (run fsStep fs ops).nodes = run tableStep fs.nodes ops ∧ EntriesOk (run fsStep fs ops) := by
  induction ops generalizing fs with
  | nil => exact ⟨rfl, hok⟩
  | cons op ops ih =>
    obtain ⟨hop, hrest⟩ := hops
    have hcall := fsCall_refines hok hop
    have hnodes : (fsStep fs op).nodes = tableStep fs.nodes op := hcall.nodes
    rw [run_cons, run_cons, ← hnodes]
    rw [← hnodes] at hrest
    exact ih hcall.ok hrest

end Refinement

end SnsxOS.Arm64
