import SnsxOS.Arm64.Paths
import SnsxOS.Arm64.Table

/-!
# The tree invariant of the ARM64 table

Canonical paths that fit, distinct, each hanging from directories of the table. The operations do
not look at the form of their arguments, so each keeps the invariant under a condition on the
path it stores. That every path hangs from a directory needs less of it than that it is canonical.
-/

namespace SnsxOS.Arm64

open Framework

structure TableTree (table : Table) : Prop extends
    TreeTable slash FileNode.path IsDir table where
  canonical : ∀ node ∈ table, CanonicalPath node.path
  fits : ∀ node ∈ table, node.path.length < fsPathMax
  size_le : ∀ node ∈ table, node.bytes.length ≤ fsMaxFileSize

/-- Whatever the call stores under a new path, that path is canonical. -/
def OpCanonical (table : Table) : FsOp → Prop
  | .mkdir path => path ≠ [slash] → CanonicalPath path
  | .write path _ _ => canPush table path = true → CanonicalPath path
  | .appendLine path _ => canPush table path = true → CanonicalPath path
  | .remove _ => True
  | .copy source destination =>
      copyAccepted table source destination = true → CanonicalPath destination
  | .move source destination =>
      moveAccepted table source destination = true → CanonicalPath destination

/-- The call adds or renames an entry to the path. -/
def StoresAt (table : Table) (op : FsOp) (path : Bytes) : Prop :=
  match op with
  | .mkdir dir => path = dir ∧ path ≠ [slash]
  | .write file _ _ => path = file ∧ canPush table path = true
  | .appendLine file _ => path = file ∧ canPush table path = true
  | .remove _ => False
  | .copy source destination => path = destination ∧ copyAccepted table source path = true
  | .move source destination => path = destination ∧ moveAccepted table source path = true

/-- What one call can do to the table. -/
inductive TableEffect (table : Table) (op : FsOp) : Table → Prop
  | same : TableEffect table op table
  | push (node : FileNode ArmFsType) (stores : StoresAt table op node.path)
      (absent : node.path ∉ table.map FileNode.path) (room : canPush table node.path = true)
      (size : node.bytes.length ≤ fsMaxFileSize) : TableEffect table op (table ++ [node])
  | store (slot : Nat) (hslot : slot < table.length) (file : table[slot].type ≠ .dir)
      (type : ArmFsType) (data : Bytes) (size : data.length ≤ fsMaxFileSize) :
      TableEffect table op (table.modify slot fun node => ⟨node.path, type, data⟩)
  | remove (slot : Nat) (hslot : slot < table.length) (call : op = .remove table[slot].path)
      (leaf : table[slot].type = .dir → tableHasChildren table table[slot].path = false) :
      TableEffect table op (table.eraseIdx slot)
  | rename (source destination : Bytes) (call : op = .move source destination)
      (accepted : moveAccepted table source destination = true) :
      TableEffect table op (table.map (moveNode source destination))

section Effects

variable {table : Table}

theorem opCanonical_iff {op : FsOp} :
    OpCanonical table op ↔ ∀ path, StoresAt table op path → CanonicalPath path := by
  cases op <;> simp [OpCanonical, StoresAt]

theorem tableWrite_effect {path data : Bytes} {type : ArmFsType} {op : FsOp}
    (hstores : canPush table path = true → StoresAt table op path) :
    TableEffect table op (tableWrite table path data type).2 := by
  rw [tableWrite]
  split
  · exact .same
  rename_i hbad
  push Not at hbad
  obtain ⟨-, hdata, -⟩ := hbad
  cases hslot : slotOf FileNode.path table path with
  | some slot =>
    obtain ⟨hlt, -⟩ := slotOf_eq_some hslot
    dsimp only
    split
    · exact .same
    · rename_i hfile
      rw [List.getElem?_eq_getElem hlt, Option.map_some, Option.some.injEq] at hfile
      exact .store slot hlt hfile type data hdata
  | none =>
    dsimp only
    split
    · rename_i hpush
      exact .push ⟨path, type, data⟩ (hstores hpush) (slotOf_eq_none.mp hslot) hpush hdata
    · exact .same

theorem tableMkdir_effect (path : Bytes) :
    TableEffect table (.mkdir path) (tableMkdir table path).2 := by
  rw [tableMkdir]
  split
  · exact .same
  rename_i hbad
  push Not at hbad
  cases hlookup : lookup FileNode.path table path with
  | some node => exact .same
  | none =>
    dsimp only
    split
    · rename_i hpush
      exact .push ⟨path, .dir, []⟩ ⟨rfl, hbad.2⟩ (lookup_eq_none.mp hlookup) hpush (Nat.zero_le _)
    · exact .same

theorem tableRemove_effect (path : Bytes) :
    TableEffect table (.remove path) (tableRemove table path).2 := by
  rw [tableRemove]
  split
  · exact .same
  cases hslot : slotOf FileNode.path table path with
  | none => exact .same
  | some slot =>
    obtain ⟨hlt, rfl⟩ := slotOf_eq_some hslot
    dsimp only
    split
    · exact .same
    · rename_i hleaf
      rw [List.getElem?_eq_getElem hlt, Option.map_some, Option.some.injEq, not_and,
        Bool.not_eq_true] at hleaf
      exact .remove slot hlt rfl hleaf

theorem tableCopy_effect (source destination : Bytes) :
    TableEffect table (.copy source destination) (tableCopy table source destination).2 := by
  rw [tableCopy]
  cases hsource : lookup FileNode.path table source with
  | none => exact .same
  | some src =>
    dsimp only
    split
    · exact .same
    · rename_i hfree
      rw [not_or, Bool.not_eq_true, Option.isSome_eq_false_iff] at hfree
      apply tableWrite_effect
      intro hpush
      refine ⟨rfl, ?_⟩
      simp [copyAccepted, hsource, hfree.1, hfree.2, hpush]

theorem tableAppendLine_effect (path text : Bytes) :
    TableEffect table (.appendLine path text) (tableAppendLine table path text).2 := by
  have hwrite : ∀ data, TableEffect table (.appendLine path text)
      (tableWrite table path data .text).2 :=
    fun data => tableWrite_effect fun hpush => ⟨rfl, hpush⟩
  rw [tableAppendLine]
  split
  · split
    · exact .same
    · split
      · exact .same
      · split
        · exact .same
        · exact hwrite _
  · split
    · exact .same
    · split
      · exact .same
      · exact hwrite _

theorem tableMove_effect (source destination : Bytes) :
    TableEffect table (.move source destination) (tableMove table source destination).2 := by
  rw [tableMove_eq]
  split
  · rename_i haccepted
    exact .rename source destination rfl haccepted
  · exact .same

theorem tableStep_effect (table : Table) (op : FsOp) :
    TableEffect table op (tableStep table op) := by
  cases op with
  | mkdir path => exact tableMkdir_effect path
  | write path data type => exact tableWrite_effect fun hpush => ⟨rfl, hpush⟩
  | appendLine path text => exact tableAppendLine_effect path text
  | remove path => exact tableRemove_effect path
  | copy source destination => exact tableCopy_effect source destination
  | move source destination => exact tableMove_effect source destination

end Effects

section Move

@[simp] theorem moveNode_type (source destination : Bytes) (node : FileNode ArmFsType) :
    (moveNode source destination node).type = node.type := by
  rw [moveNode]
  split <;> rfl

@[simp] theorem moveNode_bytes (source destination : Bytes) (node : FileNode ArmFsType) :
    (moveNode source destination node).bytes = node.bytes := by
  rw [moveNode]
  split <;> rfl

theorem moveNode_path (source destination : Bytes) (node : FileNode ArmFsType) :
    (moveNode source destination node).path =
      if InSubtree slash source node.path then rebase source destination node.path
      else node.path := by
  rw [moveNode]
  split <;> rfl

end Move

/-- Absolute distinct paths, each hanging from directories of the table. -/
structure TableRooted (table : Table) : Prop extends
    TreeTable slash FileNode.path IsDir table where
  absolute : ∀ node ∈ table, node.path.head? = some slash

/-- An absolute path that is not two slashes before a name. -/
structure SinglePath (path : Bytes) : Prop where
  absolute : path.head? = some slash
  single : ∀ name, slash ∉ name → path ≠ slash :: slash :: name

theorem SinglePath.split {path : Bytes} (h : SinglePath path) :
    ∃ a b, path = a ++ slash :: b ∧ slash ∉ b ∧ a ≠ [slash] ∧
      (a = [] ∨ parentDirectory path = a) := by
  cases hlast : lastIndex? slash path with
  | none =>
    obtain ⟨rest, rfl⟩ := List.head?_eq_some_iff.mp h.absolute
    exact absurd (lastIndex?_eq_none.mp hlast) (by simp)
  | some i =>
    obtain ⟨a, b, rfl, -, hb⟩ := lastIndex?_eq_some hlast
    refine ⟨a, b, rfl, hb, ?_, ?_⟩
    · rintro rfl
      exact h.single b hb rfl
    · by_cases ha : a = []
      · exact Or.inl ha
      · right
        rw [parentDirectory_append hb, if_neg ha]
        intro hroot
        have hlen := congrArg List.length hroot
        have hpos := List.length_pos_of_ne_nil ha
        simp only [List.length_append, List.length_cons, List.length_nil] at hlen
        omega

theorem CanonicalPath.single {path : Bytes} (h : CanonicalPath path) : SinglePath path := by
  refine ⟨h.absolute, ?_⟩
  rintro name hname rfl
  obtain ⟨a, b, hsplit, hb, ha, -⟩ := h.split
  have hlast := lastIndex?_append hb (a := a)
  rw [← hsplit, show slash :: slash :: name = [slash] ++ slash :: name from rfl,
    lastIndex?_append hname, Option.some.injEq] at hlast
  obtain ⟨rfl, -⟩ := List.append_inj
    (show [slash] ++ slash :: name = a ++ slash :: b from hsplit) hlast
  rcases ha with ha | ha
  · cases ha
  · exact not_canonicalPath_root ha

section Steps

variable {table table' : Table} {op : FsOp}

theorem TableTree.nil : TableTree [] := by
  constructor
  · exact TreeTable.nil
  all_goals simp

theorem TableTree.tableRooted (h : TableTree table) : TableRooted table :=
  ⟨h.toTreeTable, fun node hnode => (h.canonical node hnode).absolute⟩

/-- Below an accepted parent a path hangs from the table. -/
theorem TableRooted.rooted_of_parentOk (h : TableRooted table) {path : Bytes}
    (hpath : SinglePath path) (hfit : path.length < fsPathMax)
    (hparent : parentOk table path = true) : Rooted slash FileNode.path IsDir table path := by
  obtain ⟨a, b, hsplit, hb, hne, ha⟩ := hpath.split
  rw [hsplit]
  apply Rooted.of_parent h.toTreeTable hb
  by_cases hnil : a = []
  · exact Or.inl hnil
  · right
    have hdir := ha.resolve_left hnil
    simp only [parentOk, strcopyLimit_of_lt hfit, hdir] at hparent
    rw [if_neg (by simp [hnil, hne])] at hparent
    cases hlookup : lookup FileNode.path table a with
    | none => simp [hlookup] at hparent
    | some d =>
      obtain ⟨hd, hk⟩ := mem_of_lookup hlookup
      simp only [hlookup, beq_iff_eq] at hparent
      exact ⟨d, hd, hk, hparent⟩

theorem TableRooted.ne_nil (h : TableRooted table) {node : FileNode ArmFsType}
    (hnode : node ∈ table) : node.path ≠ [] := by
  intro hnil
  have habs := h.absolute node hnode
  rw [hnil] at habs
  cases habs

/-- A directory without children has nothing below it. -/
theorem TableRooted.leaf (h : TableRooted table) {slot : Nat} (hslot : slot < table.length)
    (hleaf : table[slot].type = .dir → tableHasChildren table table[slot].path = false) :
    ∀ node ∈ table, ¬ Below slash table[slot].path node.path := by
  intro node hnode hbelow
  have hself : table[slot] ∈ table := List.getElem_mem hslot
  by_cases hdir : table[slot].type = .dir
  · have hnone := hleaf hdir
    rw [tableHasChildren] at hnone
    split at hnone
    · have hlen := of_decide_eq_false hnone
      omega
    · rw [List.any_eq_false] at hnone
      exact hnone node hnode ((belowTest_iff _ _ _).mpr hbelow)
  · exact h.toTreeTable.not_below hself hnode (h.ne_nil hself) hdir hbelow

/-- New data for a file leaves the directories as they are. -/
theorem dirs_store {slot : Nat} (hslot : slot < table.length) (hfile : table[slot].type ≠ .dir)
    (type : ArmFsType) (data : Bytes) : ∀ d ∈ table, IsDir d →
      ∃ d' ∈ table.modify slot fun node => ⟨node.path, type, data⟩, d'.path = d.path ∧ IsDir d' := by
  intro d hd hdir
  obtain ⟨i, hi, rfl⟩ := List.mem_iff_getElem.mp hd
  have hne : slot ≠ i := by
    intro he
    subst he
    exact hfile hdir
  refine ⟨table[i], ?_, rfl, hdir⟩
  apply List.mem_iff_getElem.mpr
  exact ⟨i, by simpa using hi, by simp [hne]⟩

theorem destination_absent {source destination : Bytes}
    (haccepted : moveAccepted table source destination = true) :
    destination ∉ table.map FileNode.path := by
  obtain ⟨src, -, hfree, -⟩ := moveAccepted_iff.mp haccepted
  rw [not_or, Bool.not_eq_true, Option.isSome_eq_false_iff, Option.isNone_iff_eq_none] at hfree
  exact lookup_eq_none.mp hfree.1

/-- An accepted move goes below present directories and out of its own subtree. -/
theorem TableRooted.move_rooted (h : TableRooted table) {source destination : Bytes}
    (haccepted : moveAccepted table source destination = true)
    (hdest : SinglePath destination) (hfit : destination.length < fsPathMax) :
    source ≠ [] ∧ ¬ Below slash source destination ∧
      Rooted slash FileNode.path IsDir table destination := by
  obtain ⟨src, hlookup, hfree, hself⟩ := moveAccepted_iff.mp haccepted
  obtain ⟨hsrc, hkey⟩ := mem_of_lookup hlookup
  rw [not_or, Bool.not_eq_false] at hfree
  have hsource : source ≠ [] := hkey ▸ h.ne_nil hsrc
  have hroot := h.rooted_of_parentOk hdest hfit hfree.2
  refine ⟨hsource, ?_, hroot⟩
  intro hbelow
  obtain ⟨d, hd, hk, hdir⟩ := hroot source hsource hbelow
  rw [h.toTreeTable.key_inj hd hsrc (hk.trans hkey.symm)] at hdir
  exact hself ⟨hdir, (belowTest_iff _ _ _).mpr hbelow⟩

/-- The destination of an accepted move fits, being the new path of the source. -/
theorem destination_fits {source destination : Bytes}
    (haccepted : moveAccepted table source destination = true)
    (hfits : OpFits table (.move source destination)) : destination.length < fsPathMax := by
  obtain ⟨src, hlookup, -⟩ := moveAccepted_iff.mp haccepted
  obtain ⟨hsrc, hkey⟩ := mem_of_lookup hlookup
  have hroot := hfits.2 haccepted src hsrc (Or.inl hkey)
  omega

theorem TableEffect.rooted (he : TableEffect table op table') (h : TableRooted table)
    (hfits : OpFits table op) (hpaths : ∀ path, StoresAt table op path →
      path ∉ table.map FileNode.path → SinglePath path) : TableRooted table' := by
  cases he with
  | same => exact h
  | push node stores absent room size =>
    have hpath := hpaths _ stores absent
    simp only [canPush, Bool.and_eq_true, decide_eq_true_eq] at room
    refine ⟨h.toTreeTable.push absent (h.rooted_of_parentOk hpath room.2.2 room.1), ?_⟩
    intro m hm
    rcases List.mem_append.mp hm with hm | hm
    · exact h.absolute m hm
    · rw [List.mem_singleton.mp hm]
      exact hpath.absolute
  | store slot hslot file type data size =>
    refine ⟨h.toTreeTable.of_same_keys (map_modify hslot rfl) (dirs_store hslot file type data), ?_⟩
    intro m hm
    rcases mem_modify hslot hm with rfl | hm
    · exact h.absolute table[slot] (List.getElem_mem hslot)
    · exact h.absolute m hm
  | remove slot hslot call leaf =>
    exact ⟨h.toTreeTable.eraseIdx hslot (h.leaf hslot leaf),
      fun m hm => h.absolute m (List.mem_of_mem_eraseIdx hm)⟩
  | rename source destination call accepted =>
    subst call
    have habsent := destination_absent accepted
    have hpath := hpaths destination ⟨rfl, accepted⟩ habsent
    obtain ⟨hsource, houter, hroot⟩ :=
      h.move_rooted accepted hpath (destination_fits accepted hfits)
    obtain ⟨rest, hdest⟩ := List.head?_eq_some_iff.mp hpath.absolute
    refine ⟨h.toTreeTable.rename hsource (by simp [hdest]) habsent houter hroot
      (fun n _ => moveNode_path source destination n)
      (fun n _ hdir => (moveNode_type source destination n).trans hdir), ?_⟩
    intro m hm
    obtain ⟨n, hn, rfl⟩ := List.mem_map.mp hm
    rw [moveNode_path]
    split
    · rw [rebase, hdest]
      rfl
    · exact h.absolute n hn

theorem TableEffect.tree (he : TableEffect table op table') (h : TableTree table)
    (hfits : OpFits table op) (hop : OpCanonical table op) : TableTree table' := by
  have hpaths := opCanonical_iff.mp hop
  have htree : TreeTable slash FileNode.path IsDir table' :=
    (he.rooted h.tableRooted hfits fun path hpath _ => (hpaths path hpath).single).toTreeTable
  cases he with
  | same => exact h
  | push node stores absent room size =>
    simp only [canPush, Bool.and_eq_true, decide_eq_true_eq] at room
    have hmem : ∀ m ∈ table ++ [node], m ∈ table ∨ m = node := by simp
    refine ⟨htree, fun m hm => ?_, fun m hm => ?_, fun m hm => ?_⟩
    · rcases hmem m hm with hm | rfl
      · exact h.canonical m hm
      · exact hpaths _ stores
    · rcases hmem m hm with hm | rfl
      · exact h.fits m hm
      · exact room.2.2
    · rcases hmem m hm with hm | rfl
      · exact h.size_le m hm
      · exact size
  | store slot hslot file type data size =>
    have hself : table[slot] ∈ table := List.getElem_mem hslot
    refine ⟨htree, fun m hm => ?_, fun m hm => ?_, fun m hm => ?_⟩
    · rcases mem_modify hslot hm with rfl | hm
      · exact h.canonical table[slot] hself
      · exact h.canonical m hm
    · rcases mem_modify hslot hm with rfl | hm
      · exact h.fits table[slot] hself
      · exact h.fits m hm
    · rcases mem_modify hslot hm with rfl | hm
      · exact size
      · exact h.size_le m hm
  | remove slot hslot call leaf =>
    exact ⟨htree, fun m hm => h.canonical m (List.mem_of_mem_eraseIdx hm),
      fun m hm => h.fits m (List.mem_of_mem_eraseIdx hm),
      fun m hm => h.size_le m (List.mem_of_mem_eraseIdx hm)⟩
  | rename source destination call accepted =>
    subst call
    have hcanonical := hpaths destination ⟨rfl, accepted⟩
    obtain ⟨src, hlookup, -⟩ := moveAccepted_iff.mp accepted
    obtain ⟨hsrc, hkey⟩ := mem_of_lookup hlookup
    have hsource : CanonicalPath source := hkey ▸ h.canonical src hsrc
    refine ⟨htree, fun m hm => ?_, fun m hm => ?_, fun m hm => ?_⟩
    · obtain ⟨n, hn, rfl⟩ := List.mem_map.mp hm
      rw [moveNode_path]
      split
      · rename_i hin
        exact (h.canonical n hn).rebase hsource hcanonical hin
      · exact h.canonical n hn
    · obtain ⟨n, hn, rfl⟩ := List.mem_map.mp hm
      rw [moveNode_path]
      split
      · rename_i hin
        rw [Framework.rebase, List.length_append]
        exact hfits.2 accepted n hn hin
      · exact h.fits n hn
    · obtain ⟨n, hn, rfl⟩ := List.mem_map.mp hm
      rw [moveNode_bytes]
      exact h.size_le n hn

/-- The table has a directory at the path. -/
def DirAt (table : Table) (path : Bytes) : Prop := ∃ node ∈ table, node.path = path ∧ IsDir node

/-- The call takes the directory at the path away: it removes it, or it renames a subtree that the
directory belongs to. -/
def OpTakes (table : Table) (path : Bytes) : FsOp → Prop
  | .remove removed => removed = path ∧ tableHasChildren table path = false
  | .move source destination =>
      InSubtree slash source path ∧ moveAccepted table source destination = true
  | _ => False

/-- A directory that the call does not take away stays. -/
theorem TableEffect.dirAt (he : TableEffect table op table') (h : TableRooted table) {path : Bytes}
    (hdir : DirAt table path) (hkept : ¬ OpTakes table path op) : DirAt table' path := by
  obtain ⟨node, hnode, rfl, hisdir⟩ := hdir
  cases he with
  | same => exact ⟨node, hnode, rfl, hisdir⟩
  | push new stores absent room size => exact ⟨node, List.mem_append_left _ hnode, rfl, hisdir⟩
  | store slot hslot file type data size => exact dirs_store hslot file type data node hnode hisdir
  | remove slot hslot call leaf =>
    have hother : node.path ≠ table[slot].path := by
      intro hsame
      rw [call, hsame] at hkept
      have hself : node = table[slot] :=
        h.toTreeTable.key_inj hnode (List.getElem_mem hslot) hsame
      exact hkept ⟨rfl, leaf (hself ▸ hisdir)⟩
    exact ⟨node, (mem_eraseIdx_iff hslot hother).mpr hnode, rfl, hisdir⟩
  | rename source destination call accepted =>
    refine ⟨_, List.mem_map_of_mem hnode, ?_, (moveNode_type _ _ _).trans hisdir⟩
    rw [moveNode_path, if_neg]
    intro hin
    rw [call] at hkept
    exact hkept ⟨hin, accepted⟩

/-- The parent of a directory is the root or a directory. -/
theorem DirAt.parent (h : TableRooted table) {path : Bytes} (hdir : DirAt table path) :
    parentDirectory path = [slash] ∨ DirAt table (parentDirectory path) := by
  obtain ⟨node, hnode, rfl, -⟩ := hdir
  obtain ⟨rest, hrest⟩ := List.head?_eq_some_iff.mp (h.absolute node hnode)
  by_cases hroot : node.path = [slash]
  · left
    rw [hroot]
    rfl
  · cases hlast : lastIndex? slash node.path with
    | none => exact absurd (lastIndex?_eq_none.mp hlast) (by simp [hrest])
    | some i =>
      obtain ⟨a, b, hsplit, -, hb⟩ := lastIndex?_eq_some hlast
      rw [hsplit] at hroot ⊢
      rw [parentDirectory_append hb hroot]
      split
      · exact Or.inl rfl
      · rename_i ha
        exact Or.inr (h.rooted node hnode a ha ⟨b, hsplit⟩)

/-- Every call whose new paths are canonical and fit keeps the tree. -/
theorem tableStep_tree (h : TableTree table) {op : FsOp} (hfits : OpFits table op)
    (hop : OpCanonical table op) : TableTree (tableStep table op) :=
  (tableStep_effect table op).tree h hfits hop

end Steps

end SnsxOS.Arm64
