import SnsxOS.Arm64.StateFiles

/-!
# Calls that touch one path

`fs_mkdir`, `fs_write` and `fs_remove` leave every other path of the table as it is. In a run of
such calls whose paths are apart, what a call does can be told from the table before the run: the
entries there, the directories made on the way, and the room that is left.
-/

namespace SnsxOS.Arm64

open Framework

/-- The path that a call changes. -/
def FsOp.target : FsOp → Bytes
  | .mkdir path => path
  | .write path _ _ => path
  | .appendLine path _ => path
  | .remove path => path
  | .copy _ destination => destination
  | .move _ destination => destination

/-- A path that names an entry. -/
def NamesEntry (path : Bytes) : Prop := path.head? = some slash ∧ path ≠ [slash]

/-- A call that makes a directory, writes a file or removes an entry, with arguments it takes. -/
inductive OnePath : FsOp → Prop
  | mkdir {path : Bytes} (hpath : NamesEntry path) : OnePath (.mkdir path)
  | write {path data : Bytes} {type : ArmFsType} (hpath : NamesEntry path)
      (hdata : data.length ≤ fsMaxFileSize) (htype : type ≠ .dir) :
      OnePath (.write path data type)
  | remove {path : Bytes} (hpath : NamesEntry path) : OnePath (.remove path)

variable {table : Table} {op : FsOp} {other path : Bytes}

theorem OnePath.named (hop : OnePath op) : NamesEntry op.target := by
  cases hop with
  | mkdir hpath => exact hpath
  | write hpath => exact hpath
  | remove hpath => exact hpath

theorem under_tableMkdir_of_ne (hother : other ≠ path) (table : Table) :
    under FileNode.path (tableMkdir table path).2 other = under FileNode.path table other := by
  rw [tableMkdir]
  split
  · rfl
  · split
    · rfl
    · split
      · exact under_append_of_ne (Ne.symm hother)
      · rfl

theorem under_tableRemove_of_ne (hother : other ≠ path) (table : Table) :
    under FileNode.path (tableRemove table path).2 other = under FileNode.path table other := by
  rw [tableRemove]
  split
  · rfl
  · split
    · rfl
    · rename_i slot hfind
      obtain ⟨hslot, hkey⟩ := slotOf_eq_some hfind
      split
      · rfl
      · exact under_eraseIdx_of_ne hslot fun h => hother (h.symm.trans hkey)

/-- The other paths are left alone. -/
theorem under_tableStep (hop : OnePath op) (hother : other ≠ op.target) :
    under FileNode.path (tableStep table op) other = under FileNode.path table other := by
  cases hop with
  | mkdir => exact under_tableMkdir_of_ne hother table
  | write => exact under_tableWrite_of_ne hother table _ _
  | remove => exact under_tableRemove_of_ne hother table

theorem under_run {ops : List FsOp} (hops : ∀ op ∈ ops, OnePath op ∧ other ≠ op.target) :
    under FileNode.path (run tableStep table ops) other = under FileNode.path table other := by
  induction ops generalizing table with
  | nil => rfl
  | cons op ops ih =>
    obtain ⟨hop, hother⟩ := hops op List.mem_cons_self
    rw [run_cons, ih fun op h => hops op (List.mem_cons_of_mem _ h), under_tableStep hop hother]

theorem lookup_eq_of_under {table' : Table}
    (h : under FileNode.path table other = under FileNode.path table' other) :
    lookup FileNode.path table other = lookup FileNode.path table' other := by
  rw [← head?_under, ← head?_under, h]

section Children

theorem any_below_append (hbelow : belowTest slash other path = false) (node : FileNode ArmFsType)
    (hnode : node.path = path) :
    (table ++ [node]).any (fun node => belowTest slash other node.path) =
      table.any fun node => belowTest slash other node.path := by
  rw [List.any_append, List.any_cons, List.any_nil, hnode, hbelow, Bool.or_false, Bool.or_false]

/-- A change of a path that is not below a directory leaves the entries below it. -/
theorem hasChildren_tableStep (hop : OnePath op) (hroot : other ≠ [slash])
    (hbelow : belowTest slash other op.target = false) :
    tableHasChildren (tableStep table op) other = tableHasChildren table other := by
  rw [tableHasChildren, tableHasChildren, if_neg hroot, if_neg hroot]
  cases hop with
  | @mkdir path =>
    show (tableMkdir table path).2.any _ = _
    rw [tableMkdir]
    split
    · rfl
    · split
      · rfl
      · split
        · exact any_below_append hbelow _ rfl
        · rfl
  | @write path data type =>
    show (tableWrite table path data type).2.any _ = _
    rw [tableWrite]
    split
    · rfl
    · split
      · rename_i slot hfind
        obtain ⟨hslot, hkey⟩ := slotOf_eq_some hfind
        split
        · rfl
        · have hpaths : (table.modify slot fun node => ⟨node.path, type, data⟩).map
              FileNode.path = table.map FileNode.path := map_modify hslot rfl
          have hany := congrArg (fun paths => paths.any (belowTest slash other)) hpaths
          simp only [List.any_map] at hany
          exact hany
      · split
        · exact any_below_append hbelow _ rfl
        · rfl
  | @remove path =>
    show (tableRemove table path).2.any _ = _
    rw [tableRemove]
    split
    · rfl
    · split
      · rfl
      · rename_i slot hfind
        obtain ⟨hslot, hkey⟩ := slotOf_eq_some hfind
        split
        · rfl
        · have hold : belowTest slash other table[slot].path = false := by
            rw [hkey]
            exact hbelow
          have hsplit : table.take slot ++ table[slot] :: table.drop (slot + 1) = table := by
            rw [List.cons_getElem_drop_succ, List.take_append_drop]
          have hany := congrArg (fun table : Table =>
            table.any fun node => belowTest slash other node.path) hsplit
          simp only [List.any_append, List.any_cons, hold, Bool.false_or] at hany
          rw [← hany, List.eraseIdx_eq_take_drop_succ, List.any_append]

end Children

/-- What a call sees of its path. -/
structure SameView (table table' : Table) (path : Bytes) : Prop where
  under : under FileNode.path table path = under FileNode.path table' path
  children : tableHasChildren table path = tableHasChildren table' path

theorem SameView.lookup {table' : Table} (h : SameView table table' path) :
    lookup FileNode.path table path = lookup FileNode.path table' path :=
  lookup_eq_of_under h.under

section Outcomes

theorem NamesEntry.accepted (hpath : NamesEntry path) :
    ¬ (path.head? ≠ some slash ∨ path = [slash]) := by
  intro hbad
  exact hbad.elim (fun h => h hpath.1) hpath.2

variable {data : Bytes} {type : ArmFsType}

theorem NamesEntry.writable (hpath : NamesEntry path) (hdata : data.length ≤ fsMaxFileSize)
    (htype : type ≠ .dir) :
    ¬ (path.head? ≠ some slash ∨ fsMaxFileSize < data.length ∨ type = .dir) := by
  intro hbad
  rcases hbad with h | h | h
  · exact h hpath.1
  · omega
  · exact htype h

theorem tableMkdir_eq (hpath : NamesEntry path) (table : Table) :
    (tableMkdir table path).2 =
      if (lookup FileNode.path table path).isNone && canPush table path then
        table ++ [⟨path, .dir, []⟩]
      else table := by
  rw [tableMkdir, if_neg hpath.accepted]
  cases lookup FileNode.path table path with
  | some node => rfl
  | none => cases hpush : canPush table path <;> simp

theorem length_tableWrite (hpath : NamesEntry path) (hdata : data.length ≤ fsMaxFileSize)
    (htype : type ≠ .dir) (table : Table) :
    (tableWrite table path data type).2.length =
      if (lookup FileNode.path table path).isNone && canPush table path then table.length + 1
      else table.length := by
  rw [tableWrite, if_neg (hpath.writable hdata htype)]
  cases hfind : slotOf FileNode.path table path with
  | none =>
    rw [lookup_eq_none.mpr (slotOf_eq_none.mp hfind)]
    cases hpush : canPush table path <;> simp
  | some slot =>
    have hslot := (slotOf_eq_some hfind).1
    rw [lookup_of_slotOf hfind hslot]
    dsimp only
    split <;> simp

/-- A write to a path is refused by a directory there, or by a table that cannot take the path. -/
theorem tableWrite_answer (hpath : NamesEntry path) (hdata : data.length ≤ fsMaxFileSize)
    (htype : type ≠ .dir) (table : Table) :
    (tableWrite table path data type).1 =
      match lookup FileNode.path table path with
      | some node => node.type != .dir
      | none => canPush table path := by
  rw [tableWrite, if_neg (hpath.writable hdata htype)]
  cases hfind : slotOf FileNode.path table path with
  | none =>
    rw [lookup_eq_none.mpr (slotOf_eq_none.mp hfind)]
    dsimp only
    cases canPush table path <;> rfl
  | some slot =>
    have hslot := (slotOf_eq_some hfind).1
    rw [lookup_of_slotOf hfind hslot]
    dsimp only
    rw [List.getElem?_eq_getElem hslot, Option.map_some]
    by_cases hdir : table[slot].type = .dir
    · simp [hdir]
    · simp [hdir]

/-- A refused write leaves the table. -/
theorem tableWrite_refused (h : (tableWrite table path data type).1 = false) :
    (tableWrite table path data type).2 = table := by
  rw [tableWrite] at h ⊢
  split at h
  · rename_i hbad
    rw [if_pos hbad]
  · rename_i hbad
    rw [if_neg hbad]
    split at h
    · split at h
      · rename_i hdir
        rw [if_pos hdir]
      · cases h
    · split at h
      · cases h
      · rename_i hpush
        rw [if_neg hpush]

/-- A file is found with its type and data exactly when it could be written. -/
theorem lookup_tableWrite_iff (hpath : NamesEntry path) (hdata : data.length ≤ fsMaxFileSize)
    (htype : type ≠ .dir) :
    lookup FileNode.path (tableWrite table path data type).2 path = some ⟨path, type, data⟩ ↔
      (tableWrite table path data type).1 = true := by
  constructor
  · intro hfound
    by_contra hrefused
    rw [Bool.not_eq_true] at hrefused
    rw [tableWrite_refused hrefused] at hfound
    rw [tableWrite_answer hpath hdata htype, hfound] at hrefused
    exact htype (bne_eq_false_iff_eq.mp hrefused)
  · exact tableWrite_lookup

/-- Writing a file as it is changes nothing. -/
theorem tableWrite_same (hpath : NamesEntry path) (hdata : data.length ≤ fsMaxFileSize)
    (htype : type ≠ .dir)
    (hfound : lookup FileNode.path table path = some ⟨path, type, data⟩) :
    tableWrite table path data type = (true, table) := by
  obtain ⟨slot, hslot, hnode⟩ := lookup_eq_some_iff.mp hfound
  obtain ⟨hlt, -⟩ := slotOf_eq_some hslot
  have hat : table[slot] = ⟨path, type, data⟩ := by
    rw [List.getElem?_eq_getElem hlt, Option.some.injEq] at hnode
    exact hnode
  have hfile : ¬ (table[slot]?.map FileNode.type) = some .dir := by
    rw [hnode, Option.map_some, Option.some.injEq]
    exact htype
  have hkeep : (table.modify slot fun node => ⟨node.path, type, data⟩) = table := by
    rw [modify_eq_set hlt, hat, ← hat, List.set_getElem_self]
  rw [tableWrite, if_neg (hpath.writable hdata htype), hslot]
  dsimp only
  rw [if_neg hfile, hkeep]

/-- A removal is refused when nothing is there, or by a directory with entries below it. -/
theorem tableRemove_answer (hpath : NamesEntry path) (table : Table) :
    (tableRemove table path).1 =
      match lookup FileNode.path table path with
      | none => false
      | some node => !(node.type == .dir && tableHasChildren table path) := by
  rw [tableRemove, if_neg hpath.accepted]
  cases hfind : slotOf FileNode.path table path with
  | none => rw [lookup_eq_none.mpr (slotOf_eq_none.mp hfind)]
  | some slot =>
    have hslot := (slotOf_eq_some hfind).1
    rw [lookup_of_slotOf hfind hslot]
    dsimp only
    rw [List.getElem?_eq_getElem hslot, Option.map_some]
    by_cases hdir : table[slot].type = .dir
    · cases tableHasChildren table path <;> simp [hdir]
    · simp [hdir]

theorem SameView.removed {table' : Table} (h : SameView table table' path)
    (hpath : NamesEntry path) : (tableRemove table path).1 = (tableRemove table' path).1 := by
  rw [tableRemove_answer hpath, tableRemove_answer hpath, h.lookup, h.children]

theorem length_tableRemove (table : Table) (path : Bytes) :
    (tableRemove table path).2.length =
      if (tableRemove table path).1 then table.length - 1 else table.length := by
  rw [tableRemove]
  split
  · rfl
  · split
    · rfl
    · rename_i slot hfind
      have hslot := (slotOf_eq_some hfind).1
      split
      · rfl
      · exact List.length_eraseIdx_of_lt hslot

/-- A removal takes the first entry under the path. -/
theorem under_tableRemove (h : (tableRemove table path).1 = true) :
    under FileNode.path (tableRemove table path).2 path = (under FileNode.path table path).tail := by
  rw [tableRemove] at h ⊢
  split at h
  · cases h
  · rename_i hbad
    rw [if_neg hbad]
    split at h
    · cases h
    · rename_i slot hfind
      split at h
      · cases h
      · rename_i hdir
        rw [if_neg hdir]
        exact under_eraseIdx_slotOf hfind

theorem tableRemove_refused (h : (tableRemove table path).1 = false) :
    (tableRemove table path).2 = table := by
  rw [tableRemove] at h ⊢
  split at h
  · rename_i hbad
    rw [if_pos hbad]
  · rename_i hbad
    rw [if_neg hbad]
    split at h
    · rfl
    · split at h
      · rename_i hdir
        rw [if_pos hdir]
      · cases h

/-- A removal leaves nothing at the path, unless there are several entries or a directory with
entries below it. -/
theorem under_tableRemove_eq_nil (hpath : NamesEntry path) :
    under FileNode.path (tableRemove table path).2 path = [] ↔
      (under FileNode.path table path).length ≤ 1 ∧
        ∀ node, lookup FileNode.path table path = some node →
          ¬ (node.type = .dir ∧ tableHasChildren table path = true) := by
  have hanswer := tableRemove_answer hpath table
  have hhead : (under FileNode.path table path).head? = lookup FileNode.path table path :=
    head?_under table path
  cases hfound : lookup FileNode.path table path with
  | none =>
    have hnil : under FileNode.path table path = [] := by
      rw [hfound] at hhead
      exact List.head?_eq_none_iff.mp hhead
    rw [hfound] at hanswer
    rw [tableRemove_refused hanswer, hnil]
    simp
  | some node =>
    have hcons : under FileNode.path table path ≠ [] := by
      intro hnil
      rw [hnil, hfound] at hhead
      cases hhead
    by_cases hdir : node.type = .dir ∧ tableHasChildren table path = true
    · have hrefused : (tableRemove table path).1 = false := by
        rw [hanswer, hfound]
        simp [hdir]
      rw [tableRemove_refused hrefused]
      constructor
      · intro hnil
        exact absurd hnil hcons
      · intro h
        exact absurd hdir (h.2 node rfl)
    · have hremoved : (tableRemove table path).1 = true := by
        rw [hanswer, hfound]
        dsimp only
        rw [Bool.not_eq_true', Bool.eq_false_iff, Ne, Bool.and_eq_true, beq_iff_eq]
        exact hdir
      rw [under_tableRemove hremoved, ← List.length_eq_zero_iff, List.length_tail,
        Nat.sub_eq_zero_iff_le]
      constructor
      · intro hone
        refine ⟨hone, ?_⟩
        intro other hother
        rw [← Option.some.inj hother]
        exact hdir
      · exact And.left

end Outcomes

section Tally

def parentOf (path : Bytes) : Bytes := parentDirectory (strcopyLimit path fsPathMax)

/-- What the calls of a run have made of a table so far: the number of its entries, and the
directories that are new. -/
structure Tally where
  entries : Nat
  made : List Bytes

/-- The run has left room for the path, and its parent was there or is new. -/
def Tally.canPush (tally : Tally) (table : Table) (path : Bytes) : Bool :=
  (parentOk table path || tally.made.contains (parentOf path)) &&
    decide (tally.entries < fsMaxEntries ∧ path.length + 1 ≤ fsPathMax)

/-- The tally after a call, told from the table before the run. -/
def Tally.after (table : Table) (tally : Tally) : FsOp → Tally
  | .mkdir path =>
      if (lookup FileNode.path table path).isNone && tally.canPush table path then
        ⟨tally.entries + 1, path :: tally.made⟩
      else tally
  | .write path _ _ =>
      if (lookup FileNode.path table path).isNone && tally.canPush table path then
        ⟨tally.entries + 1, tally.made⟩
      else tally
  | .remove path =>
      if (tableRemove table path).1 then ⟨tally.entries - 1, tally.made⟩ else tally
  | _ => tally

def tallyOf (table : Table) (ops : List FsOp) : Tally :=
  ops.foldl (Tally.after table) ⟨table.length, []⟩

/-- An earlier call is out of the way of a later one: it may make its parent, and nothing else. -/
structure ApartFrom (op later : FsOp) : Prop where
  target : op.target ≠ later.target
  below : belowTest slash later.target op.target = false
  parent : parentOf later.target = op.target → op = .mkdir op.target

/-- What a later call finds, told from the table before the run. -/
structure Told (table current : Table) (tally : Tally) (path : Bytes) : Prop where
  view : SameView current table path
  parent : parentOk current path = (parentOk table path || tally.made.contains (parentOf path))

variable {current : Table} {tally : Tally} {later : FsOp}

theorem Told.canPush (h : Told table current tally path)
    (hlength : current.length = tally.entries) :
    Arm64.canPush current path = tally.canPush table path := by
  rw [Arm64.canPush, Tally.canPush, h.parent, hlength]

theorem parentOk_congr {table' : Table}
    (h : lookup FileNode.path table (parentOf path) = lookup FileNode.path table' (parentOf path)) :
    parentOk table path = parentOk table' path := by
  rw [parentOf] at h
  rw [parentOk, parentOk, h]

/-- A new directory is a parent for what goes into it. -/
theorem parentOk_append_dir (hfree : lookup FileNode.path table other = none) :
    parentOk (table ++ [⟨other, .dir, []⟩]) path =
      (parentOk table path || parentOf path == other) := by
  by_cases hparent : parentOf path = other
  · rw [hparent, beq_self_eq_true, Bool.or_true, parentOk]
    rw [parentOf] at hparent
    rw [hparent]
    split
    · rfl
    · rw [lookup_append_singleton (lookup_eq_none.mp hfree), if_pos rfl]
      rfl
  · rw [beq_false_of_ne hparent, Bool.or_false]
    apply parentOk_congr
    rw [lookup_append_singleton (lookup_eq_none.mp hfree), if_neg hparent]

theorem length_tableStep (hop : OnePath op) (hlength : current.length = tally.entries)
    (hself : Told table current tally op.target) :
    (tableStep current op).length = (tally.after table op).entries := by
  cases hop with
  | @mkdir path hpath =>
    change Told table current tally path at hself
    show (tableMkdir current path).2.length = _
    rw [tableMkdir_eq hpath, Tally.after, hself.view.lookup, hself.canPush hlength]
    split
    · rw [List.length_append, List.length_singleton, hlength]
    · exact hlength
  | @write path data type hpath hdata htype =>
    change Told table current tally path at hself
    show (tableWrite current path data type).2.length = _
    rw [length_tableWrite hpath hdata htype, Tally.after, hself.view.lookup,
      hself.canPush hlength]
    split
    · rw [hlength]
    · exact hlength
  | @remove path hpath =>
    change Told table current tally path at hself
    show (tableRemove current path).2.length = _
    rw [length_tableRemove, Tally.after, hself.view.removed hpath]
    split
    · rw [hlength]
    · exact hlength

theorem parentOk_tableStep (hop : OnePath op) (hlength : current.length = tally.entries)
    (hself : Told table current tally op.target) (hapart : ApartFrom op later)
    (hlater : Told table current tally later.target) :
    parentOk (tableStep current op) later.target =
      (parentOk table later.target ||
        (tally.after table op).made.contains (parentOf later.target)) := by
  have hold : parentOf later.target ≠ op.target →
      parentOk (tableStep current op) later.target = parentOk current later.target := by
    intro hne
    exact parentOk_congr (lookup_eq_of_under (under_tableStep hop hne))
  cases hop with
  | @mkdir path hpath =>
    change Told table current tally path at hself
    show parentOk (tableMkdir current path).2 later.target = _
    rw [tableMkdir_eq hpath, Tally.after, hself.view.lookup, hself.canPush hlength]
    split
    · rename_i hnew
      have hfree : lookup FileNode.path current path = none := by
        rw [hself.view.lookup]
        exact Option.isNone_iff_eq_none.mp (Bool.and_eq_true_iff.mp hnew).1
      rw [parentOk_append_dir hfree, hlater.parent, List.contains_cons, Bool.or_assoc,
        Bool.or_comm (tally.made.contains _)]
    · exact hlater.parent
  | @write path data type hpath hdata htype =>
    have hmade : (tally.after table (.write path data type)).made = tally.made := by
      rw [Tally.after]
      split <;> rfl
    rw [hmade, ← hlater.parent]
    apply hold
    intro hparent
    cases hapart.parent hparent
  | @remove path hpath =>
    have hmade : (tally.after table (.remove path)).made = tally.made := by
      rw [Tally.after]
      split <;> rfl
    rw [hmade, ← hlater.parent]
    apply hold
    intro hparent
    cases hapart.parent hparent

theorem told_tableStep (hop : OnePath op) (hlength : current.length = tally.entries)
    (hself : Told table current tally op.target) (hroot : later.target ≠ [slash])
    (hapart : ApartFrom op later) (hlater : Told table current tally later.target) :
    Told table (tableStep current op) (tally.after table op) later.target where
  view := ⟨(under_tableStep hop hapart.target.symm).trans hlater.view.under,
    (hasChildren_tableStep hop hroot hapart.below).trans hlater.view.children⟩
  parent := parentOk_tableStep hop hlength hself hapart hlater

/-- A call behind a run of calls that are out of its way finds what the tally tells. -/
theorem told_run {ops : List FsOp} (hops : ∀ op ∈ ops, OnePath op)
    (hpairs : ops.Pairwise ApartFrom) (hroot : later.target ≠ [slash])
    (hapart : ∀ op ∈ ops, ApartFrom op later) (hlength : current.length = tally.entries)
    (hselves : ∀ op ∈ ops, Told table current tally op.target)
    (hlater : Told table current tally later.target) :
    (run tableStep current ops).length = (ops.foldl (Tally.after table) tally).entries ∧
      Told table (run tableStep current ops) (ops.foldl (Tally.after table) tally)
        later.target := by
  induction ops generalizing current tally with
  | nil => exact ⟨hlength, hlater⟩
  | cons op ops ih =>
    have hop := hops op List.mem_cons_self
    have hself := hselves op List.mem_cons_self
    rw [run_cons, List.foldl_cons]
    apply ih
    · intro next hnext
      exact hops next (List.mem_cons_of_mem _ hnext)
    · exact hpairs.of_cons
    · intro next hnext
      exact hapart next (List.mem_cons_of_mem _ hnext)
    · exact length_tableStep hop hlength hself
    · intro next hnext
      exact told_tableStep hop hlength hself (hops next (List.mem_cons_of_mem _ hnext)).named.2
        (List.rel_of_pairwise_cons hpairs hnext) (hselves next (List.mem_cons_of_mem _ hnext))
    · exact told_tableStep hop hlength hself hroot (hapart op List.mem_cons_self) hlater

theorem told_refl (table : Table) (path : Bytes) : Told table table (tallyOf table []) path where
  view := ⟨rfl, rfl⟩
  parent := by
    rw [tallyOf, List.foldl_nil, List.contains_nil, Bool.or_false]

/-- The room that a call finds behind a run from the table. -/
theorem canPush_run {ops : List FsOp} (hops : ∀ op ∈ ops, OnePath op)
    (hpairs : ops.Pairwise ApartFrom) (hroot : later.target ≠ [slash])
    (hapart : ∀ op ∈ ops, ApartFrom op later) (table : Table) :
    canPush (run tableStep table ops) later.target =
      (tallyOf table ops).canPush table later.target := by
  have htold := told_run hops hpairs hroot hapart rfl
    (fun op _ => told_refl table op.target) (told_refl table later.target)
  exact htold.2.canPush htold.1

end Tally

end SnsxOS.Arm64
