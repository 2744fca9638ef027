import SnsxOS.Arm64.RoundTrip
import SnsxOS.Arm64.Shell
import SnsxOS.Arm64.Volumes

/-!
# Renaming subtrees

`fs_move` renames a whole subtree or changes nothing, as long as the new paths fit their fields.
The graphical file manager does not pass it a copy of the name but the path of the selected
entry itself. The loop rewrites that path when it comes to the entry, so what follows in the
table is compared with the new name, over the length of the old one.
-/

namespace SnsxOS.Arm64

open Framework

/-- The test in the loop of `fs_move`; `strncmp` compares over the length the source had when
the function was called. -/
def fsMoveMatches (source : Bytes) (sourceLen : Nat) (path : Bytes) : Bool :=
  decide (path = source) ||
    decide (path.take sourceLen = source.take sourceLen ∧ path[sourceLen]? = some slash)

def fsMoveTurn (source : Bytes) (sourceLen : Nat) (destination : Bytes) (entry : ArmFsEntry) :
    ArmFsEntry :=
  if fsMoveMatches source sourceLen entry.path then fsRenameEntry sourceLen destination entry
  else entry

/-- The loop of `fs_move` from the entry `i` on. The argument points to the path of `slot`;
`source` is what it reads when the turn of the entry comes. -/
def fsMoveLoop (slot sourceLen : Nat) (destination : Bytes) :
    Nat → Bytes → List ArmFsEntry → List ArmFsEntry
  | _, _, [] => []
  | i, source, entry :: entries =>
      let moved := fsMoveTurn source sourceLen destination entry
      moved :: fsMoveLoop slot sourceLen destination (i + 1)
        (if i = slot then moved.path else source) entries

theorem length_fsMoveLoop (slot sourceLen : Nat) (destination : Bytes) (i : Nat)
    (source : Bytes) (entries : List ArmFsEntry) :
    (fsMoveLoop slot sourceLen destination i source entries).length = entries.length := by
  induction entries generalizing i source with
  | nil => rfl
  | cons entry entries ih => simp [fsMoveLoop, ih]

/-- The table after the loop that reads its source from a slot. -/
def fsMoveEntries (fs : ArmFs) (slot : Nat) (source destination : Bytes) : ArmFs where
  entries := fsMoveLoop slot source.length destination 0 source fs.entries
  entries_le := by rw [length_fsMoveLoop]; exact fs.entries_le
  persist := fs.persist

/-- `fs_move(g_fs[slot].path, destination)`. -/
def fsMoveSlot (fs : ArmFs) (slot : Nat) (destination : Bytes) : Bool × ArmFs :=
  match fs.entries[slot]? with
  | none => (false, fs)
  | some entry =>
      match fsEntry fs entry.path with
      | none => (false, fs)
      | some src =>
          if (fsEntry fs destination).isSome ∨ fsParentExists fs destination = false then
            (false, fs)
          else if src.type = .dir ∧ belowTest slash entry.path destination = true then (false, fs)
          else (true, (fsMoveEntries fs slot entry.path destination).persistMarkDirty)

/-- `ren` of `app_files` on the entry in a slot; `none` when the new path overruns its buffer. -/
def appFilesRename (fs : ArmFs) (slot : Nat) (name : Word) : Option ArmFs :=
  match fs.entries[slot]? with
  | none => some fs
  | some entry =>
      let source := strcopyLimit entry.path fsPathMax
      (siblingPath source name).map fun destination => (fsMove fs source destination).2

/-- `r` of `ui_run_files_app`; `accepted` is the answer of the firmware to the save. -/
def uiFilesRename (fs : ArmFs) (volumes : List Volume) (accepted : Bool) (slot : Nat)
    (name : Word) : Option (ArmFs × List Volume) :=
  match fs.entries[slot]? with
  | none => some (fs, volumes)
  | some entry =>
      (siblingPath (strcopyLimit entry.path fsPathMax) name).map fun destination =>
        persistFlushState (fsMoveSlot fs slot destination).2 volumes accepted

theorem exec_ren {st : ShellState} {number slot : Nat} {name : Word} {entry : ArmFsEntry}
    (hnumber : st.entryAt number = some entry) (hslot : st.fs.entries[slot]? = some entry) :
    exec st (.ren number name) =
      (appFilesRename st.fs slot name).map fun fs => { st with fs := fs } := by
  simp only [exec, hnumber, appFilesRename, hslot, Option.map_map]
  rfl

section Accepted

theorem fsMove_eq (fs : ArmFs) (source destination : Bytes) :
    fsMove fs source destination =
      if moveAccepted fs.nodes source destination = true then
        (true, (fs.map (fsMoveEntry source destination)).persistMarkDirty)
      else (false, fs) := by
  rw [fsMove]
  simp only [moveAccepted_iff, fsEntry_nodes, fsParentExists_nodes]
  cases hsource : fsEntry fs source with
  | none => simp
  | some src =>
    simp only [Option.map_some, Option.some.injEq, exists_eq_left', Option.isSome_map]
    split
    · rename_i hbad
      rw [if_neg fun h => h.1 hbad]
    · rename_i hfree
      split
      · rename_i hself
        rw [if_neg fun h => h.2 hself]
      · rename_i hself
        rw [if_pos ⟨hfree, hself⟩]

/-- The slot makes no difference to what is accepted. -/
theorem fsMoveSlot_eq (fs : ArmFs) {slot : Nat} (hslot : slot < fs.entries.length)
    (destination : Bytes) :
    fsMoveSlot fs slot destination =
      if moveAccepted fs.nodes fs.entries[slot].path destination = true then
        (true, (fsMoveEntries fs slot fs.entries[slot].path destination).persistMarkDirty)
      else (false, fs) := by
  rw [fsMoveSlot, List.getElem?_eq_getElem hslot]
  simp only [moveAccepted_iff, fsEntry_nodes, fsParentExists_nodes]
  cases hsource : fsEntry fs fs.entries[slot].path with
  | none => simp
  | some src =>
    simp only [Option.map_some, Option.some.injEq, exists_eq_left', Option.isSome_map]
    split
    · rename_i hbad
      rw [if_neg fun h => h.1 hbad]
    · rename_i hfree
      split
      · rename_i hself
        rw [if_neg fun h => h.2 hself]
      · rename_i hself
        rw [if_pos ⟨hfree, hself⟩]

end Accepted

section AllOrNothing

variable {fs : ArmFs} {source destination : Bytes}

/-- The new paths of the subtree fit their fields. -/
def RenameFits (table : Table) (source destination : Bytes) : Prop :=
  ∀ node ∈ table, InSubtree slash source node.path →
    destination.length + (node.path.drop source.length).length < fsPathMax

instance (table : Table) (source destination : Bytes) :
    Decidable (RenameFits table source destination) :=
  inferInstanceAs (Decidable (∀ node ∈ table, InSubtree slash source node.path →
    destination.length + (node.path.drop source.length).length < fsPathMax))

/-- The call changes nothing, or it renames the subtree and nothing else. -/
def RenamesAllOrNothing (fs : ArmFs) (source destination : Bytes) : Prop :=
  fsMove fs source destination = (false, fs) ∨
    (fsMove fs source destination).1 = true ∧
      (fsMove fs source destination).2.nodes = fs.nodes.map (moveNode source destination) ∧
      (∀ node ∈ (fsMove fs source destination).2.nodes, node.path.length < fsPathMax) ∧
      ((fsMove fs source destination).2.nodes.map FileNode.path).Nodup

theorem RenamesAllOrNothing.fits (h : RenamesAllOrNothing fs source destination)
    (haccepted : moveAccepted fs.nodes source destination = true) :
    RenameFits fs.nodes source destination := by
  intro node hnode hin
  rcases h with hfailed | ⟨-, hnodes, hlengths, -⟩
  · rw [fsMove_eq, if_pos haccepted] at hfailed
    exact absurd (congrArg Prod.fst hfailed) (by simp)
  · have hmoved := hlengths (moveNode source destination node)
      (hnodes ▸ List.mem_map_of_mem hnode)
    rw [moveNode_path, if_pos hin, rebase, List.length_append] at hmoved
    exact hmoved

/-- A move in a tree is all or nothing exactly when the paths it makes fit. -/
theorem fsMove_allOrNothing_iff (hok : EntriesOk fs) (htree : TableTree fs.nodes)
    (hdest : CanonicalPath destination) :
    RenamesAllOrNothing fs source destination ↔
      (moveAccepted fs.nodes source destination = true →
        RenameFits fs.nodes source destination) := by
  constructor
  · exact fun h haccepted => h.fits haccepted
  · intro hfits
    have hrefines := fsMove_refines hok hdest.nulFree hfits
    have hmoved : TableTree (tableMove fs.nodes source destination).2 :=
      tableStep_tree htree (show OpFits fs.nodes (.move source destination) from
        ⟨hdest.nulFree, hfits⟩) fun _ => hdest
    by_cases haccepted : moveAccepted fs.nodes source destination = true
    · right
      rw [tableMove_eq, if_pos haccepted] at hrefines hmoved
      refine ⟨hrefines.answer, hrefines.nodes, ?_, ?_⟩
      · rw [hrefines.nodes]
        exact hmoved.fits
      · rw [hrefines.nodes]
        exact hmoved.distinct
    · left
      rw [fsMove_eq, if_neg haccepted]

/-- The calls that make a directory with one file. -/
def sampleCalls (file : Bytes) : List FsOp :=
  [.mkdir (ascii "/a"), .write (ascii "/a/" ++ file) [] .text]

def sampleFs (file : Bytes) : ArmFs := run fsStep (ArmFs.empty offline) (sampleCalls file)

def sampleTable (file : Bytes) : Table :=
  [⟨ascii "/a", .dir, []⟩, ⟨ascii "/a/" ++ file, .text, []⟩]

theorem sampleFs_ok (file : Bytes) (hname : CanonicalPath (ascii "/a/" ++ file))
    (htable : run tableStep [] (sampleCalls file) = sampleTable file) :
    (sampleFs file).nodes = sampleTable file ∧ EntriesOk (sampleFs file) ∧
      TableTree (sampleFs file).nodes := by
  have hfits : Guarded tableStep OpFits [] (sampleCalls file) :=
    ⟨by decide, hname.nulFree, trivial⟩
  have hguard : Guarded tableStep (fun table op => OpFits table op ∧ OpCanonical table op) []
      (sampleCalls file) :=
    ⟨⟨by decide, fun _ => by decide⟩, ⟨hname.nulFree, fun _ => hname⟩, trivial⟩
  have htree := run_invariant_of_guarded (I := TableTree)
    (fun _ _ h hop => tableStep_tree h hop.1 hop.2) TableTree.nil (sampleCalls file) hguard
  obtain ⟨hnodes, hok⟩ := run_refines (empty_entriesOk offline) hfits
  refine ⟨hnodes.trans htable, hok, ?_⟩
  rw [sampleFs, hnodes]
  exact htree

/-- A directory is renamed with its file. -/
theorem fsMove_allOrNothing_iff_sample :
    RenamesAllOrNothing (sampleFs (ascii "x")) (ascii "/a") (ascii "/b") := by
  obtain ⟨hnodes, hok, htree⟩ := sampleFs_ok (ascii "x") (by decide) (by decide)
  refine (fsMove_allOrNothing_iff hok htree (by decide)).mpr fun _ => ?_
  rw [hnodes]
  decide

/-- A name of 91 characters in a renamed directory runs on into the data of its file. -/
theorem not_fsMove_allOrNothing :
    ¬ ∀ (fs : ArmFs) (source destination : Bytes), EntriesOk fs → TableTree fs.nodes →
      CanonicalPath source → CanonicalPath destination →
      RenamesAllOrNothing fs source destination := by
  intro h
  obtain ⟨hnodes, hok, htree⟩ :=
    sampleFs_ok (List.replicate 91 97) (by decide +kernel) (by decide +kernel)
  have hfits := (h _ (ascii "/a") (ascii "/abcde") hok htree (by decide) (by decide)).fits
  rw [hnodes] at hfits
  exact absurd (hfits (by decide +kernel)) (by decide +kernel)

end AllOrNothing

section Aliased

variable {fs : ArmFs} {source destination path : Bytes} {entry : ArmFsEntry}

/-- With the source as it was passed the test asks for the subtree of the source. -/
theorem fsMoveMatches_source :
    fsMoveMatches source source.length path = true ↔ InSubtree slash source path := by
  rw [fsMoveMatches, Bool.or_eq_true, decide_eq_true_eq, decide_eq_true_eq, List.take_length,
    InSubtree, ← belowTest_iff, belowTest, Bool.and_eq_true, List.isPrefixOf_iff_prefix,
    beq_iff_eq, List.prefix_iff_eq_take, eq_comm (a := path.take source.length)]

/-- With a source that has become another path it asks for what lies below the beginning of
that path. -/
theorem fsMoveMatches_other (sourceLen : Nat) (hne : path ≠ destination) :
    fsMoveMatches destination sourceLen path = true ↔
      sourceLen ≤ destination.length ∧ Below slash (destination.take sourceLen) path := by
  rw [fsMoveMatches, Bool.or_eq_true, decide_eq_true_eq, decide_eq_true_eq, or_iff_right hne]
  constructor
  · rintro ⟨htake, hslash⟩
    have hlt : sourceLen < path.length := (List.getElem?_eq_some_iff.mp hslash).1
    have hlen := congrArg List.length htake
    rw [List.length_take, List.length_take] at hlen
    refine ⟨by omega, path.drop (sourceLen + 1), ?_⟩
    rw [← htake, ← (List.getElem?_eq_some_iff.mp hslash).2, List.cons_getElem_drop_succ,
      List.take_append_drop]
  · rintro ⟨hle, rest, rfl⟩
    have hlen : (destination.take sourceLen).length = sourceLen := by
      rw [List.length_take]
      omega
    refine ⟨?_, ?_⟩
    · rw [List.take_append_of_le_length hlen.ge, List.take_of_length_le hlen.le]
    · rw [List.getElem?_append_right hlen.le, hlen, Nat.sub_self]
      rfl

/-- Renaming makes no path twice as long as its field, so it stays inside the entry. -/
theorem fsRenameEntry_path {sourceLen : Nat} (hdest : NulFree destination)
    (hdestLt : destination.length < fsPathMax) (hpath : entry.path.length < fsPathMax) :
    (fsRenameEntry sourceLen destination entry).path = destination ++ entry.path.drop sourceLen := by
  have hsuffixLt : (entry.path.drop sourceLen).length < fsPathMax := by
    rw [List.length_drop]
    omega
  rw [fsRenameEntry, strcopyLimit_of_lt hdestLt, strcopyLimit_of_lt hsuffixLt]
  have hset := setPath_path entry hdest hdestLt
  by_cases hempty : entry.path.drop sourceLen = []
  · rw [hempty, if_pos rfl, List.append_nil]
    exact hset
  · rw [if_neg hempty]
    have hroom : (entry.setPath destination).path.length + (entry.path.drop sourceLen).length + 1 ≤
        fsPathMax + fsMaxFileSize := by
      rw [hset]
      have hsize : fsPathMax ≤ fsMaxFileSize := by decide
      omega
    exact (Buffer.str_strcat _ ((path_nulFree entry).drop _) hroom).trans (by
      rw [show (entry.setPath destination).memory.str = destination from hset])

theorem fsMoveTurn_source (source destination : Bytes) (entry : ArmFsEntry) :
    fsMoveTurn source source.length destination entry =
      fsMoveEntry source destination entry := by
  rw [fsMoveTurn, fsMoveEntry_eq]
  simp only [fsMoveMatches_source]

theorem fsMoveLoop_after (slot sourceLen : Nat) (destination : Bytes) {i : Nat} (hi : slot < i)
    (source : Bytes) (entries : List ArmFsEntry) :
    fsMoveLoop slot sourceLen destination i source entries =
      entries.map (fsMoveTurn source sourceLen destination) := by
  induction entries generalizing i with
  | nil => rfl
  | cons entry entries ih =>
    rw [fsMoveLoop, if_neg (by omega), ih (by omega), List.map_cons]

/-- Up to the slot the loop reads the old path, after it the new one. -/
theorem fsMoveLoop_eq (sourceLen : Nat) (destination source : Bytes) {i k : Nat}
    {entries : List ArmFsEntry} (hk : k < entries.length) :
    fsMoveLoop (i + k) sourceLen destination i source entries =
      (entries.take (k + 1)).map (fsMoveTurn source sourceLen destination) ++
        (entries.drop (k + 1)).map
          (fsMoveTurn (fsMoveTurn source sourceLen destination entries[k]).path sourceLen
            destination) := by
  induction k generalizing i entries with
  | zero =>
    cases entries with
    | nil => exact absurd hk (Nat.not_lt_zero _)
    | cons entry entries =>
      rw [fsMoveLoop, if_pos (Nat.add_zero i).symm, fsMoveLoop_after _ _ _ (by omega)]
      rfl
  | succ k ih =>
    cases entries with
    | nil => exact absurd hk (Nat.not_lt_zero _)
    | cons entry entries =>
      have hlt : k < entries.length := by simpa using hk
      have hrest := ih (i := i + 1) hlt
      rw [fsMoveLoop, if_neg (by omega), show i + (k + 1) = i + 1 + k by omega, hrest]
      rfl

/-- A later entry of the table fares alike under both readings of the source. -/
def LaterAgrees (source destination path : Bytes) : Prop :=
  if source <+: destination then path ≠ source
  else ¬ InSubtree slash source path ∧ (source.length < destination.length →
    ¬ Below slash (destination.take source.length) path)

instance (source destination path : Bytes) : Decidable (LaterAgrees source destination path) :=
  inferInstanceAs (Decidable (if source <+: destination then path ≠ source
    else ¬ InSubtree slash source path ∧ (source.length < destination.length →
      ¬ Below slash (destination.take source.length) path)))

theorem rebase_ne (hin : InSubtree slash source path) (hne : source ≠ destination) :
    rebase source destination path ≠ path := by
  obtain ⟨suffix, rfl, -⟩ := hin.exists_suffix
  rw [rebase_append]
  intro heq
  exact hne (List.append_cancel_right heq).symm

/-- An entry after the slot is moved alike exactly when it agrees. -/
theorem fsMoveTurn_destination_iff (hentry : EntryOk entry) (hdest : NulFree destination)
    (hdestLt : destination.length < fsPathMax) (hne : source ≠ destination)
    (hfresh : entry.path ≠ destination)
    (hfit : InSubtree slash source entry.path →
      destination.length + (entry.path.drop source.length).length < fsPathMax) :
    (fsMoveTurn destination source.length destination entry).node =
        moveNode source destination entry.node ↔
      LaterAgrees source destination entry.path := by
  have hmatches := fsMoveMatches_other source.length hfresh
  have hnode : entry.node.path = entry.path := rfl
  rw [LaterAgrees, moveNode, hnode]
  by_cases hprefix : source <+: destination
  · have htake : destination.take source.length = source :=
      (List.prefix_iff_eq_take.mp hprefix).symm
    rw [htake, and_iff_right hprefix.length_le] at hmatches
    rw [if_pos hprefix]
    by_cases hself : entry.path = source
    · have hstays : ¬ fsMoveMatches destination source.length entry.path = true := by
        rw [hmatches, hself]
        exact fun h => h.ne rfl
      rw [fsMoveTurn, if_neg hstays, if_pos (show InSubtree slash source entry.path from Or.inl hself)]
      refine iff_of_false (fun heq => ?_) (not_not.mpr hself)
      exact rebase_ne (Or.inl hself) hne (congrArg FileNode.path heq).symm
    · refine iff_of_true ?_ hself
      by_cases hbelow : Below slash source entry.path
      · have hin : InSubtree slash source entry.path := Or.inr hbelow
        rw [fsMoveTurn, if_pos (hmatches.mpr hbelow), if_pos hin]
        exact (fsRenameEntry_node hentry hdest (hfit (Or.inr hbelow))).1
      · have hout : ¬ InSubtree slash source entry.path := not_or.mpr ⟨hself, hbelow⟩
        rw [fsMoveTurn, if_neg (hmatches.not.mpr hbelow), if_neg hout]
  · rw [if_neg hprefix]
    by_cases hin : InSubtree slash source entry.path
    · have hstays : ¬ fsMoveMatches destination source.length entry.path = true := by
        rw [hmatches]
        rintro ⟨hle, rest, hrest⟩
        obtain ⟨suffix, hsuffix, -⟩ := hin.exists_suffix
        have hcut : source <+: destination.take source.length :=
          List.prefix_of_prefix_length_le ⟨suffix, hsuffix.symm⟩ ⟨_, hrest.symm⟩
            (by rw [List.length_take]; omega)
        exact hprefix (hcut.trans (List.take_prefix _ _))
      rw [fsMoveTurn, if_neg hstays, if_pos hin]
      refine iff_of_false (fun heq => ?_) (fun h => h.1 hin)
      exact rebase_ne hin hne (congrArg FileNode.path heq).symm
    · rw [if_neg hin, and_iff_right hin, fsMoveTurn]
      by_cases hmoved : fsMoveMatches destination source.length entry.path = true
      · rw [if_pos hmoved]
        obtain ⟨hle, hbelow⟩ := hmatches.mp hmoved
        rcases hle.lt_or_eq with hlt | heq
        · refine iff_of_false (fun hsame => ?_) (fun h => h hlt hbelow)
          have hpath := congrArg (fun node : FileNode ArmFsType => node.path.length) hsame
          have hlonger := hbelow.length_lt
          simp only [ArmFsEntry.node, fsRenameEntry_path hdest hdestLt hentry.path_lt,
            List.length_append, List.length_drop] at hpath
          rw [List.length_take] at hlonger
          omega
        · refine iff_of_true ?_ fun hlt => absurd heq hlt.ne
          rw [heq, List.take_length] at hbelow
          obtain ⟨rest, hrest⟩ := hbelow
          have hsame : destination ++ entry.path.drop source.length = entry.path := by
            rw [heq, hrest, List.drop_left]
          have hlen : destination.length + (entry.path.drop source.length).length < fsPathMax := by
            rw [← List.length_append, hsame]
            exact hentry.path_lt
          rw [(fsRenameEntry_node hentry hdest hlen).1, hsame]
          rfl
      · rw [if_neg hmoved]
        refine iff_of_true rfl fun hlt hbelow => hmoved (hmatches.mpr ⟨hlt.le, hbelow⟩)

theorem persistFlushState_nodes (fs : ArmFs) (volumes : List Volume) (accepted : Bool) :
    (persistFlushState fs volumes accepted).1.nodes = fs.nodes := by
  rw [persistFlushState]
  split
  · rfl
  · split <;> rfl

/-- An accepted destination is the path of no entry. -/
theorem moveAccepted_fresh (h : moveAccepted fs.nodes source destination = true)
    (hentry : entry ∈ fs.entries) : entry.path ≠ destination := by
  intro heq
  obtain ⟨src, -, hfree, -⟩ := moveAccepted_iff.mp h
  apply hfree
  left
  rw [lookup_isSome, ← heq]
  exact List.mem_map_of_mem (f := FileNode.path) (List.mem_map_of_mem (f := ArmFsEntry.node) hentry)

/-- The entries of an accepted move that reads its source from a slot. -/
theorem fsMoveEntries_nodes (hok : EntriesOk fs) {slot : Nat} (hslot : slot < fs.entries.length)
    (hdest : NulFree destination) (hfits : RenameFits fs.nodes fs.entries[slot].path destination) :
    (fsMoveEntries fs slot fs.entries[slot].path destination).nodes =
      (fs.nodes.take (slot + 1)).map (moveNode fs.entries[slot].path destination) ++
        (fs.entries.drop (slot + 1)).map fun entry =>
          (fsMoveTurn destination fs.entries[slot].path.length destination entry).node := by
  have hmoved : ∀ entry ∈ fs.entries,
      (fsMoveEntry fs.entries[slot].path destination entry).node =
        moveNode fs.entries[slot].path destination entry.node := fun entry hentry =>
    (fsMoveEntry_node (hok entry hentry) hdest
      (hfits entry.node (List.mem_map_of_mem hentry))).1
  have hslotPath : (fsMoveEntry fs.entries[slot].path destination fs.entries[slot]).path =
      destination := by
    have hnode := congrArg FileNode.path (hmoved _ (List.getElem_mem hslot))
    have hself : InSubtree slash fs.entries[slot].path fs.entries[slot].path := Or.inl rfl
    rw [moveNode_path] at hnode
    exact hnode.trans ((if_pos hself).trans (rebase_self _ _))
  have hloop := fsMoveLoop_eq (i := 0) fs.entries[slot].path.length destination
    fs.entries[slot].path hslot
  rw [Nat.zero_add, fsMoveTurn_source, hslotPath] at hloop
  have hentries : (fsMoveEntries fs slot fs.entries[slot].path destination).entries = _ := hloop
  rw [ArmFs.nodes, hentries, List.map_append, List.map_map, List.map_map]
  congr 1
  rw [ArmFs.nodes, ← List.map_take, List.map_map]
  apply List.map_congr_left
  intro entry hentry
  rw [Function.comp_apply, Function.comp_apply, fsMoveTurn_source]
  exact hmoved entry (List.mem_of_mem_take hentry)

/-- Both readings of the source give one table when every later entry agrees. -/
theorem fsMoveSlot_nodes_iff (hok : EntriesOk fs) {slot : Nat} (hslot : slot < fs.entries.length)
    (hdest : NulFree destination) (hdestLt : destination.length < fsPathMax)
    (hfits : RenameFits fs.nodes fs.entries[slot].path destination) :
    (fsMoveSlot fs slot destination).2.nodes =
        (fsMove fs fs.entries[slot].path destination).2.nodes ↔
      (moveAccepted fs.nodes fs.entries[slot].path destination = true →
        ∀ node ∈ fs.nodes.drop (slot + 1),
          LaterAgrees fs.entries[slot].path destination node.path) := by
  rw [(fsMove_refines hok hdest fun _ => hfits).nodes, fsMoveSlot_eq fs hslot, tableMove_eq]
  by_cases haccepted : moveAccepted fs.nodes fs.entries[slot].path destination = true
  · rw [if_pos haccepted, if_pos haccepted, persistMarkDirty_nodes,
      fsMoveEntries_nodes hok hslot hdest hfits, forall_prop_of_true haccepted]
    nth_rewrite 2 [← List.take_append_drop (slot + 1) fs.nodes]
    rw [List.map_append, List.append_cancel_left_eq, ArmFs.nodes, ← List.map_drop, List.map_map,
      List.map_inj_left, List.forall_mem_map]
    refine forall₂_congr fun entry hentry => ?_
    have hmem := List.mem_of_mem_drop hentry
    exact fsMoveTurn_destination_iff (hok entry hmem) hdest hdestLt
      (moveAccepted_fresh haccepted (List.getElem_mem hslot))
      (moveAccepted_fresh haccepted hmem) (hfits entry.node (List.mem_map_of_mem hmem))
  · rw [if_neg haccepted, if_neg haccepted]
    exact iff_of_true rfl fun h => absurd h haccepted

end Aliased

section FileManagers

variable {fs : ArmFs} {destination : Bytes} {slot : Nat} {name : Word}

theorem siblingPath_length_lt {source : Bytes} (h : siblingPath source name = some destination) :
    destination.length < fsPathMax := by
  rw [siblingPath] at h
  split at h
  · cases h
  · rename_i hroom
    rw [Option.some.inj h] at hroom
    omega

theorem appFilesRename_eq (hok : EntriesOk fs) (hslot : slot < fs.entries.length)
    (hname : siblingPath fs.entries[slot].path name = some destination) :
    appFilesRename fs slot name = some (fsMove fs fs.entries[slot].path destination).2 := by
  have hcopy : strcopyLimit fs.entries[slot].path fsPathMax = fs.entries[slot].path :=
    strcopyLimit_of_lt (hok _ (List.getElem_mem hslot)).path_lt
  simp only [appFilesRename, List.getElem?_eq_getElem hslot, hcopy, hname, Option.map_some]

theorem uiFilesRename_eq (hok : EntriesOk fs) (volumes : List Volume) (accepted : Bool)
    (hslot : slot < fs.entries.length)
    (hname : siblingPath fs.entries[slot].path name = some destination) :
    uiFilesRename fs volumes accepted slot name =
      some (persistFlushState (fsMoveSlot fs slot destination).2 volumes accepted) := by
  have hcopy : strcopyLimit fs.entries[slot].path fsPathMax = fs.entries[slot].path :=
    strcopyLimit_of_lt (hok _ (List.getElem_mem hslot)).path_lt
  simp only [uiFilesRename, List.getElem?_eq_getElem hslot, hcopy, hname, Option.map_some]

/-- The graphical rename leaves the table of the console's `ren`, in which the whole subtree has
the new name. -/
def RenamesLikeConsole (fs : ArmFs) (volumes : List Volume) (accepted : Bool) (slot : Nat)
    (name : Word) (source destination : Bytes) : Prop :=
  (uiFilesRename fs volumes accepted slot name).map (fun result => result.1.nodes) =
      (appFilesRename fs slot name).map ArmFs.nodes ∧
    (appFilesRename fs slot name).map ArmFs.nodes =
      some (tableMove fs.nodes source destination).2

/-- The two renames agree exactly when, where the move is accepted, every entry after the
selected one agrees. -/
theorem renamesLikeConsole_iff (hok : EntriesOk fs) (volumes : List Volume) (accepted : Bool)
    (hslot : slot < fs.entries.length)
    (hname : siblingPath fs.entries[slot].path name = some destination)
    (hfits : RenameFits fs.nodes fs.entries[slot].path destination) :
    RenamesLikeConsole fs volumes accepted slot name fs.entries[slot].path destination ↔
      (moveAccepted fs.nodes fs.entries[slot].path destination = true →
        ∀ node ∈ fs.nodes.drop (slot + 1),
          LaterAgrees fs.entries[slot].path destination node.path) := by
  have hdest := siblingPath_nulFree (path_nulFree _) hname
  rw [← fsMoveSlot_nodes_iff hok hslot hdest (siblingPath_length_lt hname) hfits,
    RenamesLikeConsole, appFilesRename_eq hok hslot hname,
    uiFilesRename_eq hok volumes accepted hslot hname, Option.map_some, Option.map_some,
    persistFlushState_nodes, Option.some.injEq, Option.some.injEq]
  exact and_iff_left (fsMove_refines hok hdest fun _ => hfits).nodes

theorem sampleFs_path {file : Bytes} (hnodes : (sampleFs file).nodes = sampleTable file)
    (slot : Nat) (hslot : slot < (sampleTable file).length) :
    ∃ h : slot < (sampleFs file).entries.length,
      (sampleFs file).entries[slot].path = (sampleTable file)[slot].path := by
  have hlen : (sampleFs file).nodes.length = (sampleFs file).entries.length :=
    List.length_map ArmFsEntry.node
  rw [hnodes] at hlen
  refine ⟨hlen ▸ hslot, ?_⟩
  have hnode : (sampleFs file).nodes[slot]? = some (sampleTable file)[slot] := by
    rw [hnodes, List.getElem?_eq_getElem hslot]
  rw [ArmFs.nodes, List.getElem?_map, List.getElem?_eq_getElem (hlen ▸ hslot)] at hnode
  exact congrArg FileNode.path (Option.some.inj hnode)

/-- The last entry of the table is renamed alike. -/
theorem renamesLikeConsole_iff_last :
    RenamesLikeConsole (sampleFs (ascii "x")) [] false 1 ⟨ascii "y", by decide⟩ (ascii "/a/x")
      (ascii "/a/y") := by
  obtain ⟨hnodes, hok, -⟩ := sampleFs_ok (ascii "x") (by decide) (by decide)
  obtain ⟨hslot, hpath⟩ := sampleFs_path hnodes 1 (by decide)
  replace hpath : (sampleFs (ascii "x")).entries[1].path = ascii "/a/x" := hpath
  have hname : siblingPath (sampleFs (ascii "x")).entries[1].path ⟨ascii "y", by decide⟩ =
      some (ascii "/a/y") := by
    rw [hpath]
    decide
  have hiff := renamesLikeConsole_iff hok [] false hslot hname (by rw [hpath, hnodes]; decide)
  rw [hpath] at hiff
  rw [hiff, hnodes]
  exact fun _ => by decide

/-- A renamed directory leaves the file in it behind. -/
theorem not_renamesLikeConsole :
    ¬ ∀ (fs : ArmFs) (volumes : List Volume) (accepted : Bool) (slot : Nat) (name : Word)
      (source destination : Bytes), EntriesOk fs → TableTree fs.nodes →
      fs.entries[slot]?.map ArmFsEntry.path = some source →
      siblingPath source name = some destination → RenameFits fs.nodes source destination →
      RenamesLikeConsole fs volumes accepted slot name source destination := by
  intro h
  obtain ⟨hnodes, hok, htree⟩ := sampleFs_ok (ascii "x") (by decide) (by decide)
  obtain ⟨hslot, hpath⟩ := sampleFs_path hnodes 0 (by decide)
  replace hpath : (sampleFs (ascii "x")).entries[0].path = ascii "/a" := hpath
  have hname : siblingPath (sampleFs (ascii "x")).entries[0].path ⟨ascii "b", by decide⟩ =
      some (ascii "/b") := by
    rw [hpath]
    decide
  have hfits : RenameFits (sampleFs (ascii "x")).nodes (sampleFs (ascii "x")).entries[0].path
      (ascii "/b") := by
    rw [hpath, hnodes]
    decide
  have hboth := h _ [] false 0 ⟨ascii "b", by decide⟩ _ (ascii "/b") hok htree
    (by rw [List.getElem?_eq_getElem hslot]; rfl) hname hfits
  rw [RenamesLikeConsole, appFilesRename_eq hok hslot hname,
    uiFilesRename_eq hok [] false hslot hname, Option.map_some, Option.map_some,
    persistFlushState_nodes, Option.some.injEq] at hboth
  have hagrees := (fsMoveSlot_nodes_iff hok hslot (by decide) (by decide) hfits).mp hboth.1
  rw [hpath, hnodes] at hagrees
  exact absurd (hagrees (by decide)) (by decide)

end FileManagers

end SnsxOS.Arm64
