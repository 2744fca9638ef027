import SnsxOS.Arm64.Load
import SnsxOS.Arm64.Paths

/-!
# When a snapshot restores its table

A saved table comes back exactly when its entries can be replayed in the order of the table:
every path fits, entries with one path agree, no directory is stored at the root, and every
parent directory is listed first. Moves can break each of these.
-/

namespace SnsxOS.Arm64

open Framework

section Reachable

/-- What the operations keep of the entries when moves go to absolute paths. -/
structure Saved (fs : ArmFs) : Prop where
  sized : AllEntries Sized fs
  absolute : AllEntries Absolute fs

/-- The path arguments of the call are absolute. -/
def FsOp.Absolute : FsOp → Prop
  | .mkdir path => path.head? = some slash
  | .write path _ _ => path.head? = some slash
  | .appendLine path _ => path.head? = some slash
  | .remove path => path.head? = some slash
  | .copy source destination => source.head? = some slash ∧ destination.head? = some slash
  | .move source destination => source.head? = some slash ∧ destination.head? = some slash

instance : DecidablePred FsOp.Absolute
  | .mkdir path => inferInstanceAs (Decidable (path.head? = some slash))
  | .write path _ _ => inferInstanceAs (Decidable (path.head? = some slash))
  | .appendLine path _ => inferInstanceAs (Decidable (path.head? = some slash))
  | .remove path => inferInstanceAs (Decidable (path.head? = some slash))
  | .copy source destination | .move source destination =>
      inferInstanceAs (Decidable (source.head? = some slash ∧ destination.head? = some slash))

/-- The path arguments of the call are canonical. -/
def FsOp.Canonical : FsOp → Prop
  | .mkdir path => CanonicalPath path
  | .write path _ _ => CanonicalPath path
  | .appendLine path _ => CanonicalPath path
  | .remove path => CanonicalPath path
  | .copy source destination => CanonicalPath source ∧ CanonicalPath destination
  | .move source destination => CanonicalPath source ∧ CanonicalPath destination

instance : DecidablePred FsOp.Canonical
  | .mkdir path => inferInstanceAs (Decidable (CanonicalPath path))
  | .write path _ _ => inferInstanceAs (Decidable (CanonicalPath path))
  | .appendLine path _ => inferInstanceAs (Decidable (CanonicalPath path))
  | .remove path => inferInstanceAs (Decidable (CanonicalPath path))
  | .copy source destination | .move source destination =>
      inferInstanceAs (Decidable (CanonicalPath source ∧ CanonicalPath destination))

theorem FsOp.Absolute.movesTo {op : FsOp} (h : op.Absolute) :
    op.MovesTo fun destination => destination.head? = some slash := by
  cases op with
  | move source destination => exact h.2
  | _ => trivial

theorem run_saved (persist : PersistState) {ops : List FsOp} (hops : ∀ op ∈ ops, op.Absolute) :
    Saved (run fsStep (ArmFs.empty persist) ops) :=
  ⟨run_sized persist ops, run_allEntries absolute_invariant (empty_allEntries persist)
    fun op hop => (hops op hop).movesTo⟩

end Reachable

section Replay

structure Replayable (table : Table) : Prop where
  fits : ∀ node ∈ table, node.path.length < fsPathMax
  agree : Consistent FileNode.path table
  root : ∀ node ∈ table, node.type = .dir → node.path ≠ [slash]
  /-- An entry that is listed several times counts at one of its places. -/
  ordered : ∃ listed, listed.Sublist table ∧ table ⊆ listed ∧ ParentsFirst listed

theorem parentsFirst_of_ordered {table : Table} (hnodup : (table.map FileNode.path).Nodup)
    (h : ∃ listed, listed.Sublist table ∧ table ⊆ listed ∧ ParentsFirst listed) :
    ParentsFirst table := by
  obtain ⟨listed, hsub, hcover, hfirst⟩ := h
  have hlen : table.length ≤ listed.length :=
    (List.subperm_of_subset (List.Nodup.of_map _ hnodup) hcover).length_le
  rw [← hsub.eq_of_length_le hlen]
  exact hfirst

end Replay

section RoundTrip

/-- Reading the bytes into an empty table succeeds and gives the entries of the table. -/
def RoundTrip (fs : ArmFs) (bytes : Bytes) (persist : PersistState) : Prop :=
  (persistDeserialize (ArmFs.empty persist) bytes).1 = true ∧
    ∀ node, node ∈ (persistDeserialize (ArmFs.empty persist) bytes).2.nodes ↔ node ∈ fs.nodes

variable {fs : ArmFs} {bytes : Bytes}

theorem Saved.loadable (h : Saved fs) (hfits : ∀ node ∈ fs.nodes, node.path.length < fsPathMax)
    (hroot : ∀ node ∈ fs.nodes, node.type = .dir → node.path ≠ [slash]) :
    ∀ node ∈ fs.nodes, Loadable node := by
  intro node hnode
  have hfit := hfits node hnode
  have hne := hroot node hnode
  obtain ⟨entry, hentry, rfl⟩ := List.mem_map.mp hnode
  have hsized := h.sized entry hentry
  refine ⟨h.absolute entry hentry, hfit, ?_, fun hdir => ⟨hsized.dir_bytes hdir, hne hdir⟩⟩
  exact le_of_eq_of_le hsized.bytes_length hsized.size_le

theorem empty_entriesOk (persist : PersistState) : EntriesOk (ArmFs.empty persist) :=
  empty_allEntries persist

theorem all_pathFits {table : Table} :
    table.all pathFits = true ↔ ∀ node ∈ table, node.path.length < fsPathMax := by
  simp [pathFits]

/-- A snapshot whose paths all fit is replayed completely. -/
theorem persistDeserialize_fits (hsaved : Saved fs)
    (hbytes : persistSerialize fs.entries persistMaxStateSize = some bytes)
    (hfits : ∀ node ∈ fs.nodes, node.path.length < fsPathMax) {target : ArmFs}
    (htarget : EntriesOk target) :
    (persistDeserialize target bytes).1 = true ∧
      (persistDeserialize target bytes).2.nodes = fs.nodes.foldl loadNode target.nodes := by
  have hall : fs.nodes.takeWhile pathFits = fs.nodes := by
    rw [List.takeWhile_eq_self_iff]
    exact fun node hnode => decide_eq_true (hfits node hnode)
  rw [persistDeserialize_serialize hsaved.sized hbytes, hall]
  exact ⟨all_pathFits.mpr hfits, foldl_restoreNode_nodes htarget (nodes_nulFree fs)⟩

theorem roundTrip_iff_replayable (hsaved : Saved fs)
    (hbytes : persistSerialize fs.entries persistMaxStateSize = some bytes)
    (persist : PersistState) : RoundTrip fs bytes persist ↔ Replayable fs.nodes := by
  have hroom : ([] : Table).length + fs.nodes.length ≤ fsMaxEntries := by
    simpa using fs.entries_le
  constructor
  · intro h
    obtain ⟨htrue, hsame⟩ := h
    have hfits : ∀ node ∈ fs.nodes, node.path.length < fsPathMax := by
      rw [persistDeserialize_serialize hsaved.sized hbytes] at htrue
      exact all_pathFits.mp htrue
    rw [(persistDeserialize_fits hsaved hbytes hfits (empty_entriesOk persist)).2] at hsame
    have hloaded : Loaded (fs.nodes.foldl loadNode (ArmFs.empty persist).nodes) :=
      foldl_loadNode_loaded Loaded.nil _
    have hroot : ∀ node ∈ fs.nodes, node.type = .dir → node.path ≠ [slash] :=
      fun node hnode => hloaded.root node ((hsame node).mpr hnode)
    have hagree : Consistent FileNode.path fs.nodes :=
      (Consistent.of_nodup hloaded.nodup).subset fun node hnode => (hsame node).mpr hnode
    refine ⟨hfits, hagree, hroot, ?_⟩
    obtain ⟨added, hsub, heq, hready⟩ := acceptAll_eq_append FileNode.path hasParent
      [] fs.nodes
    refine ⟨added, hsub, ?_, hready⟩
    intro node hnode
    have hin := (hsame node).mpr hnode
    rw [show (ArmFs.empty persist).nodes = [] from rfl,
      foldl_loadNode_eq hagree hroom (hsaved.loadable hfits hroot), heq] at hin
    simpa using hin
  · intro h
    obtain ⟨htrue, hnodes⟩ :=
      persistDeserialize_fits hsaved hbytes h.fits (empty_entriesOk persist)
    refine ⟨htrue, fun node => ?_⟩
    rw [hnodes, show (ArmFs.empty persist).nodes = [] from rfl,
      foldl_loadNode_eq h.agree hroom (hsaved.loadable h.fits h.root)]
    obtain ⟨listed, hsub, hcover, hfirst⟩ := h.ordered
    constructor
    · intro hnode
      obtain ⟨added, haddedSub, heq, -⟩ := acceptAll_eq_append FileNode.path
        hasParent [] fs.nodes
      rw [heq] at hnode
      exact haddedSub.subset (by simpa using hnode)
    · intro hnode
      exact mem_acceptAll_of_orderReady hasParent_mono hsub (List.Subset.refl _) h.agree hfirst
        node (hcover hnode)

/-- A snapshot of a table that the operations built restores it exactly when the table can be
replayed in its order. -/
theorem run_roundTrip_iff (persist target : PersistState) (ops : List FsOp)
    (habsolute : ∀ op ∈ ops, op.Absolute) (bytes : Bytes)
    (hbytes : persistSerialize (run fsStep (ArmFs.empty persist) ops).entries
      persistMaxStateSize = some bytes) :
    RoundTrip (run fsStep (ArmFs.empty persist) ops) bytes target ↔
      Replayable (run fsStep (ArmFs.empty persist) ops).nodes :=
  roundTrip_iff_replayable (run_saved persist habsolute) hbytes target

/-- The snapshot of a run whose nodes are known. -/
theorem run_serialize (persist : PersistState) (ops : List FsOp) (table : Table)
    (hfits : Guarded tableStep OpFits [] ops)
    (htable : run tableStep [] ops = table)
    (hsize : persistHeaderSize + entriesSize table ≤ persistMaxStateSize) :
    (run fsStep (ArmFs.empty persist) ops).nodes = table ∧
      ∃ bytes, persistSerialize (run fsStep (ArmFs.empty persist) ops).entries
        persistMaxStateSize = some bytes := by
  have hnodes := (run_refines (empty_entriesOk persist) hfits).1.trans htable
  rw [← hnodes] at hsize
  exact ⟨hnodes, _, persistSerialize_of_le (run_sized persist ops) hsize⟩

def offline : PersistState := ⟨false, false, false, 0⟩

/-- A file in a directory and a file at the root come back. -/
theorem run_roundTrip_iff_nested :
    ∃ bytes, RoundTrip (run fsStep (ArmFs.empty offline)
      [.mkdir (ascii "/a"), .write (ascii "/a/f") [1, 2] .text, .write (ascii "/g") [] .text])
      bytes offline := by
  obtain ⟨hnodes, bytes, hbytes⟩ := run_serialize offline
    [.mkdir (ascii "/a"), .write (ascii "/a/f") [1, 2] .text, .write (ascii "/g") [] .text]
    [⟨ascii "/a", .dir, []⟩, ⟨ascii "/a/f", .text, [1, 2]⟩, ⟨ascii "/g", .text, []⟩]
    (by decide) (by decide) (by decide)
  refine ⟨bytes, (run_roundTrip_iff offline offline _ (by decide) bytes hbytes).mpr ?_⟩
  rw [hnodes]
  exact ⟨by decide, Consistent.of_nodup (by decide), by decide, _, List.Sublist.refl _,
    List.Subset.refl _, by decide⟩

/-- A directory that is moved into a younger one is listed before its parent and is lost. -/
theorem not_run_roundTrip :
    ¬ ∀ (persist target : PersistState) (ops : List FsOp), (∀ op ∈ ops, op.Canonical) →
      ∀ bytes, persistSerialize (run fsStep (ArmFs.empty persist) ops).entries
        persistMaxStateSize = some bytes →
        RoundTrip (run fsStep (ArmFs.empty persist) ops) bytes target := by
  intro h
  obtain ⟨hnodes, bytes, hbytes⟩ := run_serialize offline
    [.mkdir (ascii "/a"), .mkdir (ascii "/b"), .move (ascii "/a") (ascii "/b/a")]
    [⟨ascii "/b/a", .dir, []⟩, ⟨ascii "/b", .dir, []⟩] (by decide) (by decide) (by decide)
  have hround := (roundTrip_iff_replayable (run_saved offline (by decide)) hbytes
    offline).mp (h offline offline _ (by decide) bytes hbytes)
  rw [hnodes] at hround
  exact absurd (parentsFirst_of_ordered (by decide) hround.ordered) (by decide)

end RoundTrip

end SnsxOS.Arm64
