import SnsxOS.Arm64.Desktop
import SnsxOS.Arm64.Rescan

/-!
# Files that hold a state

A file that `fs_write` reports as written is found under its path with its type and its bytes, in
any table, and a loader with a buffer behind the text reads it as it was.
-/

namespace SnsxOS.Arm64

open Framework

variable {path data : Bytes} {type : ArmFsType}

/-- Success and the node behind it. -/
theorem tableWrite_lookup {table : Table} (h : (tableWrite table path data type).1 = true) :
    lookup FileNode.path (tableWrite table path data type).2 path = some ⟨path, type, data⟩ := by
  rw [tableWrite] at h ⊢
  split at h
  · cases h
  · rename_i hbad
    rw [if_neg hbad]
    cases hfind : slotOf FileNode.path table path with
    | some slot =>
      obtain ⟨hslot, hkey⟩ := slotOf_eq_some hfind
      simp only [hfind] at h ⊢
      split at h
      · cases h
      · rename_i hfile
        rw [if_neg hfile, modify_eq_set hslot]
        have hpaths : (table.set slot ⟨table[slot].path, type, data⟩).map FileNode.path =
            table.map FileNode.path := map_set hslot rfl
        have hsame : table.map FileNode.path <+:
            (table.set slot ⟨table[slot].path, type, data⟩).map FileNode.path := by
          rw [hpaths]
        have hfound := slotOf_of_prefix hsame hfind
        have hlength : slot < (table.set slot ⟨table[slot].path, type, data⟩).length := by
          rw [List.length_set]
          exact hslot
        rw [lookup_of_slotOf hfound hlength, List.getElem_set_self, hkey]
    | none =>
      simp only [hfind] at h ⊢
      split at h
      · rename_i hpush
        rw [if_pos hpush, lookup_append_singleton (slotOf_eq_none.mp hfind), if_pos rfl]
      · cases h

/-- The other paths are left alone. -/
theorem under_tableWrite_of_ne {other : Bytes} (hother : other ≠ path) (table : Table)
    (data : Bytes) (type : ArmFsType) :
    under FileNode.path (tableWrite table path data type).2 other =
      under FileNode.path table other := by
  rw [tableWrite]
  split
  · rfl
  · cases hfind : slotOf FileNode.path table path with
    | some slot =>
      obtain ⟨hslot, hkey⟩ := slotOf_eq_some hfind
      dsimp only
      split
      · rfl
      · have hold : table[slot].path ≠ other := fun h => hother (h.symm.trans hkey)
        rw [modify_eq_set hslot]
        exact under_set_of_ne hslot hold hold
    | none =>
      dsimp only
      split
      · exact under_append_of_ne (Ne.symm hother)
      · rfl

theorem fsWrite_answer (fs : ArmFs) (path data : Bytes) (type : ArmFsType) :
    (fsWrite fs path data type).1 = (tableWrite fs.nodes path data type).1 := by
  rw [fsWrite, tableWrite]
  split
  · rfl
  · rw [← fsFind_nodes]
    cases fsFind fs path with
    | some slot =>
      dsimp only
      rw [typeAt_nodes]
      split <;> rfl
    | none =>
      dsimp only
      rw [canPush, ← fsParentExists_nodes, length_nodes, fsPush_eq]
      cases fsParentExists fs path with
      | false => rfl
      | true =>
        by_cases hroom : fs.entries.length < fsMaxEntries ∧ path.length + 1 ≤ fsPathMax
        · simp only [dif_pos hroom, Bool.not_true, Bool.false_eq_true, if_false, Bool.true_and,
            decide_eq_true hroom, if_true]
        · simp only [dif_neg hroom, Bool.not_true, Bool.false_eq_true, if_false, Bool.true_and,
            decide_eq_false hroom]

theorem fsEntry_fsWrite {fs : ArmFs} (hnul : NulFree path) (hfit : path.length < fsPathMax)
    (h : (fsWrite fs path data type).1 = true) :
    ∃ entry, fsEntry (fsWrite fs path data type).2 path = some entry ∧
      entry.node = ⟨path, type, data⟩ := by
  rw [fsWrite_answer] at h
  have hlookup := tableWrite_lookup h
  rw [← fsWrite_nodes hnul hfit, fsEntry_nodes, Option.map_eq_some_iff] at hlookup
  exact hlookup

theorem fsEntry_fsWrite_of_ne {fs : ArmFs} {other : Bytes} (hnul : NulFree path)
    (hfit : path.length < fsPathMax) (hother : other ≠ path) :
    (fsEntry (fsWrite fs path data type).2 other).map ArmFsEntry.node =
      (fsEntry fs other).map ArmFsEntry.node := by
  rw [← fsEntry_nodes, ← fsEntry_nodes, fsWrite_nodes hnul hfit, ← head?_under, ← head?_under,
    under_tableWrite_of_ne hother]

theorem stateText_of_node {fs : ArmFs} {entry : ArmFsEntry} {bufferSize : Nat}
    (hentry : fsEntry fs path = some entry) (hnode : entry.node = ⟨path, .text, data⟩)
    (hdata : NulFree data) (hfit : data.length < bufferSize) :
    stateText fs path bufferSize = some data := by
  have htype : entry.type = .text := congrArg FileNode.type hnode
  have hbytes : entry.bytes = data := congrArg FileNode.bytes hnode
  rw [stateText, hentry]
  dsimp only
  rw [if_pos htype, hbytes, List.take_of_length_le (by omega), cString_of_nulFree hdata]

/-- A session with its home directory and no file. -/
def homeSession : ArmFs := (fsMkdir (ArmFs.empty ⟨false, false, false, 0⟩) (ascii "/home")).2

theorem homeSession_nodes : homeSession.nodes = [⟨ascii "/home", .dir, []⟩] := by
  rw [homeSession, fsMkdir_nodes (by decide)]
  decide

end SnsxOS.Arm64
