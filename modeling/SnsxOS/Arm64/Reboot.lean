import SnsxOS.Arm64.Seed
import SnsxOS.Arm64.Volumes

/-!
# Restoring a snapshot over a fresh seed

The next session seeds its table before the snapshot is loaded, and loading removes nothing, so
a seeded entry that was removed before saving is there again; nothing else is.
-/

namespace SnsxOS.Arm64

open Framework

/-- The table of the next session after the snapshot was found and applied. -/
def reboot (fs : ArmFs) (volumes : List Volume) : ArmFs := persistDiscover (fsSeed fs) volumes

section Paths

variable {bytes : Bytes} {volumes : List Volume}

theorem run_seed_sized (fs : ArmFs) (ops : List FsOp) :
    AllEntries Sized (run fsStep (fsSeed fs) ops) := by
  rw [fsSeed, ← run_append]
  exact run_sized fs.persist (seedCalls ++ ops)

theorem reboot_nodes {saved : ArmFs} (hsized : AllEntries Sized saved)
    (hsaved : writtenState saved = some bytes) (hfound : foundState volumes = some bytes)
    (fs : ArmFs) :
    (reboot fs volumes).nodes = (saved.nodes.takeWhile pathFits).foldl loadNode seedTable := by
  obtain ⟨hnodes, hok⟩ := fsSeed_nodes fs
  rw [reboot, persistDiscover_nodes hsized (writtenState_eq_some hsaved) hfound hok, hnodes]

theorem reboot_path {saved : ArmFs} (hsized : AllEntries Sized saved)
    (hsaved : writtenState saved = some bytes) (hfound : foundState volumes = some bytes)
    (fs : ArmFs) {node : FileNode ArmFsType} (hnode : node ∈ (reboot fs volumes).nodes) :
    node.path ∈ saved.nodes.map FileNode.path ∨ node ∈ seedTable := by
  rw [reboot_nodes hsized hsaved hfound] at hnode
  rcases mem_foldl_loadNode hnode with hnode | hnode
  · exact Or.inr hnode
  · exact Or.inl (((List.takeWhile_sublist _).map _).subset hnode)

theorem seed_path_restored {saved : ArmFs} (hsized : AllEntries Sized saved)
    (hsaved : writtenState saved = some bytes) (hfound : foundState volumes = some bytes)
    (fs : ArmFs) {node : FileNode ArmFsType} (hnode : node ∈ seedTable) :
    node.path ∈ (reboot fs volumes).nodes.map FileNode.path := by
  rw [reboot_nodes hsized hsaved hfound]
  exact paths_foldl_loadNode _ _ (List.mem_map_of_mem hnode)

end Paths

section Sessions

theorem entriesSize_le {table : Table} (hfits : ∀ node ∈ table, node.path.length < fsPathMax)
    (hsize : ∀ node ∈ table, node.bytes.length ≤ fsMaxFileSize) :
    entriesSize table ≤ table.length * (persistEntryHeaderSize + fsPathMax + fsMaxFileSize) := by
  have hsum := List.sum_le_card_nsmul
    (table.map fun node => persistEntryHeaderSize + node.path.length + node.bytes.length)
    (persistEntryHeaderSize + fsPathMax + fsMaxFileSize) ?_
  · rwa [List.length_map, smul_eq_mul] at hsum
  · intro size hmem
    obtain ⟨node, hnode, rfl⟩ := List.mem_map.mp hmem
    have hpath := hfits node hnode
    have hbytes := hsize node hnode
    omega

/-- The call did nothing, or the unsaved changes it made are marked. -/
def Marks (fs fs' : ArmFs) : Prop := fs' = fs ∨ fs'.persist = fs.persistMarkDirty.persist

theorem Marks.same (fs : ArmFs) : Marks fs fs := Or.inl rfl

theorem Marks.marked {fs fs' : ArmFs} (h : fs'.persist = fs.persist) :
    Marks fs fs'.persistMarkDirty := by
  right
  rw [ArmFs.persistMarkDirty, ArmFs.persistMarkDirty, h]
  split
  · rfl
  · exact h

theorem fsPush_persist {fs fs' : ArmFs} {path : Bytes} {type : ArmFsType}
    (h : fsPush fs path type = some fs') : fs'.persist = fs.persist := by
  rw [fsPush_eq] at h
  split at h
  · rw [← Option.some.inj h]
    rfl
  · cases h

theorem fsWrite_marks (fs : ArmFs) (path data : Bytes) (type : ArmFsType) :
    Marks fs (fsWrite fs path data type).2 := by
  rw [fsWrite]
  split
  · exact Marks.same fs
  · split
    · split
      · exact Marks.same fs
      · exact Marks.marked rfl
    · split
      · exact Marks.same fs
      · split
        · exact Marks.same fs
        · rename_i fs' hpush
          have hpersist := fsPush_persist hpush
          exact Marks.marked hpersist

/-- Every operation marks what it changes. -/
theorem fsStep_marks (fs : ArmFs) (op : FsOp) : Marks fs (fsStep fs op) := by
  cases op with
  | mkdir path =>
    simp only [fsStep, fsCall, fsMkdir]
    split
    · exact Marks.same fs
    · split
      · exact Marks.same fs
      · split
        · exact Marks.same fs
        · split
          · exact Marks.same fs
          · rename_i fs' hpush
            exact Marks.marked (fsPush_persist hpush)
  | write path data type => exact fsWrite_marks fs path data type
  | appendLine path text =>
    simp only [fsStep, fsCall, fsAppendLine]
    split
    · split
      · exact Marks.same fs
      · split
        · exact Marks.same fs
        · split
          · exact Marks.same fs
          · exact fsWrite_marks fs _ _ _
    · split
      · exact Marks.same fs
      · split
        · exact Marks.same fs
        · exact fsWrite_marks fs _ _ _
  | remove path =>
    simp only [fsStep, fsCall, fsRemove]
    split
    · exact Marks.same fs
    · split
      · exact Marks.same fs
      · split
        · exact Marks.same fs
        · exact Marks.marked rfl
  | copy source destination =>
    simp only [fsStep, fsCall, fsCopy]
    split
    · exact Marks.same fs
    · split
      · exact Marks.same fs
      · exact fsWrite_marks fs _ _ _
  | move source destination =>
    simp only [fsStep, fsCall, fsMove]
    split
    · exact Marks.same fs
    · split
      · exact Marks.same fs
      · split
        · exact Marks.same fs
        · exact Marks.marked rfl

/-- An attached disk with unsaved changes. -/
def unsaved : PersistState := ⟨true, true, true, 0⟩

/-- Changes leave unsaved changes unsaved. -/
theorem fsStep_unsaved {fs : ArmFs} (h : fs.persist = unsaved) (op : FsOp) :
    (fsStep fs op).persist = unsaved := by
  rcases fsStep_marks fs op with hsame | hmarked
  · rw [hsame, h]
  · rw [hmarked, ArmFs.persistMarkDirty, h]
    rfl

theorem run_unsaved {fs : ArmFs} (h : fs.persist = unsaved) (ops : List FsOp) :
    (run fsStep fs ops).persist = unsaved :=
  run_invariant (I := fun st : ArmFs => st.persist = unsaved)
    (fun _ op hst => fsStep_unsaved hst op) h ops

/-- A session whose nodes are known and small enough is saved. -/
theorem run_seed_written {ops : List FsOp} (hfits : Guarded tableStep OpFits seedTable ops)
    (hsize : persistHeaderSize + entriesSize (run tableStep seedTable ops) ≤ persistMaxStateSize) :
    (run fsStep (fsSeed (ArmFs.empty unsaved)) ops).nodes = run tableStep seedTable ops ∧
      ∃ bytes, writtenState (run fsStep (fsSeed (ArmFs.empty unsaved)) ops) = some bytes := by
  obtain ⟨hseed, hok⟩ := fsSeed_nodes (ArmFs.empty unsaved)
  have hstart : (fsSeed (ArmFs.empty unsaved)).persist = unsaved := run_unsaved rfl seedCalls
  have hpersist := run_unsaved hstart ops
  rw [← hseed] at hfits hsize
  have hnodes := (run_refines hok hfits).1
  rw [← hnodes] at hsize
  refine ⟨hnodes.trans (by rw [hseed]), ?_⟩
  rw [writtenState, hpersist, if_pos (by decide)]
  exact ⟨_, persistSerialize_of_le (run_seed_sized _ ops) hsize⟩

/-- A disk that holds nothing but the snapshot. -/
theorem foundState_disk {saved : ArmFs} {bytes : Bytes} (hsized : AllEntries Sized saved)
    (hsaved : writtenState saved = some bytes) : foundState [⟨true, some bytes⟩] = some bytes := by
  have hlen := persistSerialize_length hsized (writtenState_eq_some hsaved)
  simp [foundState, holdsState, Volume.readState, List.take_of_length_le hlen]

theorem seedTable_room {table : Table} (hlen : table.length ≤ 31)
    (hfits : ∀ node ∈ table, node.path.length < fsPathMax)
    (hsize : ∀ node ∈ table, node.bytes.length ≤ fsMaxFileSize) :
    persistHeaderSize + entriesSize table ≤ persistMaxStateSize := by
  have hsum := entriesSize_le hfits hsize
  have hbound := Nat.mul_le_mul_right (persistEntryHeaderSize + fsPathMax + fsMaxFileSize) hlen
  have hnum : persistHeaderSize + 31 * (persistEntryHeaderSize + fsPathMax + fsMaxFileSize) ≤
      persistMaxStateSize := by decide
  omega

def snakeDoc : Bytes := ascii "/docs/SNAKE.TXT"

/-- The seeded table without one of its files. -/
theorem removed_snake : (∀ node ∈ tableStep seedTable (.remove snakeDoc), node ∈ seedTable) ∧
    snakeDoc ∉ (tableStep seedTable (.remove snakeDoc)).map FileNode.path := by
  constructor
  · intro node hnode
    rw [tableStep, tableCall, tableRemove] at hnode
    split at hnode
    · exact hnode
    · split at hnode
      · exact hnode
      · split at hnode
        · exact hnode
        · exact List.mem_of_mem_eraseIdx hnode
  · decide +kernel

theorem removed_snake_written :
    (run fsStep (fsSeed (ArmFs.empty unsaved)) [.remove snakeDoc]).nodes =
        tableStep seedTable (.remove snakeDoc) ∧
      ∃ bytes, writtenState (run fsStep (fsSeed (ArmFs.empty unsaved)) [.remove snakeDoc]) =
        some bytes := by
  have hsub := removed_snake.1
  have hfits : Guarded tableStep OpFits seedTable [.remove snakeDoc] := ⟨trivial, trivial⟩
  apply run_seed_written hfits
  apply seedTable_room
  · decide +kernel
  · exact fun node hnode => (seedTable_loadable node (hsub node hnode)).fits
  · exact fun node hnode => (seedTable_loadable node (hsub node hnode)).size_le

end Sessions

end SnsxOS.Arm64
