import SnsxOS.Arm64.Rescan

/-!
# Disks and the unsaved-changes flag

A session with its volumes: file operations, saving, installing, and the choice of a volume in
the disk manager. The flags in `g_persist` speak about one volume; choosing another volume or
rescanning moves them to a volume that need not hold the session's changes.
-/

namespace SnsxOS.Arm64

open Framework

/-- The table with `g_persist_volumes` and what lies on those volumes. -/
structure DiskSession where
  fs : ArmFs
  volumes : List Volume

inductive DiskOp where
  | fs (op : FsOp)
  /-- `persist_flush_state` after an edit -/
  | flush (accepted : Bool)
  /-- SAVE in the shell, the menus and the installer -/
  | save (accepted : Bool)
  /-- an action that saves by itself once a volume is available -/
  | autosave (accepted : Bool)
  | use (index : Nat)
  /-- INSTALL in the shell, the menus and the console disk manager -/
  | install (copied accepted : Bool)
  /-- INSTALL of the graphical disk manager -/
  | installTo (index : Nat) (copied accepted : Bool)
  /-- SAVE of the graphical disk manager -/
  | saveTo (index : Nat) (accepted : Bool)
  /-- RESCAN and RELOAD; the firmware may list other volumes than before -/
  | rescan (volumes : List Volume)

namespace DiskSession

def setPersist (s : DiskSession) (persist : PersistState) : DiskSession :=
  { s with fs := { s.fs with persist := persist } }

def setDirty (s : DiskSession) : DiskSession :=
  s.setPersist { s.fs.persist with dirty := true }

def flush (s : DiskSession) (accepted : Bool) : DiskSession :=
  let result := persistFlushState s.fs s.volumes accepted
  ⟨result.1, result.2⟩

/-- The two assignments of USE. -/
def select (s : DiskSession) (index : Nat) : DiskSession :=
  s.setPersist { s.fs.persist with available := true, volumeIndex := index }

/-- `persist_install_boot_disk`; `copied` tells whether a boot image was found and written. -/
def install (s : DiskSession) (copied accepted : Bool) : DiskSession :=
  if s.fs.persist.available = true ∧ copied = true then
    (s.setPersist { s.fs.persist with installed := true, dirty := true }).flush accepted
  else s

/-- The selected volume exists and is writable. -/
def writableAt (s : DiskSession) (index : Nat) : Bool :=
  match s.volumes[index]? with
  | none => false
  | some volume => volume.writable

end DiskSession

def diskStep (s : DiskSession) : DiskOp → DiskSession
  | .fs op => { s with fs := fsStep s.fs op }
  | .flush accepted => s.flush accepted
  | .save accepted => s.setDirty.flush accepted
  | .autosave accepted =>
      if s.fs.persist.available = true then s.setDirty.flush accepted else s
  | .use index => if index < s.volumes.length then s.select index else s
  | .install copied accepted => s.install copied accepted
  | .installTo index copied accepted =>
      if s.writableAt index then (s.select index).install copied accepted else s
  | .saveTo index accepted =>
      if s.writableAt index then (s.select index).setDirty.flush accepted else s
  | .rescan volumes => ⟨persistDiscover s.fs volumes, volumes⟩

/-- A session after `fs_seed` and the first `persist_discover`. -/
def diskStart (fs : ArmFs) (volumes : List Volume) : DiskSession := ⟨reboot fs volumes, volumes⟩

section Flags

/-- The volume chosen for saving. -/
structure SameTarget (fs fs' : ArmFs) : Prop where
  available : fs'.persist.available = fs.persist.available
  volumeIndex : fs'.persist.volumeIndex = fs.persist.volumeIndex

theorem SameTarget.refl (fs : ArmFs) : SameTarget fs fs := ⟨rfl, rfl⟩

theorem SameTarget.trans {fs fs' fs'' : ArmFs} (h : SameTarget fs fs')
    (h' : SameTarget fs' fs'') : SameTarget fs fs'' :=
  ⟨h'.available.trans h.available, h'.volumeIndex.trans h.volumeIndex⟩

theorem persistMarkDirty_flags (fs : ArmFs) : SameTarget fs fs.persistMarkDirty ∧
    fs.persistMarkDirty.persist.installed = fs.persist.installed := by
  rw [ArmFs.persistMarkDirty]
  split
  · exact ⟨⟨rfl, rfl⟩, rfl⟩
  · exact ⟨⟨rfl, rfl⟩, rfl⟩

/-- Changing files sets the dirty flag at most. -/
theorem Marks.flags {fs fs' : ArmFs} (h : Marks fs fs') : SameTarget fs fs' ∧
    fs'.persist.installed = fs.persist.installed := by
  rcases h with rfl | hmarked
  · exact ⟨SameTarget.refl _, rfl⟩
  · obtain ⟨htarget, hinstalled⟩ := persistMarkDirty_flags fs
    rw [hmarked]
    refine ⟨⟨?_, ?_⟩, hinstalled⟩
    · rw [hmarked]
      exact htarget.available
    · rw [hmarked]
      exact htarget.volumeIndex

theorem restoreNode_eq (fs : ArmFs) (node : FileNode ArmFsType) :
    restoreNode fs node = fsStep fs (loadCall node) := by
  rw [restoreNode, loadCall]
  split
  · rfl
  · rfl

theorem foldl_restoreNode_flags (records : Table) (fs : ArmFs) :
    SameTarget fs (records.foldl restoreNode fs) ∧
      (records.foldl restoreNode fs).persist.installed = fs.persist.installed := by
  induction records generalizing fs with
  | nil => exact ⟨SameTarget.refl fs, rfl⟩
  | cons record records ih =>
    obtain ⟨htarget, hinstalled⟩ := (fsStep_marks fs (loadCall record)).flags
    rw [← restoreNode_eq] at htarget hinstalled
    obtain ⟨hrest, hlast⟩ := ih (restoreNode fs record)
    exact ⟨htarget.trans hrest, hlast.trans hinstalled⟩

theorem applyState_flags (fs : ArmFs) (volumes : List Volume) :
    SameTarget fs (applyState fs volumes) ∧
      (applyState fs volumes).persist.installed = fs.persist.installed := by
  rw [applyState]
  cases foundState volumes with
  | none => exact ⟨SameTarget.refl fs, rfl⟩
  | some bytes =>
    dsimp only
    rw [persistDeserialize_records]
    exact foldl_restoreNode_flags _ fs

theorem persistDiscover_found {volumes : List Volume} {index : Nat}
    (h : volumes.findIdx? holdsState = some index) (fs : ArmFs) :
    (persistDiscover fs volumes).persist = ⟨true, false, true, index⟩ := by
  obtain ⟨htarget, hinstalled⟩ :=
    applyState_flags { fs with persist := ⟨true, false, true, index⟩ } volumes
  rw [persistDiscover, h]
  dsimp only
  rw [htarget.available, htarget.volumeIndex, hinstalled]

/-- The three outcomes of looking for a disk. -/
theorem persistDiscover_cases (fs : ArmFs) (volumes : List Volume) :
    (∃ index volume, volumes[index]? = some volume ∧ volume.writable = true ∧
      (persistDiscover fs volumes).persist = ⟨true, false, true, index⟩ ∧
      ∃ bytes, volume.readState = some bytes ∧ foundState volumes = some bytes) ∨
    (∃ index volume, volumes[index]? = some volume ∧ volume.writable = true ∧
      (persistDiscover fs volumes).persist = ⟨true, false, false, index⟩) ∨
    (persistDiscover fs volumes).persist.available = false := by
  cases hstate : volumes.findIdx? holdsState with
  | some index =>
    left
    obtain ⟨hlt, hholds, hmin⟩ := List.findIdx?_eq_some_iff_getElem.mp hstate
    have hfind : volumes.find? holdsState = some volumes[index] := by
      rw [List.find?_eq_some_iff_getElem]
      exact ⟨hholds, index, hlt, rfl, fun j hj => by simpa using hmin j hj⟩
    rw [holdsState, Bool.and_eq_true] at hholds
    obtain ⟨state, hsome⟩ := Option.isSome_iff_exists.mp hholds.2
    have hread : volumes[index].readState = some (state.take persistMaxStateSize) := by
      rw [Volume.readState, hsome]
      rfl
    refine ⟨index, volumes[index], List.getElem?_eq_getElem hlt, hholds.1,
      persistDiscover_found hstate fs, _, hread, ?_⟩
    rw [foundState, hfind]
    exact hread
  | none =>
    right
    rw [persistDiscover, hstate]
    dsimp only
    cases hwritable : volumes.findIdx? Volume.writable with
    | some index =>
      left
      obtain ⟨hlt, hw, -⟩ := List.findIdx?_eq_some_iff_getElem.mp hwritable
      exact ⟨index, volumes[index], List.getElem?_eq_getElem hlt, hw, rfl⟩
    | none => exact Or.inr rfl

/-- What a flush does: nothing, or it writes the snapshot and clears the flag. -/
theorem flush_cases (s : DiskSession) (accepted : Bool) :
    s.flush accepted = s ∧ (s.fs.persist.available = true → s.fs.persist.dirty = true →
      writtenState s.fs = none ∨ accepted = false) ∨
    (∃ bytes, writtenState s.fs = some bytes ∧ s.flush accepted =
      ⟨{ s.fs with persist := { s.fs.persist with dirty := false, installed := true } },
        s.volumes.modify s.fs.persist.volumeIndex fun v => { v with state := some bytes }⟩) := by
  rw [DiskSession.flush, persistFlushState]
  cases hwritten : writtenState s.fs with
  | none => exact Or.inl ⟨rfl, fun _ _ => Or.inl rfl⟩
  | some bytes =>
    dsimp only
    cases accepted with
    | false => exact Or.inl ⟨rfl, fun _ _ => Or.inr rfl⟩
    | true => exact Or.inr ⟨bytes, rfl, rfl⟩

end Flags

section Target

/-- A volume that saving is enabled for is listed and writable. -/
def WritesWritable (s : DiskSession) : Prop :=
  s.fs.persist.available = true →
    ∃ volume, s.volumes[s.fs.persist.volumeIndex]? = some volume ∧ volume.writable = true

/-- USE is given a writable volume. -/
def UsesWritable (s : DiskSession) : DiskOp → Prop
  | .use index => ∀ volume, s.volumes[index]? = some volume → volume.writable = true
  | _ => True

theorem WritesWritable.setFlags {s : DiskSession} (h : WritesWritable s)
    (dirty installed : Bool) : WritesWritable
      (s.setPersist { s.fs.persist with dirty := dirty, installed := installed }) := h

theorem WritesWritable.setDirty {s : DiskSession} (h : WritesWritable s) :
    WritesWritable s.setDirty := h

theorem WritesWritable.flush {s : DiskSession} (h : WritesWritable s) (accepted : Bool) :
    WritesWritable (s.flush accepted) := by
  rcases flush_cases s accepted with ⟨hsame, -⟩ | ⟨bytes, -, hflush⟩
  · rw [hsame]
    exact h
  · rw [hflush]
    intro havail
    obtain ⟨volume, hvolume, hwritable⟩ := h havail
    refine ⟨{ volume with state := some bytes }, ?_, hwritable⟩
    dsimp only
    rw [List.getElem?_modify_eq, hvolume]
    rfl

theorem WritesWritable.install {s : DiskSession} (h : WritesWritable s)
    (copied accepted : Bool) : WritesWritable (s.install copied accepted) := by
  rw [DiskSession.install]
  split
  · exact (h.setFlags true true).flush accepted
  · exact h

theorem select_writesWritable {s : DiskSession} {index : Nat} {volume : Volume}
    (hvolume : s.volumes[index]? = some volume) (hwritable : volume.writable = true) :
    WritesWritable (s.select index) := fun _ => ⟨volume, hvolume, hwritable⟩

theorem writableAt_iff {s : DiskSession} {index : Nat} : s.writableAt index = true ↔
    ∃ volume, s.volumes[index]? = some volume ∧ volume.writable = true := by
  rw [DiskSession.writableAt]
  cases s.volumes[index]? with
  | none => simp
  | some volume => simp

theorem persistDiscover_writesWritable (fs : ArmFs) (volumes : List Volume) :
    WritesWritable ⟨persistDiscover fs volumes, volumes⟩ := by
  rcases persistDiscover_cases fs volumes with ⟨index, volume, hvolume, hwritable, hpersist, -⟩ |
    ⟨index, volume, hvolume, hwritable, hpersist⟩ | hnone
  · intro _
    dsimp only
    rw [hpersist]
    exact ⟨volume, hvolume, hwritable⟩
  · intro _
    dsimp only
    rw [hpersist]
    exact ⟨volume, hvolume, hwritable⟩
  · intro havail
    exact absurd (hnone.symm.trans havail) Bool.false_ne_true

theorem diskStep_writesWritable {s : DiskSession} (h : WritesWritable s) (op : DiskOp)
    (hop : UsesWritable s op) : WritesWritable (diskStep s op) := by
  cases op with
  | fs op =>
    intro havail
    obtain ⟨htarget, -⟩ := (fsStep_marks s.fs op).flags
    dsimp only [diskStep] at havail ⊢
    rw [htarget.volumeIndex]
    exact h (htarget.available.symm.trans havail)
  | flush accepted => exact h.flush accepted
  | save accepted => exact h.setDirty.flush accepted
  | autosave accepted =>
    rw [diskStep]
    split
    · exact h.setDirty.flush accepted
    · exact h
  | use index =>
    rw [diskStep]
    split
    · rename_i hlt
      exact select_writesWritable (List.getElem?_eq_getElem hlt)
        (hop _ (List.getElem?_eq_getElem hlt))
    · exact h
  | install copied accepted => exact h.install copied accepted
  | installTo index copied accepted =>
    rw [diskStep]
    split
    · rename_i hat
      obtain ⟨volume, hvolume, hwritable⟩ := writableAt_iff.mp hat
      exact (select_writesWritable hvolume hwritable).install copied accepted
    · exact h
  | saveTo index accepted =>
    rw [diskStep]
    split
    · rename_i hat
      obtain ⟨volume, hvolume, hwritable⟩ := writableAt_iff.mp hat
      exact (select_writesWritable hvolume hwritable).setDirty.flush accepted
    · exact h
  | rescan volumes => exact persistDiscover_writesWritable s.fs volumes

/-- As long as USE is given writable volumes, saving is only ever enabled for one of them. -/
theorem disk_writesWritable (fs : ArmFs) (volumes : List Volume) (ops : List DiskOp)
    (h : Guarded diskStep UsesWritable (diskStart fs volumes) ops) :
    WritesWritable (run diskStep (diskStart fs volumes) ops) := by
  have hstart : WritesWritable (diskStart fs volumes) :=
    persistDiscover_writesWritable (fsSeed fs) volumes
  exact run_invariant_of_guarded (I := WritesWritable)
    (fun _ op hs hop => diskStep_writesWritable hs op hop) hstart ops h

/-- An empty disk is chosen, installed to and saved to. -/
theorem disk_writesWritable_empty :
    WritesWritable (run diskStep (diskStart (ArmFs.empty unsaved) [⟨true, none⟩])
      [.use 0, .install true true, .save true]) := by
  apply disk_writesWritable
  rw [diskStart]
  generalize reboot (ArmFs.empty unsaved) [⟨true, none⟩] = fs
  refine ⟨fun volume hvolume => ?_, trivial, trivial, trivial⟩
  rw [← Option.some.inj hvolume]

/-- USE enables saving for a read-only volume. -/
theorem not_disk_writesWritable : ¬ ∀ (fs : ArmFs) (volumes : List Volume) (ops : List DiskOp),
    WritesWritable (run diskStep (diskStart fs volumes) ops) := by
  intro h
  have hused := h (ArmFs.empty unsaved) [⟨false, none⟩] [.use 0]
  rw [diskStart] at hused
  generalize reboot (ArmFs.empty unsaved) [⟨false, none⟩] = fs at hused
  obtain ⟨volume, hvolume, hwritable⟩ := hused rfl
  rw [← Option.some.inj hvolume] at hwritable
  cases hwritable

end Target

section Clean

/-- What the snapshot of the volume contains. -/
def volumeRecords (volume : Volume) : Table :=
  match volume.readState with
  | none => []
  | some bytes => stateRecords (2 ^ 16) bytes

/-- The files that are not as `fs_seed` writes them are among the records. -/
def HoldsChanges (records table : Table) : Prop :=
  ∀ node ∈ table, node.type = .text → node ∉ seedTable → node ∈ records

/-- An installed disk without unsaved changes holds the changed files. -/
def CleanSaved (s : DiskSession) : Prop :=
  s.fs.persist.available = true → s.fs.persist.installed = true → s.fs.persist.dirty = false →
    ∃ volume, s.volumes[s.fs.persist.volumeIndex]? = some volume ∧
      HoldsChanges (volumeRecords volume) s.fs.nodes

/-- USE of a volume for a session that counts as saved. -/
def UseKeepsClean (s : DiskSession) (index : Nat) : Prop :=
  s.fs.persist.dirty = true ∨ s.fs.persist.installed = false ∨
    ∀ volume, s.volumes[index]? = some volume → HoldsChanges (volumeRecords volume) s.fs.nodes

/-- Each changed file has a record in the snapshot, which then replaces it. -/
def Recorded (records table : Table) : Prop :=
  ∀ (slot : Nat) node, table[slot]? = some node → node.type = .text → node ∉ seedTable →
    slotOf FileNode.path table node.path = some slot ∧ node.path.head? = some slash ∧
      (lastWritten records node.path).isSome

/-- The volume that is chosen, or the snapshot that is loaded, knows every changed file. -/
def KeepsClean (s : DiskSession) : DiskOp → Prop
  | .use index => index < s.volumes.length → UseKeepsClean s index
  | .installTo index copied _ =>
      copied = false → s.writableAt index = true → UseKeepsClean s index
  | .rescan volumes => foundState volumes ≠ none → Recorded (foundRecords volumes) s.fs.nodes
  | _ => True

/-- The invariant of a session: entries are in order, an available volume is listed, and a clean
flag means saved. -/
structure DiskOk (s : DiskSession) : Prop where
  sized : AllEntries Sized s.fs
  listed : s.fs.persist.available = true → s.fs.persist.volumeIndex < s.volumes.length
  clean : CleanSaved s

theorem movesTo_true (op : FsOp) : op.MovesTo fun _ => True := by
  cases op <;> trivial

theorem fsStep_sized {fs : ArmFs} (h : AllEntries Sized fs) (op : FsOp) :
    AllEntries Sized (fsStep fs op) := fsStep_allEntries sized_invariant h op (movesTo_true op)

theorem foldl_restoreNode_sized {fs : ArmFs} (h : AllEntries Sized fs) (records : Table) :
    AllEntries Sized (records.foldl restoreNode fs) := by
  induction records generalizing fs with
  | nil => exact h
  | cons record records ih =>
    rw [List.foldl_cons, restoreNode_eq]
    exact ih (fsStep_sized h _)

theorem applyState_sized {fs : ArmFs} (h : AllEntries Sized fs) (volumes : List Volume) :
    AllEntries Sized (applyState fs volumes) := by
  rw [applyState]
  cases foundState volumes with
  | none => exact h
  | some bytes =>
    dsimp only
    rw [persistDeserialize_records]
    exact foldl_restoreNode_sized h _

theorem persistDiscover_sized {fs : ArmFs} (h : AllEntries Sized fs) (volumes : List Volume) :
    AllEntries Sized (persistDiscover fs volumes) := by
  rw [persistDiscover]
  cases volumes.findIdx? holdsState with
  | some index =>
    have hfs : AllEntries Sized { fs with persist := ⟨true, false, true, index⟩ } := h
    exact applyState_sized hfs volumes
  | none =>
    dsimp only
    split
    · exact h
    · exact h

theorem DiskOk.fs {s : DiskSession} (h : DiskOk s) (op : FsOp) : DiskOk (diskStep s (.fs op)) := by
  obtain ⟨htarget, hinstalled⟩ := (fsStep_marks s.fs op).flags
  refine ⟨fsStep_sized h.sized op, ?_, ?_⟩
  · intro havail
    dsimp only [diskStep] at havail ⊢
    rw [htarget.volumeIndex]
    exact h.listed (htarget.available.symm.trans havail)
  · intro havail hinst hdirty
    dsimp only [diskStep] at havail hinst hdirty ⊢
    rcases fsStep_marks s.fs op with hsame | hmarked
    · rw [hsame] at havail hinst hdirty ⊢
      exact h.clean havail hinst hdirty
    · have hwas := htarget.available.symm.trans havail
      rw [hmarked, ArmFs.persistMarkDirty, if_pos hwas] at hdirty
      cases hdirty

/-- Saving writes every file. -/
theorem DiskOk.flush {s : DiskSession} (hsized : AllEntries Sized s.fs)
    (hlisted : s.fs.persist.available = true → s.fs.persist.volumeIndex < s.volumes.length)
    (hclean : s.fs.persist.dirty = true ∨ CleanSaved s) (accepted : Bool) :
    DiskOk (s.flush accepted) := by
  rcases flush_cases s accepted with ⟨hsame, -⟩ | ⟨bytes, hwritten, hflush⟩
  · rw [hsame]
    refine ⟨hsized, hlisted, ?_⟩
    rcases hclean with hdirty | hclean
    · intro _ _ hc
      rw [hdirty] at hc
      cases hc
    · exact hclean
  · have hbytes := writtenState_eq_some hwritten
    rw [hflush]
    refine ⟨hsized, fun havail => ?_, fun havail _ _ => ?_⟩
    · dsimp only
      rw [List.length_modify]
      exact hlisted havail
    · have hlt := hlisted havail
      refine ⟨{ s.volumes[s.fs.persist.volumeIndex] with state := some bytes }, ?_, ?_⟩
      · dsimp only
        rw [List.getElem?_modify_eq, List.getElem?_eq_getElem hlt]
        rfl
      · have hlen := persistSerialize_length hsized hbytes
        intro node hnode _ _
        rw [volumeRecords, Volume.readState]
        dsimp only [Option.map_some]
        rw [List.take_of_length_le hlen, stateRecords_serialize hsized hbytes]
        exact hnode

theorem DiskOk.setDirty {s : DiskSession} (h : DiskOk s) (accepted : Bool) :
    DiskOk (s.setDirty.flush accepted) :=
  DiskOk.flush (s := s.setDirty) h.sized h.listed (Or.inl rfl) accepted

/-- Choosing a listed volume. -/
theorem DiskOk.select {s : DiskSession} (h : DiskOk s) {index : Nat}
    (hlt : index < s.volumes.length) (hkeeps : UseKeepsClean s index) :
    DiskOk (s.select index) := by
  refine ⟨h.sized, fun _ => hlt, fun _ hinstalled hdirty => ?_⟩
  rcases hkeeps with hd | hi | hholds
  · exact absurd (hd.symm.trans hdirty) (by decide)
  · exact absurd (hi.symm.trans hinstalled) (by decide)
  · exact ⟨s.volumes[index], List.getElem?_eq_getElem hlt,
      hholds _ (List.getElem?_eq_getElem hlt)⟩

theorem DiskOk.install {s : DiskSession} (h : DiskOk s) (copied accepted : Bool) :
    DiskOk (s.install copied accepted) := by
  rw [DiskSession.install]
  split
  · exact DiskOk.flush
      (s := s.setPersist { s.fs.persist with installed := true, dirty := true })
      h.sized h.listed (Or.inl rfl) accepted
  · exact h

/-- A replay leaves changed files that are recorded only. -/
theorem foldl_loadNode_holds {table records : Table} (h : Recorded records table) :
    HoldsChanges records (records.foldl loadNode table) := by
  intro node hnode htext hseed
  obtain ⟨slot, hslot, rfl⟩ := List.mem_iff_getElem.mp hnode
  by_cases hold : slot < table.length
  · have hmerged := getElem?_foldl_loadNode records (List.getElem?_eq_getElem hold)
    rw [List.getElem?_eq_getElem hslot] at hmerged
    have heq := Option.some.inj hmerged
    rw [heq] at htext hseed ⊢
    rw [merged_type] at htext
    rw [merged] at hseed ⊢
    by_cases hfile : slotOf FileNode.path table table[slot].path = some slot ∧
        table[slot].type = .text ∧ table[slot].path.head? = some slash
    · rw [if_pos hfile] at hseed ⊢
      cases hdata : lastWritten records table[slot].path with
      | some data =>
        rw [Option.getD_some, htext]
        exact mem_of_lastWritten hdata
      | none =>
        rw [hdata, Option.getD_none] at hseed
        obtain ⟨-, -, hsome⟩ := h slot _ (List.getElem?_eq_getElem hold) htext hseed
        rw [hdata] at hsome
        cases hsome
    · rw [if_neg hfile] at hseed ⊢
      obtain ⟨hfirst, habs, -⟩ := h slot _ (List.getElem?_eq_getElem hold) htext hseed
      exact absurd ⟨hfirst, htext, habs⟩ hfile
  · have hmem : (records.foldl loadNode table)[slot] ∈
        (records.foldl loadNode table).drop table.length := by
      rw [List.mem_iff_getElem]
      refine ⟨slot - table.length, by rw [List.length_drop]; omega, ?_⟩
      rw [List.getElem_drop]
      congr 1
      omega
    rcases mem_drop_foldl_loadNode records hmem with hdir | hrecord
    · rw [htext] at hdir
      cases hdir
    · exact hrecord

theorem persistDiscover_ok {fs : ArmFs} (hsized : AllEntries Sized fs) {volumes : List Volume}
    (h : foundState volumes ≠ none → Recorded (foundRecords volumes) fs.nodes) :
    DiskOk ⟨persistDiscover fs volumes, volumes⟩ := by
  refine ⟨persistDiscover_sized hsized volumes, ?_, ?_⟩
  · intro havail
    obtain ⟨volume, hvolume, -⟩ := persistDiscover_writesWritable fs volumes havail
    exact (List.getElem?_eq_some_iff.mp hvolume).1
  · intro havail hinstalled hdirty
    dsimp only at havail hinstalled ⊢
    rcases persistDiscover_cases fs volumes with
      ⟨index, volume, hvolume, -, hpersist, bytes, hread, hfound⟩ |
      ⟨index, volume, -, -, hpersist⟩ | hnone
    · rw [hpersist]
      have hholds := foldl_loadNode_holds (h (by rw [hfound]; exact Option.some_ne_none _))
      rw [foundRecords, hfound] at hholds
      refine ⟨volume, hvolume, ?_⟩
      rw [persistDiscover_records, volumeRecords, hread, foundRecords, hfound]
      intro node hnode htext hseed
      exact (stateRecords_mono (by decide) bytes).subset (hholds node hnode htext hseed)
    · rw [hpersist] at hinstalled
      cases hinstalled
    · exact absurd (hnone.symm.trans havail) (by decide)

/-- Selecting a volume and then saving to it, installed or not. -/
theorem DiskOk.selectThen {s : DiskSession} (h : DiskOk s) {index : Nat}
    (hat : s.writableAt index = true) : AllEntries Sized (s.select index).fs ∧
      ((s.select index).fs.persist.available = true →
        (s.select index).fs.persist.volumeIndex < (s.select index).volumes.length) := by
  obtain ⟨volume, hvolume, -⟩ := writableAt_iff.mp hat
  exact ⟨h.sized, fun _ => (List.getElem?_eq_some_iff.mp hvolume).1⟩

theorem diskStep_ok {s : DiskSession} (h : DiskOk s) (op : DiskOp) (hop : KeepsClean s op) :
    DiskOk (diskStep s op) := by
  cases op with
  | fs op => exact h.fs op
  | flush accepted => exact DiskOk.flush h.sized h.listed (Or.inr h.clean) accepted
  | save accepted => exact h.setDirty accepted
  | autosave accepted =>
    rw [diskStep]
    split
    · exact h.setDirty accepted
    · exact h
  | use index =>
    rw [diskStep]
    split
    · rename_i hlt
      exact h.select hlt (hop hlt)
    · exact h
  | install copied accepted => exact h.install copied accepted
  | installTo index copied accepted =>
    rw [diskStep]
    split
    · rename_i hat
      obtain ⟨hsized, hlisted⟩ := h.selectThen hat
      cases copied with
      | true =>
        rw [DiskSession.install, if_pos ⟨rfl, rfl⟩]
        exact DiskOk.flush (s := (s.select index).setPersist
            { (s.select index).fs.persist with installed := true, dirty := true })
          hsized hlisted (Or.inl rfl) accepted
      | false =>
        rw [DiskSession.install, if_neg fun hc => Bool.false_ne_true hc.2]
        obtain ⟨volume, hvolume, -⟩ := writableAt_iff.mp hat
        exact h.select (List.getElem?_eq_some_iff.mp hvolume).1 (hop rfl hat)
    · exact h
  | saveTo index accepted =>
    rw [diskStep]
    split
    · rename_i hat
      obtain ⟨hsized, hlisted⟩ := h.selectThen hat
      exact DiskOk.flush (s := (s.select index).setDirty) hsized hlisted (Or.inl rfl) accepted
    · exact h
  | rescan volumes => exact persistDiscover_ok h.sized hop

/-- A table of nothing but seeded files has no changes to lose. -/
theorem recorded_seedTable (records : Table) : Recorded records seedTable :=
  fun _ _ hnode _ hseed => absurd (List.mem_of_getElem? hnode) hseed

theorem diskStart_ok (fs : ArmFs) (volumes : List Volume) : DiskOk (diskStart fs volumes) := by
  have hsized := run_seed_sized fs []
  rw [run_nil] at hsized
  have hnodes := (fsSeed_nodes fs).1
  rw [diskStart, reboot]
  generalize fsSeed fs = seeded at *
  apply persistDiscover_ok hsized
  intro _
  rw [hnodes]
  exact recorded_seedTable _

/-- In every session that loads snapshots and chooses volumes that know its changes, a clean flag
means that the active volume holds them. -/
theorem disk_cleanSaved (fs : ArmFs) (volumes : List Volume) (ops : List DiskOp)
    (h : Guarded diskStep KeepsClean (diskStart fs volumes) ops) :
    CleanSaved (run diskStep (diskStart fs volumes) ops) :=
  (run_invariant_of_guarded (I := DiskOk) (fun _ op hs hop => diskStep_ok hs op hop)
    (diskStart_ok fs volumes) ops h).clean

theorem diskStart_uninstalled {volumes : List Volume}
    (h : volumes.findIdx? holdsState = none) (fs : ArmFs)
    (hwritable : volumes.findIdx? Volume.writable ≠ none) :
    (diskStart fs volumes).fs.persist.installed = false := by
  rw [diskStart, reboot, persistDiscover, h]
  dsimp only
  cases hindex : volumes.findIdx? Volume.writable with
  | some index => rfl
  | none => exact absurd hindex hwritable

/-- A note is written to an empty disk. -/
theorem disk_cleanSaved_note :
    CleanSaved (run diskStep (diskStart (ArmFs.empty unsaved) [⟨true, none⟩])
      [.use 0, .fs (.write note (ascii "old") .text), .save true]) := by
  apply disk_cleanSaved
  have hinstalled : (diskStart (ArmFs.empty unsaved) [⟨true, none⟩]).fs.persist.installed =
      false := diskStart_uninstalled (by decide) _ (by decide)
  exact ⟨fun _ => Or.inr (Or.inl hinstalled), trivial, trivial, trivial⟩

/-- A disk with an empty snapshot. -/
def blankDisk : Volume := ⟨true, some (persistHeader 0)⟩

theorem blankDisk_records : [blankDisk].findIdx? holdsState = some 0 ∧
    foundRecords [blankDisk] = [] ∧ volumeRecords blankDisk = [] := by
  decide

/-- The note fits behind the seeded entries. -/
theorem seedTable_note : (tableWrite seedTable note (ascii "old") .text).2 =
    seedTable ++ [⟨note, .text, ascii "old"⟩] := by
  have hslot : slotOf FileNode.path seedTable note = none := by decide +kernel
  have hroom : canPush seedTable note = true := by decide +kernel
  have hgood : ¬ (note.head? ≠ some slash ∨ fsMaxFileSize < (ascii "old").length ∨
      ArmFsType.text = .dir) := by decide
  rw [tableWrite, if_neg hgood, hslot]
  dsimp only
  rw [if_pos hroom]

/-- Rescanning after the note was written clears the flag and the disk knows nothing of it. -/
theorem rescan_not_cleanSaved {fs : ArmFs} (hseed : fs.nodes = seedTable) :
    ¬ CleanSaved (run diskStep ⟨fs, [blankDisk]⟩
      [.fs (.write note (ascii "old") .text), .rescan [blankDisk]]) := by
  obtain ⟨hindex, hrecords, hvolume⟩ := blankDisk_records
  have hnoted : (fsWrite fs note (ascii "old") .text).2.nodes =
      seedTable ++ [⟨note, .text, ascii "old"⟩] := by
    rw [fsWrite_nodes (by decide) (by decide), hseed, seedTable_note]
  rw [run_cons, run_cons, run_nil, diskStep, diskStep, fsStep, fsCall]
  generalize (fsWrite fs note (ascii "old") .text).2 = edited at hnoted ⊢
  have hpersist := persistDiscover_found hindex edited
  have hkept : (persistDiscover edited [blankDisk]).nodes = edited.nodes := by
    rw [persistDiscover_records, hrecords, List.foldl_nil]
  intro hclean
  rw [CleanSaved] at hclean
  dsimp only at hclean
  rw [hpersist, hkept, hnoted] at hclean
  obtain ⟨volume, hlisted, hholds⟩ := hclean rfl rfl rfl
  obtain rfl : blankDisk = volume := Option.some.inj hlisted
  rw [hvolume] at hholds
  have hnew : (⟨note, .text, ascii "old"⟩ : FileNode ArmFsType) ∉ seedTable := by
    intro hmem
    have hfresh : note ∉ seedTable.map FileNode.path := by decide +kernel
    exact hfresh (List.mem_map_of_mem hmem)
  exact absurd (hholds _ (List.mem_append_right _ (List.mem_singleton_self _)) rfl hnew)
    List.not_mem_nil

theorem not_disk_cleanSaved : ¬ ∀ (fs : ArmFs) (volumes : List Volume) (ops : List DiskOp),
    CleanSaved (run diskStep (diskStart fs volumes) ops) := by
  intro h
  have hstart : (reboot (ArmFs.empty unsaved) [blankDisk]).nodes = seedTable := by
    rw [reboot, persistDiscover_records, blankDisk_records.2.1, List.foldl_nil]
    exact (fsSeed_nodes _).1
  exact rescan_not_cleanSaved hstart (h (ArmFs.empty unsaved) [blankDisk] _)

end Clean

end SnsxOS.Arm64
