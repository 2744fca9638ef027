import SnsxOS.Arm64.Browser
import SnsxOS.Arm64.Rescan
import SnsxOS.Arm64.Restore
import SnsxOS.Arm64.Store
import SnsxOS.Arm64.Studio

/-!
# The boot sequence

After the snapshot has been restored, each part of the desktop loads its state and some of them
write files. A stage changes files at its own paths only; what becomes of a saved file is then
read off from the two stages that may touch it: the restore and the one that owns its path.
-/

namespace SnsxOS.Arm64

open Framework

/-- What `efi_main` has loaded when the desktop starts. -/
structure Session where
  fs : ArmFs
  desktop : Desktop
  wireless : WirelessProfiles
  installed : List Bool
  browser : BrowserState
  studio : Studio

def bootSession (fs : ArmFs) (volumes : List Volume) : Session :=
  let desktop := desktopLoadConfig (reboot fs volumes)
  let wireless := wirelessProfilesLoad desktop.2
  let store := storeLoadState desktop.2
  let browser := browserBoot store.2 volumes
  let studio := studioStateLoad (studioSeedWorkspace browser.fs)
  ⟨studio.2, desktop.1, wireless, store.1, browser.browser, studio.1⟩

/-- The files that hold the state of the desktop. -/
def statePaths : List Bytes :=
  [desktopPath, wifiPath, bluetoothPath, storePath, browserStatePath, studioPath]

def assetPaths : List Bytes := storeCatalog.map StorePackage.assetPath

def workspacePaths : List Bytes := workspaceFiles.map Prod.fst

section Frame

variable {written written' : List Bytes} {table table' table'' : Table} {node : FileNode ArmFsType}

/-- From one table to the next the paths stay distinct, and only files at the given paths come,
go or change. -/
structure Edits (written : List Bytes) (table table' : Table) : Prop where
  nodup : (table'.map FileNode.path).Nodup
  files : ∀ node, node.type = .text → node.path ∉ written → (node ∈ table' ↔ node ∈ table)

theorem Edits.same (written : List Bytes) (h : (table.map FileNode.path).Nodup) :
    Edits written table table := ⟨h, fun _ _ _ => Iff.rfl⟩

theorem Edits.trans (h : Edits written table table') (h' : Edits written table' table'') :
    Edits written table table'' :=
  ⟨h'.nodup, fun node htext hother =>
    (h'.files node htext hother).trans (h.files node htext hother)⟩

theorem Edits.mono (hsub : written ⊆ written') (h : Edits written table table') :
    Edits written' table table' :=
  ⟨h.nodup, fun node htext hother => h.files node htext fun hpath => hother (hsub hpath)⟩

/-- Loading a file changes that file only; loading a directory changes none. -/
theorem loadNode_edits (hnodup : (table.map FileNode.path).Nodup) (record : FileNode ArmFsType)
    (hwritten : record.type = .text → record.path ∈ written) :
    Edits written table (loadNode table record) := by
  cases loadNode_effect table record with
  | skipped _ hsame =>
    rw [hsame]
    exact Edits.same written hnodup
  | pushed _ habsent _ hpush =>
    rw [hpush]
    constructor
    · rw [List.map_append, List.map_singleton, ← List.concat_eq_append, stripped_path]
      exact hnodup.concat habsent
    · intro node htext hother
      rw [List.mem_append, List.mem_singleton]
      refine or_iff_left ?_
      rintro rfl
      rw [stripped_type] at htext
      rw [stripped_path] at hother
      exact hother (hwritten htext)
  | stored _ slot hfirst hslot _ htext hstore =>
    have hpath := (slotOf_eq_some hfirst).2
    rw [hstore]
    constructor
    · rw [map_set hslot hpath.symm]
      exact hnodup
    · intro node _ hother
      apply mem_set_iff hslot _ hpath
      intro heq
      rw [heq] at hother
      exact hother (hwritten htext)

theorem tableRemove_edits (hnodup : (table.map FileNode.path).Nodup) {path : Bytes}
    (hwritten : path ∈ written) : Edits written table (tableRemove table path).2 := by
  rw [tableRemove]
  split
  · exact Edits.same written hnodup
  · split
    · exact Edits.same written hnodup
    · rename_i slot hslot
      rcases slotOf_eq_some hslot with ⟨hlt, hpath⟩
      split
      · exact Edits.same written hnodup
      · constructor
        · exact hnodup.sublist ((List.eraseIdx_sublist table slot).map FileNode.path)
        · intro node _ hother
          have hne : node.path ≠ table[slot].path := by
            intro heq
            rw [heq, hpath] at hother
            exact hother hwritten
          exact mem_eraseIdx_iff hlt hne

end Frame

section Calls

variable {written : List Bytes} {fs : ArmFs} {path data : Bytes}

theorem fsRemove_nodes (fs : ArmFs) (path : Bytes) :
    (fsRemove fs path).2.nodes = (tableRemove fs.nodes path).2 := by
  rw [fsRemove, tableRemove]
  split
  · rfl
  · rw [← fsFind_nodes]
    cases fsFind fs path with
    | none => rfl
    | some slot =>
      dsimp only
      rw [typeAt_nodes, fsHasChildren_nodes]
      split
      · rfl
      · rw [persistMarkDirty_nodes]
        exact (List.eraseIdx_map _ _ _).symm

theorem fsMkdir_edits (hnodup : (fs.nodes.map FileNode.path).Nodup) (hpath : NulFree path)
    (written : List Bytes) : Edits written fs.nodes (fsMkdir fs path).2.nodes := by
  have hload : loadNode fs.nodes ⟨path, .dir, []⟩ = (tableMkdir fs.nodes path).2 := by
    rw [loadNode, if_pos rfl]
  rw [fsMkdir_nodes hpath, ← hload]
  apply loadNode_edits hnodup
  intro htext
  cases htext

/-- A path that is written to is a C string that fits its field. -/
def PathOk (path : Bytes) : Prop := NulFree path ∧ path.length < fsPathMax

instance : DecidablePred PathOk := fun path =>
  inferInstanceAs (Decidable (NulFree path ∧ path.length < fsPathMax))

theorem fsWrite_load (hpath : PathOk path) :
    (fsWrite fs path data .text).2.nodes = loadNode fs.nodes ⟨path, .text, data⟩ := by
  rw [fsWrite_nodes hpath.1 hpath.2, loadNode, if_neg]
  intro hdir
  cases hdir

theorem fsWrite_edits (hnodup : (fs.nodes.map FileNode.path).Nodup) (hpath : PathOk path)
    (hwritten : path ∈ written) : Edits written fs.nodes (fsWrite fs path data .text).2.nodes := by
  rw [fsWrite_load hpath]
  exact loadNode_edits hnodup ⟨path, .text, data⟩ fun _ => hwritten

/-- Nothing is written when the file is there with the data. -/
theorem fsWriteIfChanged_cases (fs : ArmFs) (path data : Bytes) :
    (fsWriteIfChanged fs path data .text = (true, fs) ∧
        lookup FileNode.path fs.nodes path = some ⟨path, .text, data⟩) ∨
      fsWriteIfChanged fs path data .text = fsWrite fs path data .text := by
  rw [fsWriteIfChanged]
  cases hentry : fsEntry fs path with
  | none => exact Or.inr rfl
  | some entry =>
    dsimp only
    split
    · rename_i hsame
      rcases hsame with ⟨htype, hsize, hdata⟩
      have hkey := (mem_of_lookup hentry).2
      have hbytes : entry.bytes = data := by
        rcases hdata with hempty | hbytes
        · rw [ArmFsEntry.bytes, hsize, hempty, List.eq_nil_of_length_eq_zero hempty]
          simp [Buffer.read]
        · exact hbytes
      have hnode : entry.node = ⟨path, .text, data⟩ := by
        rw [ArmFsEntry.node, hkey, htype, hbytes]
      left
      rw [fsEntry_nodes, hentry, Option.map_some, hnode]
      exact ⟨rfl, rfl⟩
    · exact Or.inr rfl

theorem fsWriteIfChanged_edits (hnodup : (fs.nodes.map FileNode.path).Nodup) (hpath : PathOk path)
    (hwritten : path ∈ written) :
    Edits written fs.nodes (fsWriteIfChanged fs path data .text).2.nodes := by
  rcases fsWriteIfChanged_cases fs path data with ⟨hsame, -⟩ | hwrite
  · rw [hsame]
    exact Edits.same written hnodup
  · rw [hwrite]
    exact fsWrite_edits hnodup hpath hwritten

/-- A file that is there has the data afterwards. -/
theorem fsWriteIfChanged_stores (hpath : PathOk path) (habsolute : path.head? = some slash)
    (hdata : data.length ≤ fsMaxFileSize) {node : FileNode ArmFsType}
    (hnodup : (fs.nodes.map FileNode.path).Nodup) (hnode : node ∈ fs.nodes)
    (hkey : node.path = path) (htext : node.type = .text) :
    ⟨path, .text, data⟩ ∈ (fsWriteIfChanged fs path data .text).2.nodes := by
  rcases fsWriteIfChanged_cases fs path data with ⟨hsame, hfound⟩ | hwrite
  · rw [hsame]
    exact (mem_of_lookup hfound).1
  · rw [hwrite, fsWrite_load hpath]
    have hload : Loadable ⟨path, .text, data⟩ := by
      refine ⟨habsolute, hpath.2, hdata, ?_⟩
      intro hdir
      cases hdir
    cases loadNode_effect fs.nodes ⟨path, .text, data⟩ with
    | skipped hwhy _ =>
      cases hwhy with
      | unfit hbad => exact absurd hload.storable hbad
      | taken slot hfirst hslot hdir =>
        have hfound : fs.nodes[slot] = node := List.inj_on_of_nodup_map hnodup
          (List.getElem_mem hslot) hnode ((slotOf_eq_some hfirst).2.trans hkey.symm)
        rw [hfound, htext] at hdir
        rcases hdir with hdir | hdir
        · cases hdir
        · cases hdir
      | refused habsent _ =>
        rw [← hkey] at habsent
        exact absurd (List.mem_map_of_mem hnode) habsent
    | pushed _ _ _ hpush =>
      rw [hpush, hload.stripped]
      simp
    | stored _ slot _ hslot _ _ hstore =>
      rw [hstore]
      exact List.mem_set hslot _

/-- What each call of a loop changes, the loop changes. -/
theorem foldl_edits {α : Type*} (written : List Bytes) (step : ArmFs → α → ArmFs) {items : List α}
    (hstep : ∀ item ∈ items, ∀ fs : ArmFs, (fs.nodes.map FileNode.path).Nodup →
      Edits written fs.nodes (step fs item).nodes)
    (hnodup : (fs.nodes.map FileNode.path).Nodup) :
    Edits written fs.nodes (items.foldl step fs).nodes := by
  induction items generalizing fs with
  | nil => exact Edits.same written hnodup
  | cons item items ih =>
    have hfirst := hstep item (by simp) fs hnodup
    have hrest := ih (fun m hm => hstep m (by simp [hm])) hfirst.nodup
    exact hfirst.trans hrest

end Calls

section Stages

variable {fs : ArmFs} {written : List Bytes}

/-- The paths that the stages of the boot write to and make. -/
theorem bootPaths_ok :
    (∀ path ∈ statePaths, PathOk path) ∧ (∀ path ∈ assetPaths, PathOk path) ∧
      (∀ path ∈ workspacePaths, PathOk path ∧ path.head? = some slash) ∧ workspacePaths.Nodup ∧
      ∀ path ∈ [ascii "/apps", ascii "/drivers", ascii "/games", ascii "/kits"], NulFree path := by
  decide +kernel

theorem statePaths_ok : ∀ path ∈ statePaths, PathOk path := bootPaths_ok.1

theorem assetPaths_ok : ∀ path ∈ assetPaths, PathOk path := bootPaths_ok.2.1

theorem workspacePaths_ok : ∀ path ∈ workspacePaths, PathOk path ∧ path.head? = some slash :=
  bootPaths_ok.2.2.1

theorem desktopLoadConfig_edits (hnodup : (fs.nodes.map FileNode.path).Nodup) :
    Edits statePaths fs.nodes (desktopLoadConfig fs).2.nodes := by
  have hpath : desktopPath ∈ statePaths := by simp [statePaths]
  rw [desktopLoadConfig, desktopSaveConfig]
  exact fsWrite_edits hnodup (statePaths_ok _ hpath) hpath

theorem storeSyncPackage_edits (hnodup : (fs.nodes.map FileNode.path).Nodup)
    {entry : StorePackage × Bool} (hpkg : entry.1 ∈ storeCatalog) :
    Edits assetPaths fs.nodes (storeSyncPackage fs entry).nodes := by
  have hpath : entry.1.assetPath ∈ assetPaths := List.mem_map_of_mem hpkg
  rw [storeSyncPackage]
  split
  · exact fsWriteIfChanged_edits hnodup (assetPaths_ok _ hpath) hpath
  · split
    · rw [fsRemove_nodes]
      exact tableRemove_edits hnodup hpath
    · exact Edits.same assetPaths hnodup

theorem storeSyncFiles_edits (installed : List Bool)
    (hnodup : (fs.nodes.map FileNode.path).Nodup) :
    Edits assetPaths fs.nodes (storeSyncFiles installed fs).nodes := by
  have hdirs := bootPaths_ok.2.2.2.2
  have hmade := foldl_edits assetPaths (fun fs path => (fsMkdir fs path).2)
    (fun path hpath fs hnodup => fsMkdir_edits hnodup (hdirs path hpath) assetPaths) hnodup
  rw [storeSyncFiles]
  apply hmade.trans
  apply foldl_edits
  · intro entry hentry fs hnodup
    exact storeSyncPackage_edits hnodup (List.of_mem_zip hentry).1
  · exact hmade.nodup

theorem storeLoadState_edits (hnodup : (fs.nodes.map FileNode.path).Nodup) :
    Edits (statePaths ++ assetPaths) fs.nodes (storeLoadState fs).2.nodes := by
  have hpath : storePath ∈ statePaths := by simp [statePaths]
  have hassets : assetPaths ⊆ statePaths ++ assetPaths := List.subset_append_right _ _
  have hstates : statePaths ⊆ statePaths ++ assetPaths := List.subset_append_left _ _
  have hsync := fun installed => (storeSyncFiles_edits installed hnodup).mono hassets
  rw [storeLoadState]
  dsimp only
  split
  · rw [storeSaveState]
    apply (hsync _).trans
    exact fsWriteIfChanged_edits (hsync _).nodup (statePaths_ok _ hpath) (hstates hpath)
  · exact hsync _

theorem browserBoot_edits (hnodup : (fs.nodes.map FileNode.path).Nodup) (volumes : List Volume) :
    Edits statePaths fs.nodes (browserBoot fs volumes).fs.nodes := by
  have hpath : browserStatePath ∈ statePaths := by simp [statePaths]
  have hsave : ∀ s : BrowserSystem, s.fs = fs →
      Edits statePaths fs.nodes (browserStateSave s).fs.nodes := by
    intro s hs
    rw [browserStateSave, hs]
    exact fsWriteIfChanged_edits hnodup (statePaths_ok _ hpath) hpath
  rw [browserBoot, browserStateLoad]
  dsimp only [browserSetDefaultState]
  split
  · exact hsave _ rfl
  · split
    · exact hsave _ rfl
    · split
      · exact hsave _ rfl
      · exact Edits.same statePaths hnodup

theorem studioStateLoad_edits (hnodup : (fs.nodes.map FileNode.path).Nodup) :
    Edits statePaths fs.nodes (studioStateLoad fs).2.nodes := by
  have hpath : studioPath ∈ statePaths := by simp [statePaths]
  rw [studioStateLoad]
  split
  · exact fsWriteIfChanged_edits hnodup (statePaths_ok _ hpath) hpath
  · exact Edits.same statePaths hnodup

/-- The directories of the workspace, which change no file. -/
theorem workspaceDirectories_edits (hnodup : (fs.nodes.map FileNode.path).Nodup)
    (written : List Bytes) : Edits written fs.nodes
      (fsMkdir (fsMkdir fs (ascii "/projects")).2 (ascii "/downloads")).2.nodes := by
  have hprojects : NulFree (ascii "/projects") := by decide
  have hdownloads : NulFree (ascii "/downloads") := by decide
  have hmade := fsMkdir_edits hnodup hprojects written
  exact hmade.trans (fsMkdir_edits hmade.nodup hdownloads written)

theorem studioSeedWorkspace_edits (hnodup : (fs.nodes.map FileNode.path).Nodup) :
    Edits workspacePaths fs.nodes (studioSeedWorkspace fs).nodes := by
  have hmade := workspaceDirectories_edits hnodup workspacePaths
  rw [studioSeedWorkspace]
  apply hmade.trans
  apply foldl_edits
  · intro file hfile fs hnodup
    have hpath : file.1 ∈ workspacePaths := List.mem_map_of_mem hfile
    exact fsWriteIfChanged_edits hnodup (workspacePaths_ok _ hpath).1 hpath
  · exact hmade.nodup

/-- A file that is there before its sample is written has the bytes of the sample. -/
theorem writeSamples_mem {files : List (Bytes × Bytes)}
    (hpaths : ∀ file ∈ files, PathOk file.1 ∧ file.1.head? = some slash)
    (hfit : ∀ file ∈ files, file.2.length ≤ fsMaxFileSize)
    (hdistinct : (files.map Prod.fst).Nodup) {file : Bytes × Bytes} (hfile : file ∈ files)
    {node : FileNode ArmFsType} (hkey : node.path = file.1) (htext : node.type = .text)
    (hnodup : (fs.nodes.map FileNode.path).Nodup) (hnode : node ∈ fs.nodes) :
    ⟨file.1, .text, file.2⟩ ∈
      (files.foldl (fun fs file => (fsWriteIfChanged fs file.1 file.2 .text).2) fs).nodes := by
  induction files generalizing fs with
  | nil => cases hfile
  | cons first files ih =>
    rw [List.map_cons, List.nodup_cons] at hdistinct
    have hfirst := hpaths first (by simp)
    have hwrite : Edits [first.1] fs.nodes (fsWriteIfChanged fs first.1 first.2 .text).2.nodes :=
      fsWriteIfChanged_edits hnodup hfirst.1 (by simp)
    rw [List.foldl_cons]
    rcases List.mem_cons.mp hfile with rfl | hfile
    · have hstored := fsWriteIfChanged_stores hfirst.1 hfirst.2 (hfit file (by simp)) hnodup hnode
        hkey htext
      have hrest := foldl_edits (files.map Prod.fst)
        (fun fs file => (fsWriteIfChanged fs file.1 file.2 .text).2)
        (fun file hfile fs hnodup => fsWriteIfChanged_edits hnodup
          (hpaths file (by simp [hfile])).1 (List.mem_map_of_mem hfile)) hwrite.nodup
      exact (hrest.files _ rfl hdistinct.1).mpr hstored
    · have hother : node.path ∉ [first.1] := by
        rw [List.mem_singleton, hkey]
        intro heq
        rw [← heq] at hdistinct
        exact hdistinct.1 (List.mem_map_of_mem hfile)
      exact ih (fun m hm => hpaths m (by simp [hm])) (fun m hm => hfit m (by simp [hm]))
        hdistinct.2 hfile hwrite.nodup ((hwrite.files node htext hother).mpr hnode)

theorem studioSeedWorkspace_mem {file : Bytes × Bytes} (hfile : file ∈ workspaceFiles)
    {node : FileNode ArmFsType} (hkey : node.path = file.1) (htext : node.type = .text)
    (hnodup : (fs.nodes.map FileNode.path).Nodup) (hnode : node ∈ fs.nodes) :
    ⟨file.1, .text, file.2⟩ ∈ (studioSeedWorkspace fs).nodes := by
  have hmade := workspaceDirectories_edits hnodup []
  have hpaths : ∀ file ∈ workspaceFiles, PathOk file.1 ∧ file.1.head? = some slash :=
    fun file hfile => workspacePaths_ok _ (List.mem_map_of_mem hfile)
  have hdistinct : (workspaceFiles.map Prod.fst).Nodup := bootPaths_ok.2.2.2.1
  rw [studioSeedWorkspace]
  apply writeSamples_mem hpaths workspaceFiles_fit hdistinct hfile hkey htext hmade.nodup
  exact (hmade.files node htext (by simp)).mpr hnode

end Stages

section Saved

variable {saved : ArmFs} {bytes : Bytes} {volumes : List Volume} {node : FileNode ArmFsType}

/-- What the boot keeps of the saved files: the seed does not refuse the file, and where a sample
program goes the file is the sample. -/
def Survives (node : FileNode ArmFsType) : Prop :=
  ¬ Blocked seedTable node ∧ ∀ file ∈ workspaceFiles, file.1 = node.path → node.bytes = file.2

theorem seedTable_base : Base seedTable := by
  rcases seedTable_paths with ⟨hnodup, -, -, -, hroot⟩
  have hclear : ∀ file ∈ seedTable, file.type = .text → ∀ node ∈ seedTable,
      ¬ Below slash file.path node.path := by
    decide +kernel
  exact ⟨hnodup, seedTable_loadable, hroot, hclear⟩

/-- The seed refuses no file where a sample program goes. -/
theorem not_blocked_workspace (hpath : node.path ∈ workspacePaths) :
    ¬ Blocked seedTable node := by
  have hfree : ∀ path ∈ workspacePaths, (∀ m ∈ seedTable, m.path ≠ path) ∧
      ∀ file ∈ seedTable, file.type = .text → ¬ Below slash file.path path := by
    decide +kernel
  rcases hfree node.path hpath with ⟨habsent, hclear⟩
  rintro (⟨m, hm, hsame, -⟩ | ⟨file, hfile, hfiletext, hbelow⟩)
  · exact habsent m hm hsame
  · exact hclear file hfile hfiletext hbelow

/-- The table after the restore. -/
theorem reboot_saved (hsaved : Saved saved) (hwritten : writtenState saved = some bytes)
    (hfound : foundState volumes = some bytes) (hreplay : Replayable saved.nodes)
    (hroom : RoomFor seedTable saved.nodes) (next : ArmFs) :
    ((reboot next volumes).nodes.map FileNode.path).Nodup ∧
      ∀ node ∈ saved.nodes,
        (node ∈ (reboot next volumes).nodes ↔ ¬ Blocked seedTable node) := by
  have hall : saved.nodes.takeWhile pathFits = saved.nodes :=
    List.takeWhile_eq_self_iff.mpr (List.all_eq_true.mp (all_pathFits.mpr hreplay.fits))
  have hload := hsaved.loadable hreplay.fits hreplay.root
  rw [reboot_nodes hsaved.sized hwritten hfound, hall]
  constructor
  · have hbase := seedTable_base
    exact (hbase.restoring.foldl hbase (List.Subset.refl _) hload).nodup
  · intro node hnode
    exact mem_foldl_loadNode_iff seedTable_base hreplay.agree hroom hload hreplay.ordered hnode

theorem bootSession_fs (fs : ArmFs) (volumes : List Volume) :
    (bootSession fs volumes).fs = (studioStateLoad (studioSeedWorkspace (browserBoot
      (storeLoadState (desktopLoadConfig (reboot fs volumes)).2).2 volumes).fs)).2 := by
  rw [bootSession]

/-- What the stages behind the restore make of a file that is none of theirs; a file where a
sample program goes is there already. -/
theorem bootSession_file (fs : ArmFs) (volumes : List Volume)
    (hnodup : ((reboot fs volumes).nodes.map FileNode.path).Nodup) (htext : node.type = .text)
    (hstate : node.path ∉ statePaths) (hasset : node.path ∉ assetPaths)
    (hthere : node.path ∈ workspacePaths → node ∈ (reboot fs volumes).nodes) :
    ((bootSession fs volumes).fs.nodes.map FileNode.path).Nodup ∧
      (node ∈ (bootSession fs volumes).fs.nodes ↔
        node ∈ (reboot fs volumes).nodes ∧
          ∀ file ∈ workspaceFiles, file.1 = node.path → node.bytes = file.2) := by
  have hdesktop := desktopLoadConfig_edits hnodup
  have hstore := storeLoadState_edits hdesktop.nodup
  have hbrowser := browserBoot_edits hstore.nodup volumes
  have hseed := studioSeedWorkspace_edits hbrowser.nodup
  have hstudio := studioStateLoad_edits hseed.nodup
  have hboth : node.path ∉ statePaths ++ assetPaths := by
    rw [List.mem_append, not_or]
    exact ⟨hstate, hasset⟩
  have hbefore := ((hbrowser.files node htext hstate).trans
    (hstore.files node htext hboth)).trans (hdesktop.files node htext hstate)
  rw [bootSession_fs]
  refine ⟨hstudio.nodup, (hstudio.files node htext hstate).trans ?_⟩
  by_cases hworkspace : node.path ∈ workspacePaths
  · have hin := hbefore.mpr (hthere hworkspace)
    have hstored := fun (file : Bytes × Bytes) (hfile : file ∈ workspaceFiles)
        (hkey : file.1 = node.path) =>
      studioSeedWorkspace_mem hfile hkey.symm htext hbrowser.nodup hin
    constructor
    · intro hmem
      refine ⟨hthere hworkspace, fun file hfile hkey => ?_⟩
      have hsame := List.inj_on_of_nodup_map hseed.nodup hmem (hstored file hfile hkey) hkey.symm
      rw [hsame]
    · rintro ⟨-, hsame⟩
      rcases List.mem_map.mp hworkspace with ⟨file, hfile, hkey⟩
      have hnode : (⟨file.1, .text, file.2⟩ : FileNode ArmFsType) = node := by
        rw [hkey, ← htext, ← hsame file hfile hkey]
      rw [← hnode]
      exact hstored file hfile hkey
  · rw [hseed.files node htext hworkspace, hbefore]
    refine (and_iff_left ?_).symm
    intro file hfile hkey
    rw [← hkey] at hworkspace
    exact absurd (List.mem_map_of_mem hfile) hworkspace

theorem bootSession_lookup (hsaved : Saved saved) (hwritten : writtenState saved = some bytes)
    (hfound : foundState volumes = some bytes) (hreplay : Replayable saved.nodes)
    (hroom : RoomFor seedTable saved.nodes) (hnode : node ∈ saved.nodes) (htext : node.type = .text)
    (hstate : node.path ∉ statePaths) (hasset : node.path ∉ assetPaths) (next : ArmFs) :
    lookup FileNode.path (bootSession next volumes).fs.nodes node.path = some node ↔
      Survives node := by
  rcases reboot_saved hsaved hwritten hfound hreplay hroom next with ⟨hnodup, hrestored⟩
  have hthere : node.path ∈ workspacePaths → node ∈ (reboot next volumes).nodes :=
    fun hpath => (hrestored node hnode).mpr (not_blocked_workspace hpath)
  rcases bootSession_file next volumes hnodup htext hstate hasset hthere with ⟨hdistinct, hfile⟩
  rw [lookup_eq_some hdistinct, and_iff_left rfl, hfile, hrestored node hnode]
  exact Iff.rfl

/-- A session that adds a file of its own to the seeded ones. -/
def addedCalls (path : Bytes) : List FsOp := seedCalls ++ [.write path (ascii "x") .text]

def addedFile (path : Bytes) : FileNode ArmFsType := ⟨path, .text, ascii "x"⟩

structure Added (path bytes : Bytes) : Prop where
  absolute : ∀ op ∈ addedCalls path, op.Absolute
  nodes : (run fsStep (ArmFs.empty unsaved) (addedCalls path)).nodes =
    seedTable ++ [addedFile path]
  written : writtenState (run fsStep (ArmFs.empty unsaved) (addedCalls path)) = some bytes
  found : foundState [⟨true, some bytes⟩] = some bytes
  replay : Replayable (seedTable ++ [addedFile path])
  room : RoomFor seedTable (seedTable ++ [addedFile path])

theorem exists_added {path : Bytes} (hpath : PathOk path) (habsolute : path.head? = some slash)
    (hfresh : path ∉ seedTable.map FileNode.path) (hroom : canPush seedTable path = true)
    (hfirst : ParentsFirst (seedTable ++ [addedFile path])) : ∃ bytes, Added path bytes := by
  have hstep : run tableStep seedTable [.write path (ascii "x") .text] =
      seedTable ++ [addedFile path] := by
    have hgood : ¬ (path.head? ≠ some slash ∨ fsMaxFileSize < (ascii "x").length ∨
        ArmFsType.text = ArmFsType.dir) := by
      rw [not_or, not_or, not_not]
      exact ⟨habsolute, by decide, by decide⟩
    rw [run_cons, run_nil, tableStep, tableCall, tableWrite, if_neg hgood,
      slotOf_eq_none.mpr hfresh]
    dsimp only
    rw [if_pos hroom, addedFile]
  have hmem : ∀ node ∈ seedTable ++ [addedFile path], Loadable node := by
    intro node hnode
    rcases List.mem_append.mp hnode with hnode | hnode
    · exact seedTable_loadable node hnode
    · rw [List.mem_singleton.mp hnode]
      have hshort : (ascii "x").length ≤ fsMaxFileSize := by decide
      refine ⟨habsolute, hpath.2, hshort, ?_⟩
      intro hdir
      cases hdir
  have hlen : (seedTable ++ [addedFile path]).length = 31 := by
    rw [List.length_append, List.length_singleton]
    rfl
  have hnodup : ((seedTable ++ [addedFile path]).map FileNode.path).Nodup := by
    rw [List.map_append, List.map_singleton, ← List.concat_eq_append]
    exact seedTable_paths.1.concat hfresh
  have hfits : Guarded tableStep OpFits seedTable [.write path (ascii "x") .text] :=
    ⟨hpath.1, trivial⟩
  have hsize : persistHeaderSize +
      entriesSize (run tableStep seedTable [.write path (ascii "x") .text]) ≤
        persistMaxStateSize := by
    rw [hstep]
    exact seedTable_room hlen.le (fun node hnode => (hmem node hnode).fits)
      fun node hnode => (hmem node hnode).size_le
  have hrun : run fsStep (ArmFs.empty unsaved) (addedCalls path) =
      run fsStep (fsSeed (ArmFs.empty unsaved)) [.write path (ascii "x") .text] := by
    rw [addedCalls, run_append]
    rfl
  rcases run_seed_written hfits hsize with ⟨hnodes, bytes, hwritten⟩
  rw [← hrun] at hwritten hnodes
  refine ⟨bytes, ?_, hnodes.trans hstep, hwritten,
    foundState_disk (run_sized unsaved _) hwritten, ⟨fun node hnode => (hmem node hnode).fits,
      Consistent.of_nodup hnodup, fun node hnode hdir => ((hmem node hnode).dir_empty hdir).2, _,
      List.Sublist.refl _, List.Subset.refl _, hfirst⟩, ?_⟩
  · intro op hop
    rcases List.mem_append.mp hop with hop | hop
    · have hseed : ∀ op ∈ seedCalls, op.Absolute := by decide +kernel
      exact hseed op hop
    · rw [List.mem_singleton.mp hop]
      exact habsolute
  · have hdedup := (List.dedup_sublist (seedTable.map FileNode.path ++
      (seedTable ++ [addedFile path]).map FileNode.path)).length_le
    rw [List.length_append, List.length_map, List.length_map, hlen] at hdedup
    exact hdedup.trans (by decide)

/-- The saved files that a boot brings back as they were. -/
theorem bootSession_restores_iff (persist : PersistState) (ops : List FsOp)
    (habsolute : ∀ op ∈ ops, op.Absolute)
    (hwritten : writtenState (run fsStep (ArmFs.empty persist) ops) = some bytes)
    (hfound : foundState volumes = some bytes)
    (hreplay : Replayable (run fsStep (ArmFs.empty persist) ops).nodes)
    (hroom : RoomFor seedTable (run fsStep (ArmFs.empty persist) ops).nodes)
    (hnode : node ∈ (run fsStep (ArmFs.empty persist) ops).nodes) (htext : node.type = .text)
    (hstate : node.path ∉ statePaths) (hasset : node.path ∉ assetPaths) (next : ArmFs) :
    lookup FileNode.path (bootSession next volumes).fs.nodes node.path = some node ↔
      Survives node :=
  bootSession_lookup (run_saved persist habsolute) hwritten hfound hreplay hroom hnode htext hstate
    hasset next

/-- A text of one's own in the home directory. -/
def ownText : Bytes := ascii "/home/OWN.TXT"

theorem exists_added_ownText : ∃ bytes, Added ownText bytes :=
  exists_added (by decide) (by decide) (by decide +kernel) (by decide +kernel) (by decide +kernel)

theorem bootSession_restores_iff_own : ∃ bytes,
    lookup FileNode.path (bootSession (ArmFs.empty unsaved) [⟨true, some bytes⟩]).fs.nodes
      ownText = some (addedFile ownText) ↔ Survives (addedFile ownText) := by
  rcases exists_added_ownText with ⟨bytes, h⟩
  have hmem : addedFile ownText ∈
      (run fsStep (ArmFs.empty unsaved) (addedCalls ownText)).nodes := by
    rw [h.nodes]
    simp
  exact ⟨bytes, bootSession_restores_iff unsaved (addedCalls ownText) h.absolute h.written h.found
    (h.nodes ▸ h.replay) (h.nodes ▸ h.room) hmem rfl (by decide +kernel) (by decide +kernel)
    (ArmFs.empty unsaved)⟩

/-- The Python program of the code studio. -/
def mainPy : Bytes := ascii "/projects/main.py"

theorem exists_added_mainPy : ∃ bytes, Added mainPy bytes :=
  exists_added (by decide) (by decide) (by decide +kernel) (by decide +kernel) (by decide +kernel)

/-- The program that was saved is the sample again after the boot. -/
theorem not_bootSession_restores :
    ¬ ∀ (persist : PersistState) (ops : List FsOp) (bytes : Bytes) (volumes : List Volume)
      (node : FileNode ArmFsType) (next : ArmFs), (∀ op ∈ ops, op.Absolute) →
      writtenState (run fsStep (ArmFs.empty persist) ops) = some bytes →
      foundState volumes = some bytes →
      Replayable (run fsStep (ArmFs.empty persist) ops).nodes →
      RoomFor seedTable (run fsStep (ArmFs.empty persist) ops).nodes →
      node ∈ (run fsStep (ArmFs.empty persist) ops).nodes → node.type = .text →
      node.path ∉ statePaths → node.path ∉ assetPaths →
      lookup FileNode.path (bootSession next volumes).fs.nodes node.path = some node := by
  intro hall
  rcases exists_added_mainPy with ⟨bytes, h⟩
  have hmem : addedFile mainPy ∈
      (run fsStep (ArmFs.empty unsaved) (addedCalls mainPy)).nodes := by
    rw [h.nodes]
    simp
  have hreplay : Replayable (run fsStep (ArmFs.empty unsaved) (addedCalls mainPy)).nodes := by
    rw [h.nodes]
    exact h.replay
  have hroom : RoomFor seedTable (run fsStep (ArmFs.empty unsaved) (addedCalls mainPy)).nodes := by
    rw [h.nodes]
    exact h.room
  have hstate : mainPy ∉ statePaths := by decide +kernel
  have hasset : mainPy ∉ assetPaths := by decide +kernel
  have hkept := hall unsaved (addedCalls mainPy) bytes [⟨true, some bytes⟩] (addedFile mainPy)
    (ArmFs.empty unsaved) h.absolute h.written h.found hreplay hroom hmem rfl hstate hasset
  have hsurvives := (bootSession_lookup (run_saved unsaved h.absolute) h.written h.found hreplay
    hroom hmem rfl hstate hasset (ArmFs.empty unsaved)).mp hkept
  have hsample : (mainPy, textLines ["print('hello from SNSX Python bridge')"]) ∈
      workspaceFiles := by
    simp [workspaceFiles, mainPy]
  have hbytes := hsurvives.2 _ hsample rfl
  exact absurd (congrArg List.length hbytes) (by decide)

end Saved

end SnsxOS.Arm64
