import SnsxOS.Arm64.Boot
import SnsxOS.Arm64.TableFrame

/-!
# Installed packages

`store_install_package_index` and `store_remove_package_index` set the flag of a package and bring
the files in line, and report success whatever `fs_write` and `fs_remove` answer. A package that
has its flag already is reported as installed without a look at its file.
-/

namespace SnsxOS.Arm64

open Framework

section System

/-- The file system and `g_store_installed`. -/
structure StoreSystem where
  fs : ArmFs
  installed : List Bool

def storeCommitState (s : StoreSystem) : StoreSystem :=
  { s with fs := storeSaveState s.installed (storeSyncFiles s.installed s.fs) }

def storeInstallPackageIndex (s : StoreSystem) (index : Nat) : Bool × StoreSystem :=
  if storeCatalog.length ≤ index then (false, s)
  else if s.installed[index]? = some true then (true, s)
  else (true, storeCommitState { s with installed := s.installed.set index true })

def storeRemovePackageIndex (s : StoreSystem) (index : Nat) : Bool × StoreSystem :=
  match storeCatalog[index]? with
  | none => (false, s)
  | some pkg =>
      if pkg.essential then (false, s)
      else if s.installed[index]? ≠ some true then (false, s)
      else (true, storeCommitState { s with installed := s.installed.set index false })

/-- The state that `store_load_state` leaves. -/
def storeBoot (fs : ArmFs) : StoreSystem := ⟨(storeLoadState fs).2, (storeLoadState fs).1⟩

inductive StoreOp where
  | install (index : Nat)
  | remove (index : Nat)
  /-- `store_load_state` -/
  | load
  /-- `store_save_state`, and `store_load_state` behind it -/
  | saveLoad
  /-- Any other use of the file system. -/
  | call (op : FsOp)
  /-- `persist_discover` puts another table in place. -/
  | restore (fs : ArmFs)

def storeStep (s : StoreSystem) : StoreOp → StoreSystem
  | .install index => (storeInstallPackageIndex s index).2
  | .remove index => (storeRemovePackageIndex s index).2
  | .load => storeBoot s.fs
  | .saveLoad => storeBoot (storeSaveState s.installed s.fs)
  | .call op => { s with fs := fsStep s.fs op }
  | .restore fs => { s with fs := fs }

/-- What the answer of an operation says about the disk. -/
def StoreHonest (s : StoreSystem) : StoreOp → Prop
  | .install index => (storeInstallPackageIndex s index).1 = true →
      ∃ pkg, storeCatalog[index]? = some pkg ∧
        lookup FileNode.path (storeInstallPackageIndex s index).2.fs.nodes pkg.assetPath =
          some ⟨pkg.assetPath, .text, pkg.body⟩
  | .remove index => (storeRemovePackageIndex s index).1 = true →
      ∃ pkg, storeCatalog[index]? = some pkg ∧
        pkg.assetPath ∉ (storeRemovePackageIndex s index).2.fs.nodes.map FileNode.path
  | .saveLoad => (storeStep s .saveLoad).installed = s.installed
  | _ => True

/-- Every package has a flag, and the essential ones are installed. -/
structure EssentialInstalled (installed : List Bool) : Prop where
  length : installed.length = storeCatalog.length
  essential : ∀ (index : Nat) (pkg : StorePackage), storeCatalog[index]? = some pkg →
    pkg.essential = true → installed[index]? = some true

/-- In a run from any table, every success is on disk and the essential packages stay. -/
def StorePromise (fs : ArmFs) (ops : List StoreOp) : Prop :=
  (∀ before op after, ops = before ++ op :: after →
      StoreHonest (run storeStep (storeBoot fs) before) op) ∧
    ∀ before after, ops = before ++ after →
      EssentialInstalled (run storeStep (storeBoot fs) before).installed

end System

section Flags

variable {installed : List Bool}

theorem length_storeSetInstalled (installed : List Bool) (id value : Bytes) :
    (storeSetInstalled installed id value).length = installed.length := by
  rw [storeSetInstalled]
  split
  · rfl
  · split
    · exact List.length_set
    · rfl

theorem length_storeLoadLines (installed : List Bool) (text : Bytes) :
    (storeLoadLines installed text).length = installed.length := by
  induction installed, text using storeLoadLines.induct with
  | case1 installed => rw [storeLoadLines, if_pos rfl]
  | case2 installed text htext line next head value hbar hin ih =>
    rw [storeLoadLines, if_neg htext, hbar]
    dsimp only
    rw [if_pos hin, ih, length_storeSetInstalled]
  | case3 installed text htext line next head value hbar hout ih =>
    rw [storeLoadLines, if_neg htext, hbar]
    dsimp only
    rw [if_neg hout, ih, length_storeSetInstalled]
  | case4 installed text htext next hnone ih =>
    rw [storeLoadLines, if_neg htext]
    split
    · rename_i hbar
      exact absurd hbar (hnone _ _)
    · exact ih

/-- Whatever is in the file, the essential packages are installed. -/
theorem essential_storeBoot (fs : ArmFs) : EssentialInstalled (storeBoot fs).installed := by
  have hflags : ∀ loaded : List Bool, loaded.length = storeCatalog.length →
      EssentialInstalled ((storeCatalog.zip loaded).map fun entry =>
        entry.1.essential || entry.2) := by
    intro loaded hlength
    constructor
    · rw [List.length_map, List.length_zip, hlength, Nat.min_self]
    · intro index pkg hpkg hessential
      have hindex : index < loaded.length := by
        rw [hlength]
        exact (List.getElem?_eq_some_iff.mp hpkg).1
      have hentry : (storeCatalog.zip loaded)[index]? = some (pkg, loaded[index]) := by
        rw [List.getElem?_zip_eq_some]
        exact ⟨hpkg, List.getElem?_eq_getElem hindex⟩
      rw [List.getElem?_map, hentry, Option.map_some, hessential, Bool.true_or]
  apply hflags
  split
  · rw [length_storeLoadLines, List.length_map]
  · exact List.length_map _

theorem EssentialInstalled.install (h : EssentialInstalled installed) (index : Nat) :
    EssentialInstalled (installed.set index true) where
  length := List.length_set.trans h.length
  essential := by
    intro other pkg hpkg hessential
    have hold := h.essential other pkg hpkg hessential
    rw [List.getElem?_set]
    split
    · rename_i heq
      rw [heq, if_pos (List.getElem?_eq_some_iff.mp hold).1]
    · exact hold

theorem EssentialInstalled.remove (h : EssentialInstalled installed) {index : Nat}
    {pkg : StorePackage} (hpkg : storeCatalog[index]? = some pkg) (hplain : pkg.essential = false) :
    EssentialInstalled (installed.set index false) where
  length := List.length_set.trans h.length
  essential := by
    intro other found hfound hessential
    have hne : index ≠ other := by
      intro heq
      rw [heq, hfound, Option.some.injEq] at hpkg
      rw [hpkg, hplain] at hessential
      cases hessential
    rw [List.getElem?_set_ne hne]
    exact h.essential other found hfound hessential

theorem essential_storeStep (s : StoreSystem) (op : StoreOp)
    (h : EssentialInstalled s.installed) : EssentialInstalled (storeStep s op).installed := by
  cases op with
  | install index =>
    rw [storeStep, storeInstallPackageIndex]
    split
    · exact h
    · split
      · exact h
      · exact h.install index
  | remove index =>
    rw [storeStep, storeRemovePackageIndex]
    split
    · exact h
    · rename_i pkg hpkg
      split
      · exact h
      · rename_i hplain
        split
        · exact h
        · exact h.remove hpkg (Bool.eq_false_iff.mpr hplain)
  | load => exact essential_storeBoot s.fs
  | saveLoad => exact essential_storeBoot (storeSaveState s.installed s.fs)
  | call op => exact h
  | restore fs => exact h

end Flags

section Calls

def storeDirs : List Bytes := [ascii "/apps", ascii "/drivers", ascii "/games", ascii "/kits"]

def storeDirOps : List FsOp := storeDirs.map FsOp.mkdir

/-- The call for the file of a package. -/
def storeSyncOp (entry : StorePackage × Bool) : FsOp :=
  if entry.2 then .write entry.1.assetPath entry.1.body .text else .remove entry.1.assetPath

/-- The calls of `store_sync_files` in front of those for a package. -/
def storeOpsBefore (installed : List Bool) (index : Nat) : List FsOp :=
  storeDirOps ++ ((storeCatalog.zip installed).take index).map storeSyncOp

/-- `fs_write` behind the calls finds no directory at the path, and room if nothing is there. -/
def fileFits (table : Table) (before : List FsOp) (path : Bytes) : Bool :=
  match lookup FileNode.path table path with
  | some node => node.type != .dir
  | none => (tallyOf table before).canPush table path

/-- What an operation needs of the state before it, to keep what it says. -/
def StoreFits (s : StoreSystem) : StoreOp → Prop
  | .install index =>
      match storeCatalog[index]? with
      | none => True
      | some pkg =>
          if s.installed[index]? = some true then
            lookup FileNode.path s.fs.nodes pkg.assetPath = some ⟨pkg.assetPath, .text, pkg.body⟩
          else
            fileFits s.fs.nodes (storeOpsBefore (s.installed.set index true) index)
              pkg.assetPath = true
  | .remove index =>
      match storeCatalog[index]? with
      | none => True
      | some pkg =>
          pkg.essential = true ∨ s.installed[index]? ≠ some true ∨
            (under FileNode.path s.fs.nodes pkg.assetPath).length ≤ 1 ∧
              ∀ node, lookup FileNode.path s.fs.nodes pkg.assetPath = some node →
                ¬ (node.type = .dir ∧ tableHasChildren s.fs.nodes pkg.assetPath = true)
  | .saveLoad =>
      fileFits s.fs.nodes [] storePath = true ∨
        s.installed = storeCatalog.map StorePackage.installedByDefault
  | _ => True

variable {fs : ArmFs} {installed : List Bool} {index : Nat} {entry : StorePackage × Bool}

/-- The paths of the store name entries, and none is in the way of another one. -/
theorem storePaths_apart :
    (∀ path ∈ assetPaths, (path.head? = some slash ∧ path ≠ [slash]) ∧ path ≠ storePath) ∧
      (∀ dir ∈ storeDirs, (dir.head? = some slash ∧ dir ≠ [slash]) ∧ NulFree dir ∧
        ∀ path ∈ assetPaths, dir ≠ path ∧ belowTest slash path dir = false) ∧
      (storeDirs.Pairwise fun dir later => dir ≠ later ∧ belowTest slash later dir = false) ∧
      assetPaths.Pairwise fun path later => path ≠ later ∧ belowTest slash later path = false ∧
        parentOf later ≠ path := by
  decide +kernel

theorem storeBodies_fit : ∀ pkg ∈ storeCatalog, pkg.body.length ≤ fsMaxFileSize := by
  intro pkg hpkg
  simp only [storeCatalog, List.mem_cons, List.not_mem_nil, or_false] at hpkg
  rcases hpkg with rfl | rfl | rfl | rfl | rfl | rfl | rfl | rfl
  all_goals
    repeat (apply length_textLines_cons; decide)
    exact Nat.zero_le _

theorem storeCatalog_ok {pkg : StorePackage} (hpkg : pkg ∈ storeCatalog) :
    NamesEntry pkg.assetPath ∧ pkg.body.length ≤ fsMaxFileSize :=
  ⟨(storePaths_apart.1 _ (List.mem_map_of_mem hpkg)).1, storeBodies_fit pkg hpkg⟩

theorem storeDirOps_onePath : ∀ op ∈ storeDirOps, OnePath op := by
  intro op hop
  obtain ⟨dir, hdir, rfl⟩ := List.mem_map.mp hop
  exact .mkdir (storePaths_apart.2.1 dir hdir).1

theorem storeSyncOp_target (entry : StorePackage × Bool) :
    (storeSyncOp entry).target = entry.1.assetPath := by
  rw [storeSyncOp]
  split <;> rfl

theorem storeSyncOp_onePath (hpkg : entry.1 ∈ storeCatalog) : OnePath (storeSyncOp entry) := by
  obtain ⟨hpath, hbody⟩ := storeCatalog_ok hpkg
  rw [storeSyncOp]
  split
  · refine .write hpath hbody ?_
    intro hdir
    cases hdir
  · exact .remove hpath

theorem storeDirOps_apart : storeDirOps.Pairwise ApartFrom := by
  rw [storeDirOps, List.pairwise_map]
  apply storePaths_apart.2.2.1.imp
  intro dir later hpair
  exact ⟨hpair.1, hpair.2, fun _ => rfl⟩

/-- The store directories are out of the way of every file they hold. -/
theorem storeDirOps_apart_of_mem {op : FsOp} (hop : op ∈ storeDirOps)
    (hpkg : entry.1 ∈ storeCatalog) : ApartFrom op (storeSyncOp entry) := by
  obtain ⟨dir, hdir, rfl⟩ := List.mem_map.mp hop
  obtain ⟨hne, hbelow⟩ := (storePaths_apart.2.1 dir hdir).2.2 _ (List.mem_map_of_mem hpkg)
  constructor
  · rw [storeSyncOp_target]
    exact hne
  · rw [storeSyncOp_target]
    exact hbelow
  · intro _
    rfl

theorem storeSyncOps_apart (hlength : installed.length = storeCatalog.length) :
    ((storeCatalog.zip installed).map storeSyncOp).Pairwise ApartFrom := by
  have hfirsts : (storeCatalog.zip installed).map Prod.fst = storeCatalog :=
    List.map_fst_zip hlength.ge
  have hpairs := storePaths_apart.2.2.2
  rw [assetPaths, List.pairwise_map, ← hfirsts, List.pairwise_map] at hpairs
  rw [List.pairwise_map]
  apply hpairs.imp
  intro entry later hpair
  obtain ⟨hne, hbelow, hparent⟩ := hpair
  constructor
  · rw [storeSyncOp_target, storeSyncOp_target]
    exact hne
  · rw [storeSyncOp_target, storeSyncOp_target]
    exact hbelow
  · intro heq
    rw [storeSyncOp_target, storeSyncOp_target] at heq
    exact absurd heq hparent

end Calls

section Nodes

variable {fs : ArmFs} {installed : List Bool} {index : Nat} {entry : StorePackage × Bool}
  {path data : Bytes}

theorem fsWriteIfChanged_nodes (hpath : PathOk path) (hnamed : NamesEntry path)
    (hdata : data.length ≤ fsMaxFileSize) (fs : ArmFs) :
    (fsWriteIfChanged fs path data .text).2.nodes = (tableWrite fs.nodes path data .text).2 := by
  have htype : ArmFsType.text ≠ .dir := by decide
  rcases fsWriteIfChanged_cases fs path data with ⟨hsame, hfound⟩ | hwrite
  · rw [hsame, tableWrite_same hnamed hdata htype hfound]
  · rw [hwrite, fsWrite_nodes hpath.1 hpath.2]

/-- Nothing but the path is touched, whatever the data. -/
theorem under_fsWriteIfChanged_of_ne {other : Bytes} (hpath : PathOk path) (hother : other ≠ path)
    (fs : ArmFs) (data : Bytes) :
    under FileNode.path (fsWriteIfChanged fs path data .text).2.nodes other =
      under FileNode.path fs.nodes other := by
  rcases fsWriteIfChanged_cases fs path data with ⟨hsame, -⟩ | hwrite
  · rw [hsame]
  · rw [hwrite, fsWrite_nodes hpath.1 hpath.2, under_tableWrite_of_ne hother]

theorem foldl_nodes {α : Type*} {items : List α} {step : ArmFs → α → ArmFs} {op : α → FsOp}
    (hstep : ∀ item ∈ items, ∀ fs, (step fs item).nodes = tableStep fs.nodes (op item))
    (fs : ArmFs) : (items.foldl step fs).nodes = run tableStep fs.nodes (items.map op) := by
  induction items generalizing fs with
  | nil => rfl
  | cons item items ih =>
    rw [List.foldl_cons, ih fun next hnext => hstep next (List.mem_cons_of_mem _ hnext),
      hstep item List.mem_cons_self, List.map_cons, run_cons]

theorem storeSyncPackage_nodes (hpkg : entry.1 ∈ storeCatalog) (fs : ArmFs) :
    (storeSyncPackage fs entry).nodes = tableStep fs.nodes (storeSyncOp entry) := by
  have hpath : PathOk entry.1.assetPath := assetPaths_ok _ (List.mem_map_of_mem hpkg)
  obtain ⟨hnamed, hbody⟩ := storeCatalog_ok hpkg
  rw [storeSyncPackage, storeSyncOp]
  split
  · exact fsWriteIfChanged_nodes hpath hnamed hbody fs
  · split
    · exact fsRemove_nodes fs entry.1.assetPath
    · rename_i hnone
      have habsent : lookup FileNode.path fs.nodes entry.1.assetPath = none := by
        rw [fsFind_nodes, Option.not_isSome_iff_eq_none] at hnone
        exact lookup_eq_none.mpr (slotOf_eq_none.mp hnone)
      have hanswer : (tableRemove fs.nodes entry.1.assetPath).1 = false := by
        rw [tableRemove_answer hnamed, habsent]
      exact (tableRemove_refused hanswer).symm

theorem storeSyncFiles_nodes (installed : List Bool) (fs : ArmFs) :
    (storeSyncFiles installed fs).nodes =
      run tableStep fs.nodes (storeDirOps ++ (storeCatalog.zip installed).map storeSyncOp) := by
  have hmade := foldl_nodes (fun dir hdir fs =>
    show (fsMkdir fs dir).2.nodes = tableStep fs.nodes (.mkdir dir) from
      fsMkdir_nodes (storePaths_apart.2.1 dir hdir).2.1) fs
  rw [run_append, storeDirOps, ← hmade,
    ← foldl_nodes fun entry hentry => storeSyncPackage_nodes (List.of_mem_zip hentry).1]
  rfl

theorem storePath_ok : PathOk storePath := statePaths_ok _ (by simp [statePaths])

theorem storePath_named : NamesEntry storePath := by
  constructor <;> decide

theorem storePath_ne {pkg : StorePackage} (hpkg : pkg ∈ storeCatalog) :
    pkg.assetPath ≠ storePath := (storePaths_apart.1 _ (List.mem_map_of_mem hpkg)).2

theorem zip_split (hentry : (storeCatalog.zip installed)[index]? = some entry) :
    (storeCatalog.zip installed).take index ++
      entry :: (storeCatalog.zip installed).drop (index + 1) = storeCatalog.zip installed := by
  obtain ⟨hindex, hat⟩ := List.getElem?_eq_some_iff.mp hentry
  rw [← hat, List.getElem_cons_drop, List.take_append_drop]

theorem entry_mem (hentry : (storeCatalog.zip installed)[index]? = some entry) :
    entry.1 ∈ storeCatalog :=
  (List.of_mem_zip (List.mem_of_getElem? hentry)).1

theorem storeOpsBefore_onePath : ∀ op ∈ storeOpsBefore installed index, OnePath op := by
  intro op hop
  rcases List.mem_append.mp hop with hdir | hfile
  · exact storeDirOps_onePath op hdir
  · obtain ⟨entry, hentry, rfl⟩ := List.mem_map.mp hfile
    exact storeSyncOp_onePath (List.of_mem_zip (List.mem_of_mem_take hentry)).1

/-- The calls of the loop, cut at those for one package. -/
theorem storeSyncOps_cut (hlength : installed.length = storeCatalog.length)
    (hentry : (storeCatalog.zip installed)[index]? = some entry) :
    (((storeCatalog.zip installed).take index).map storeSyncOp).Pairwise ApartFrom ∧
      (∀ op ∈ ((storeCatalog.zip installed).take index).map storeSyncOp,
        ApartFrom op (storeSyncOp entry)) ∧
      ∀ later ∈ ((storeCatalog.zip installed).drop (index + 1)).map storeSyncOp,
        ApartFrom (storeSyncOp entry) later := by
  have hpairs := storeSyncOps_apart hlength
  rw [← zip_split hentry, List.map_append, List.map_cons, List.pairwise_append] at hpairs
  obtain ⟨hfront, hback, hacross⟩ := hpairs
  refine ⟨hfront, ?_, ?_⟩
  · intro op hop
    exact hacross op hop _ List.mem_cons_self
  · intro later hlater
    exact List.rel_of_pairwise_cons hback hlater

/-- What the call for a package finds, told from the table before all calls. -/
theorem told_storeOpsBefore (hlength : installed.length = storeCatalog.length)
    (hentry : (storeCatalog.zip installed)[index]? = some entry) (table : Table) :
    SameView (run tableStep table (storeOpsBefore installed index)) table entry.1.assetPath ∧
      canPush (run tableStep table (storeOpsBefore installed index)) entry.1.assetPath =
        (tallyOf table (storeOpsBefore installed index)).canPush table entry.1.assetPath := by
  have hpkg := entry_mem hentry
  obtain ⟨hfront, hself, -⟩ := storeSyncOps_cut hlength hentry
  have hpairs : (storeOpsBefore installed index).Pairwise ApartFrom := by
    rw [storeOpsBefore, List.pairwise_append]
    refine ⟨storeDirOps_apart, hfront, ?_⟩
    intro op hop later hlater
    obtain ⟨other, hother, rfl⟩ := List.mem_map.mp hlater
    exact storeDirOps_apart_of_mem hop (List.of_mem_zip (List.mem_of_mem_take hother)).1
  have hapart : ∀ op ∈ storeOpsBefore installed index, ApartFrom op (storeSyncOp entry) := by
    intro op hop
    rcases List.mem_append.mp hop with hdir | hfile
    · exact storeDirOps_apart_of_mem hdir hpkg
    · exact hself op hfile
  have hroot := (storeSyncOp_onePath hpkg).named.2
  have htold := told_run storeOpsBefore_onePath hpairs hroot hapart rfl
    (fun op _ => told_refl table op.target) (told_refl table (storeSyncOp entry).target)
  have hroom := canPush_run storeOpsBefore_onePath hpairs hroot hapart table
  rw [storeSyncOp_target] at htold hroom
  exact ⟨htold.2.view, hroom⟩

/-- What is under the path of a package in the end is what its call has left there. -/
theorem under_storeSyncFiles (hlength : installed.length = storeCatalog.length)
    (hentry : (storeCatalog.zip installed)[index]? = some entry) (fs : ArmFs) :
    under FileNode.path (storeSyncFiles installed fs).nodes entry.1.assetPath =
      under FileNode.path (tableStep (run tableStep fs.nodes (storeOpsBefore installed index))
        (storeSyncOp entry)) entry.1.assetPath := by
  have hback := (storeSyncOps_cut hlength hentry).2.2
  have hcut : storeDirOps ++ (storeCatalog.zip installed).map storeSyncOp =
      storeOpsBefore installed index ++ storeSyncOp entry ::
        ((storeCatalog.zip installed).drop (index + 1)).map storeSyncOp := by
    rw [storeOpsBefore, List.append_assoc, ← List.map_cons, ← List.map_append, zip_split hentry]
  rw [storeSyncFiles_nodes, hcut, run_append, run_cons]
  apply under_run
  intro later hlater
  obtain ⟨other, hother, hlaterOp⟩ := List.mem_map.mp hlater
  have hapart := hback later hlater
  constructor
  · rw [← hlaterOp]
    exact storeSyncOp_onePath (List.of_mem_zip (List.mem_of_mem_drop hother)).1
  · rw [← storeSyncOp_target entry]
    exact hapart.target

theorem under_storeSaveState {pkg : StorePackage} (hpkg : pkg ∈ storeCatalog)
    (installed : List Bool) (fs : ArmFs) :
    under FileNode.path (storeSaveState installed fs).nodes pkg.assetPath =
      under FileNode.path fs.nodes pkg.assetPath :=
  under_fsWriteIfChanged_of_ne storePath_ok (storePath_ne hpkg) fs (storeText installed)

/-- The file of an installed package is there exactly when it fits. -/
theorem lookup_storeSyncFiles {pkg : StorePackage}
    (hlength : installed.length = storeCatalog.length)
    (hentry : (storeCatalog.zip installed)[index]? = some (pkg, true)) (fs : ArmFs) :
    lookup FileNode.path (storeSyncFiles installed fs).nodes pkg.assetPath =
        some ⟨pkg.assetPath, .text, pkg.body⟩ ↔
      fileFits fs.nodes (storeOpsBefore installed index) pkg.assetPath = true := by
  have htype : ArmFsType.text ≠ .dir := by decide
  obtain ⟨hnamed, hbody⟩ := storeCatalog_ok (entry_mem hentry)
  obtain ⟨hview, hroom⟩ := told_storeOpsBefore hlength hentry fs.nodes
  have hcall := lookup_eq_of_under (under_storeSyncFiles hlength hentry fs)
  have hwrite : tableStep (run tableStep fs.nodes (storeOpsBefore installed index))
      (storeSyncOp (pkg, true)) =
        (tableWrite (run tableStep fs.nodes (storeOpsBefore installed index)) pkg.assetPath
          pkg.body .text).2 := rfl
  rw [hcall, hwrite, lookup_tableWrite_iff hnamed hbody htype,
    tableWrite_answer hnamed hbody htype, hview.lookup, hroom]
  rfl

/-- Nothing is left at the path of a package that is not installed, unless there are several
entries or a directory that cannot be removed. -/
theorem under_storeSyncFiles_removed {pkg : StorePackage}
    (hlength : installed.length = storeCatalog.length)
    (hentry : (storeCatalog.zip installed)[index]? = some (pkg, false)) (fs : ArmFs) :
    under FileNode.path (storeSyncFiles installed fs).nodes pkg.assetPath = [] ↔
      (under FileNode.path fs.nodes pkg.assetPath).length ≤ 1 ∧
        ∀ node, lookup FileNode.path fs.nodes pkg.assetPath = some node →
          ¬ (node.type = .dir ∧ tableHasChildren fs.nodes pkg.assetPath = true) := by
  obtain ⟨hnamed, -⟩ := storeCatalog_ok (entry_mem hentry)
  obtain ⟨hview, -⟩ := told_storeOpsBefore hlength hentry fs.nodes
  have hremove : tableStep (run tableStep fs.nodes (storeOpsBefore installed index))
      (storeSyncOp (pkg, false)) =
        (tableRemove (run tableStep fs.nodes (storeOpsBefore installed index)) pkg.assetPath).2 :=
    rfl
  rw [under_storeSyncFiles hlength hentry fs, hremove,
    under_tableRemove_eq_nil hnamed, hview.under, hview.lookup, hview.children]

end Nodes

section Answers

variable {s : StoreSystem} {index : Nat} {pkg : StorePackage}

/-- The row of a package whose flag was set or cleared. -/
theorem zip_set (hlength : s.installed.length = storeCatalog.length)
    (hpkg : storeCatalog[index]? = some pkg) (flag : Bool) :
    (storeCatalog.zip (s.installed.set index flag))[index]? = some (pkg, flag) := by
  have hindex : index < s.installed.length := by
    rw [hlength]
    exact (List.getElem?_eq_some_iff.mp hpkg).1
  rw [List.getElem?_zip_eq_some]
  exact ⟨hpkg, List.getElem?_set_self hindex⟩

theorem install_honest_iff (hs : EssentialInstalled s.installed) (index : Nat) :
    StoreHonest s (.install index) ↔ StoreFits s (.install index) := by
  rw [StoreHonest, StoreFits, storeInstallPackageIndex]
  cases hpkg : storeCatalog[index]? with
  | none =>
    rw [if_pos (List.getElem?_eq_none_iff.mp hpkg)]
    simp
  | some pkg =>
    have hindex : ¬ storeCatalog.length ≤ index :=
      Nat.not_le.mpr (List.getElem?_eq_some_iff.mp hpkg).1
    rw [if_neg hindex]
    dsimp only
    by_cases hflag : s.installed[index]? = some true
    · rw [if_pos hflag, if_pos hflag]
      simp
    · have hlength : (s.installed.set index true).length = storeCatalog.length :=
        List.length_set.trans hs.length
      have hentry := zip_set hs.length hpkg true
      have hfile := lookup_storeSyncFiles hlength hentry s.fs
      have hsaved := lookup_eq_of_under
        (under_storeSaveState (List.mem_of_getElem? hpkg) (s.installed.set index true)
          (storeSyncFiles (s.installed.set index true) s.fs))
      rw [if_neg hflag, if_neg hflag, ← hfile, ← hsaved]
      simp [storeCommitState]

theorem remove_honest_iff (hs : EssentialInstalled s.installed) (index : Nat) :
    StoreHonest s (.remove index) ↔ StoreFits s (.remove index) := by
  rw [StoreHonest, StoreFits, storeRemovePackageIndex]
  cases hpkg : storeCatalog[index]? with
  | none => simp
  | some pkg =>
    dsimp only
    by_cases hessential : pkg.essential = true
    · rw [if_pos hessential]
      simp [hessential]
    · rw [if_neg hessential]
      by_cases hflag : s.installed[index]? = some true
      · have hlength : (s.installed.set index false).length = storeCatalog.length :=
          List.length_set.trans hs.length
        have hentry := zip_set hs.length hpkg false
        have hgone := under_storeSyncFiles_removed hlength hentry s.fs
        rw [← under_storeSaveState (List.mem_of_getElem? hpkg) (s.installed.set index false),
          under_eq_nil] at hgone
        rw [if_neg (not_not.mpr hflag), ← hgone]
        simp [hessential, hflag, storeCommitState]
      · rw [if_pos hflag]
        simp [hflag]

end Answers

section SavedFlags

/-- The flags are those of the packages that can be removed. -/
theorem EssentialInstalled.shape {installed : List Bool} (h : EssentialInstalled installed) :
    ∃ kit wifi bluetooth printer starter : Bool,
      installed = [true, true, true, kit, wifi, bluetooth, printer, starter] := by
  have hlength := h.length
  have hfirst := h.essential 0 _ rfl rfl
  have hsecond := h.essential 1 _ rfl rfl
  have hthird := h.essential 2 _ rfl rfl
  match installed, hlength with
  | [a, b, c, kit, wifi, bluetooth, printer, starter], _ =>
    rw [List.getElem?_cons_zero, Option.some.injEq] at hfirst
    rw [List.getElem?_cons_succ, List.getElem?_cons_zero, Option.some.injEq] at hsecond
    rw [List.getElem?_cons_succ, List.getElem?_cons_succ, List.getElem?_cons_zero,
      Option.some.injEq] at hthird
    rw [hfirst, hsecond, hthird]
    exact ⟨kit, wifi, bluetooth, printer, starter, rfl⟩

/-- What the lines of the file leave of the default flags. -/
def restoredFlags (installed : List Bool) : List Bool :=
  (storeCatalog.zip ((storeCatalog.zip installed).foldl
    (fun installed entry => storeSetInstalled installed entry.1.id (flagText entry.2))
    (storeCatalog.map StorePackage.installedByDefault))).map
      fun entry => entry.1.essential || entry.2

/-- The texts of all flags fit the buffer, and their lines restore the flags. -/
theorem storeText_plain :
    (∀ kit wifi bluetooth printer starter : Bool,
      (NulFree (storeText [true, true, true, kit, wifi, bluetooth, printer, starter]) ∧
        (storeText [true, true, true, kit, wifi, bluetooth, printer, starter]).length < 1024) ∧
      restoredFlags [true, true, true, kit, wifi, bluetooth, printer, starter] =
        [true, true, true, kit, wifi, bluetooth, printer, starter]) ∧
      (∀ pkg ∈ storeCatalog, (124 : UInt8) ∉ pkg.id ∧ newline ∉ pkg.id) ∧
      ((storeCatalog.zip (storeCatalog.map StorePackage.installedByDefault)).map
        fun entry => entry.1.essential || entry.2) =
          storeCatalog.map StorePackage.installedByDefault := by
  decide +kernel

theorem storeText_fits {installed : List Bool} (h : EssentialInstalled installed) :
    NulFree (storeText installed) ∧ (storeText installed).length < 1024 := by
  obtain ⟨kit, wifi, bluetooth, printer, starter, rfl⟩ := h.shape
  exact (storeText_plain.1 kit wifi bluetooth printer starter).1

/-- A line that the store wrote sets the flag of its package. -/
theorem storeLoadLines_line {id value rest : Bytes} (hid : (124 : UInt8) ∉ id)
    (hidLine : newline ∉ id) (hvalue : newline ∉ value) (installed : List Bool) :
    storeLoadLines installed (id ++ 124 :: value ++ newline :: rest) =
      storeLoadLines (storeSetInstalled installed id value) rest := by
  have hline : newline ∉ id ++ 124 :: value := by
    rw [List.mem_append, List.mem_cons]
    rintro (h | h | h)
    · exact hidLine h
    · cases h
    · exact hvalue h
  have htake := takeWhile_append_sep hline rest
  have hdrop := dropWhile_append_sep hline rest
  have hbar : strchr (id ++ 124 :: value ++ newline :: rest) 124 =
      some (124 :: (value ++ newline :: rest)) := by
    rw [strchr, List.append_assoc, List.cons_append, dropWhile_append_sep hid]
  have hsome : id ++ 124 :: value ++ newline :: rest ≠ [] := by simp
  rw [storeLoadLines, if_neg hsome, hbar]
  dsimp only
  rw [htake, hdrop, if_pos (by simp), takeWhile_append_sep hid, takeWhile_append_sep hvalue,
    List.drop_succ_cons, List.drop_zero]

theorem storeLoadLines_lines {entries : List (StorePackage × Bool)}
    (hentries : ∀ entry ∈ entries, (124 : UInt8) ∉ entry.1.id ∧ newline ∉ entry.1.id)
    (installed : List Bool) :
    storeLoadLines installed (unlines newline (entries.map fun entry =>
        entry.1.id ++ ascii "|" ++ flagText entry.2)) =
      entries.foldl (fun installed entry =>
        storeSetInstalled installed entry.1.id (flagText entry.2)) installed := by
  have hflag : ∀ flag : Bool, newline ∉ flagText flag := by decide
  have hbar : ascii "|" = [124] := by decide
  induction entries generalizing installed with
  | nil => rw [List.map_nil, unlines, List.flatMap_nil, storeLoadLines, if_pos rfl, List.foldl_nil]
  | cons entry entries ih =>
    obtain ⟨hid, hidLine⟩ := hentries entry List.mem_cons_self
    rw [List.map_cons, unlines_cons, List.foldl_cons, hbar, List.append_assoc entry.1.id,
      List.singleton_append, storeLoadLines_line hid hidLine (hflag entry.2)]
    rw [hbar] at ih
    exact ih (fun next hnext => hentries next (List.mem_cons_of_mem _ hnext)) _

variable {fs : ArmFs} {installed : List Bool}

theorem storeLoadState_saved (h : EssentialInstalled installed)
    (htext : stateText fs storePath 1024 = some (storeText installed)) :
    (storeLoadState fs).1 = installed := by
  have hids : ∀ entry ∈ storeCatalog.zip installed, (124 : UInt8) ∉ entry.1.id ∧
      newline ∉ entry.1.id :=
    fun entry hentry => storeText_plain.2.1 entry.1 (List.of_mem_zip hentry).1
  rw [storeLoadState, htext]
  dsimp only
  rw [storeText, storeLoadLines_lines hids]
  obtain ⟨kit, wifi, bluetooth, printer, starter, rfl⟩ := h.shape
  exact (storeText_plain.1 kit wifi bluetooth printer starter).2

theorem storeLoadState_none (htext : stateText fs storePath 1024 = none) :
    (storeLoadState fs).1 = storeCatalog.map StorePackage.installedByDefault := by
  rw [storeLoadState, htext]
  exact storeText_plain.2.2

/-- The saved text is read back exactly when it could be written. -/
theorem stateText_storeSaveState (h : EssentialInstalled installed) (fs : ArmFs) :
    stateText (storeSaveState installed fs) storePath 1024 =
      if fileFits fs.nodes [] storePath = true then some (storeText installed) else none := by
  have htype : ArmFsType.text ≠ .dir := by decide
  obtain ⟨hnul, hlength⟩ := storeText_fits h
  have hdata : (storeText installed).length ≤ fsMaxFileSize := by
    rw [fsMaxFileSize]
    omega
  have hnodes := fsWriteIfChanged_nodes storePath_ok storePath_named hdata fs
  have hanswer := tableWrite_answer storePath_named hdata htype fs.nodes
  have hroom : canPush fs.nodes storePath = (tallyOf fs.nodes []).canPush fs.nodes storePath :=
    (told_refl fs.nodes storePath).canPush rfl
  have hfits : (tableWrite fs.nodes storePath (storeText installed) .text).1 =
      fileFits fs.nodes [] storePath := by
    rw [hanswer, hroom]
    rfl
  split
  · rename_i hfit
    have hfound := tableWrite_lookup (hfits.trans hfit)
    rw [← hnodes, fsEntry_nodes, Option.map_eq_some_iff] at hfound
    obtain ⟨entry, hentry, hnode⟩ := hfound
    exact stateText_of_node hentry hnode hnul hlength
  · rename_i hfit
    have hrefused : (tableWrite fs.nodes storePath (storeText installed) .text).1 = false :=
      hfits.trans (Bool.eq_false_iff.mpr hfit)
    rw [tableWrite_refused hrefused] at hnodes
    have hentry := fsEntry_nodes (fsWriteIfChanged fs storePath (storeText installed) .text).2
      storePath
    rw [hnodes] at hentry
    rw [storeSaveState, stateText]
    cases hfound : fsEntry (fsWriteIfChanged fs storePath (storeText installed) .text).2
        storePath with
    | none => rfl
    | some entry =>
      rw [hfound, Option.map_some] at hentry
      have hdir : entry.type = .dir := by
        rw [hanswer, hentry] at hrefused
        exact bne_eq_false_iff_eq.mp hrefused
      dsimp only
      rw [if_neg]
      rw [hdir]
      decide

theorem saveLoad_honest_iff {s : StoreSystem} (hs : EssentialInstalled s.installed) :
    StoreHonest s .saveLoad ↔ StoreFits s .saveLoad := by
  have htext := stateText_storeSaveState hs s.fs
  rw [StoreHonest, StoreFits, storeStep, storeBoot]
  dsimp only
  by_cases hfit : fileFits s.fs.nodes [] storePath = true
  · rw [if_pos hfit] at htext
    constructor
    · intro _
      exact Or.inl hfit
    · intro _
      exact storeLoadState_saved hs htext
  · rw [if_neg hfit] at htext
    rw [storeLoadState_none htext]
    constructor
    · intro hdefaults
      exact Or.inr hdefaults.symm
    · intro h
      exact (h.resolve_left hfit).symm

end SavedFlags

section Runs

theorem storeHonest_iff {s : StoreSystem} (hs : EssentialInstalled s.installed) (op : StoreOp) :
    StoreHonest s op ↔ StoreFits s op := by
  cases op with
  | install index => exact install_honest_iff hs index
  | remove index => exact remove_honest_iff hs index
  | load => exact Iff.rfl
  | saveLoad => exact saveLoad_honest_iff hs
  | call op => exact Iff.rfl
  | restore fs => exact Iff.rfl

/-- The successes of a run are on disk exactly when every operation finds what it needs. -/
theorem storePromise_iff_guarded (fs : ArmFs) (ops : List StoreOp) :
    StorePromise fs ops ↔ Guarded storeStep StoreFits (storeBoot fs) ops := by
  have hboot := essential_storeBoot fs
  have hflags : ∀ before after, ops = before ++ after →
      EssentialInstalled (run storeStep (storeBoot fs) before).installed := by
    intro before after _
    exact run_invariant (I := fun s => EssentialInstalled s.installed)
      (fun s op hs => essential_storeStep s op hs) hboot before
  have hrun := run_steps_iff_guarded (J := fun s => EssentialInstalled s.installed)
    (fun s op hs => essential_storeStep s op hs) (fun s op hs => storeHonest_iff hs op) hboot ops
  rw [StorePromise, hrun]
  constructor
  · exact And.left
  · intro hguarded
    exact ⟨hguarded, hflags⟩

theorem storeBoot_distinct {fs : ArmFs} (h : (fs.nodes.map FileNode.path).Nodup) :
    ((storeBoot fs).fs.nodes.map FileNode.path).Nodup := (storeLoadState_edits h).nodup

/-- After a load that finds no state file, the file of an installed package is there if it fits. -/
theorem lookup_storeBoot {fs : ArmFs} {index : Nat} {pkg : StorePackage}
    (hnone : stateText fs storePath 1024 = none)
    (hentry : (storeCatalog.zip (storeBoot fs).installed)[index]? = some (pkg, true))
    (hfit : fileFits fs.nodes (storeOpsBefore (storeBoot fs).installed index) pkg.assetPath = true) :
    lookup FileNode.path (storeBoot fs).fs.nodes pkg.assetPath =
      some ⟨pkg.assetPath, .text, pkg.body⟩ := by
  have hboot : (storeBoot fs).fs = storeSaveState (storeBoot fs).installed
      (storeSyncFiles (storeBoot fs).installed fs) := by
    simp only [storeBoot, storeLoadState, hnone, Option.isNone_none, if_true]
  rw [hboot, lookup_eq_of_under (under_storeSaveState (entry_mem hentry) _ _)]
  exact (lookup_storeSyncFiles (essential_storeBoot fs).length hentry fs).mpr hfit

/-- A package with its flag is reported as installed when its file is gone. -/
theorem not_honest_of_gone {s : StoreSystem} {index : Nat} {pkg : StorePackage}
    (hpkg : storeCatalog[index]? = some pkg) (hflag : s.installed[index]? = some true)
    (hgone : under FileNode.path s.fs.nodes pkg.assetPath = []) :
    ¬ StoreHonest s (.install index) := by
  have hindex : ¬ storeCatalog.length ≤ index :=
    Nat.not_le.mpr (List.getElem?_eq_some_iff.mp hpkg).1
  rw [StoreHonest, storeInstallPackageIndex, if_neg hindex, if_pos hflag]
  intro hhonest
  obtain ⟨found, hfound, hlookup⟩ := hhonest rfl
  rw [hpkg, Option.some.injEq] at hfound
  rw [← hfound, ← head?_under, hgone] at hlookup
  cases hlookup

/-- The only file under a path can be removed. -/
theorem under_fsRemove {fs : ArmFs} {path data : Bytes} (hnamed : NamesEntry path)
    (hdistinct : (fs.nodes.map FileNode.path).Nodup)
    (hfound : lookup FileNode.path fs.nodes path = some ⟨path, .text, data⟩) :
    under FileNode.path (fsStep fs (.remove path)).nodes path = [] := by
  have hnodes : (fsStep fs (.remove path)).nodes = (tableRemove fs.nodes path).2 :=
    fsRemove_nodes fs path
  rw [hnodes, under_tableRemove_eq_nil hnamed]
  refine ⟨length_under_le_one hdistinct path, ?_⟩
  intro node hnode hdir
  rw [hfound, Option.some.injEq] at hnode
  rw [← hnode] at hdir
  cases hdir.1

/-- The file of Snake Arcade is removed; installing the package reports success without it. -/
theorem not_storePromise :
    ¬ StorePromise homeSession [.call (.remove (ascii "/games/SNAKE-ARCADE.TXT")), .install 1] := by
  obtain ⟨pkg, hpkg, hpath⟩ : ∃ pkg, storeCatalog[1]? = some pkg ∧
      pkg.assetPath = ascii "/games/SNAKE-ARCADE.TXT" := ⟨_, rfl, rfl⟩
  have hmem : pkg ∈ storeCatalog := List.mem_of_getElem? hpkg
  have hflag : (storeBoot homeSession).installed[1]? = some true :=
    (essential_storeBoot homeSession).essential 1 _ rfl rfl
  have hnone : stateText homeSession storePath 1024 = none := by
    have hentry := fsEntry_nodes homeSession storePath
    have habsent : lookup FileNode.path [⟨ascii "/home", ArmFsType.dir, []⟩] storePath = none := by
      decide +kernel
    rw [homeSession_nodes, habsent] at hentry
    rw [stateText, Option.map_eq_none_iff.mp hentry.symm]
  have hentry : (storeCatalog.zip (storeBoot homeSession).installed)[1]? = some (pkg, true) := by
    rw [List.getElem?_zip_eq_some]
    exact ⟨hpkg, hflag⟩
  have hfit : fileFits homeSession.nodes (storeOpsBefore (storeBoot homeSession).installed 1)
      pkg.assetPath = true := by
    rw [storeBoot, storeLoadState_none hnone, homeSession_nodes, hpath]
    decide +kernel
  have hdistinct : (homeSession.nodes.map FileNode.path).Nodup := by
    rw [homeSession_nodes]
    exact List.nodup_singleton _
  have hthere := lookup_storeBoot hnone hentry hfit
  have honly := storeBoot_distinct hdistinct
  have hgone := under_fsRemove (storeCatalog_ok hmem).1 honly hthere
  intro hpromise
  rw [← hpath] at hpromise
  have hhonest := hpromise.1 [.call (.remove pkg.assetPath)] (.install 1) [] rfl
  rw [run_cons, run_nil, storeStep] at hhonest
  refine not_honest_of_gone hpkg ?_ ?_ hhonest
  · exact hflag
  · exact hgone

end Runs

end SnsxOS.Arm64
