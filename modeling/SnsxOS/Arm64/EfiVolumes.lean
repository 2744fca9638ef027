import SnsxOS.Arm64.DiskManager
import SnsxOS.Arm64.EfiFiles
import SnsxOS.Framework.Pointwise
import SnsxOS.Lib.Decimal

/-!
# Saving through the firmware

A session whose volumes are those of the firmware: looking for a disk, saving and installing open,
read and write files. It does what a session with one snapshot to a volume does, and leaves all
other files alone.
-/

namespace SnsxOS.Arm64

open Framework

def persistMaxVolumes : Nat := 8

def persistBootMaxSize : Nat := 2097152

def statePath : Bytes := ascii "/SNSX/STATE.BIN"

def bootPath : Bytes := ascii "/EFI/BOOT/BOOTAA64.EFI"

def readmePath : Bytes := ascii "/SNSX/README.TXT"

/-- A handle that the firmware lists, with the volume that `handle_protocol` finds. -/
structure EfiDisk where
  bootDevice : Bool
  volume : Option EfiVolume

/-- `persist_volume_t`, with the volume that `fs` leads to -/
structure PersistVolume where
  bootDevice : Bool
  writable : Bool
  volume : EfiVolume

namespace PersistVolume

def withVolume (p : PersistVolume) (volume : EfiVolume) : PersistVolume :=
  { p with volume := volume }

/-- Open the root, work below it and close it again; `failed` is the answer when it does not
open. -/
def below {α : Type} (p : PersistVolume) (failed : α) (work : EfiVolume → Nat → α × EfiVolume) :
    α × PersistVolume :=
  match efiOpenRoot p.volume with
  | (none, v) => (failed, p.withVolume v)
  | (some root, v) =>
      let result := work v root
      (result.1, p.withVolume (result.2.close root))

def readFile (p : PersistVolume) (path : Bytes) (capacity : Nat) : Option Bytes × PersistVolume :=
  p.below none fun v root => efiReadFile v root path capacity

/-- Reading `/SNSX/STATE.BIN` as `persist_read_state_from_volume` does. -/
def readState (p : PersistVolume) : Option Bytes × PersistVolume :=
  p.readFile statePath persistMaxStateSize

end PersistVolume

def efiProbeWritable (bootDevice : Bool) (v : EfiVolume) : Bool × EfiVolume :=
  match efiOpenRoot v with
  | (none, v) => (false, v)
  | (some root, v) =>
      ((if v.driver.tellsReadOnly then !v.readOnly else !bootDevice), v.close root)

/-- The loop of `persist_scan_volumes` with the room that is left. -/
def persistScanLoop : Nat → List EfiDisk → List PersistVolume
  | _, [] => []
  | 0, _ => []
  | room + 1, disk :: disks =>
      match disk.volume with
      | none => persistScanLoop (room + 1) disks
      | some v =>
          let probed := efiProbeWritable disk.bootDevice v
          ⟨disk.bootDevice, probed.1, probed.2⟩ :: persistScanLoop room disks

def persistScanVolumes (disks : List EfiDisk) : List PersistVolume :=
  persistScanLoop persistMaxVolumes disks

/-- The first loop of `persist_discover`: the first writable volume whose snapshot can be read. -/
def findState : Nat → List PersistVolume → Option Nat × List PersistVolume
  | _, [] => (none, [])
  | index, p :: volumes =>
      if p.writable then
        match p.readState with
        | (some _, p) => (some index, p :: volumes)
        | (none, p) =>
            let rest := findState (index + 1) volumes
            (rest.1, p :: rest.2)
      else
        let rest := findState (index + 1) volumes
        (rest.1, p :: rest.2)

/-- Read one of the volumes. -/
def readStateAt (volumes : List PersistVolume) (index : Nat) : Option Bytes × List PersistVolume :=
  match volumes[index]? with
  | none => (none, volumes)
  | some p => (p.readState.1, volumes.set index p.readState.2)

/-- The loop of `persist_read_boot_image`. -/
def persistReadBootImage : List PersistVolume → Option Bytes × List PersistVolume
  | [] => (none, [])
  | p :: volumes =>
      match p.readFile bootPath persistBootMaxSize with
      | (some image, p) => (some image, p :: volumes)
      | (none, p) =>
          let rest := persistReadBootImage volumes
          (rest.1, p :: rest.2)

/-- `disk_volume_info_t` -/
structure DiskVolumeInfo where
  present : Bool
  writable : Bool
  hasBootloader : Bool
  hasState : Bool
  selected : Bool
  stateSize : Nat
  name : Bytes
  role : Bytes
  deriving DecidableEq

def diskRole (hasBootloader hasState writable : Bool) : Bytes :=
  if hasBootloader && hasState then
    ascii "Bootable SNSX disk with a saved live filesystem snapshot."
  else if hasBootloader then ascii "Bootable SNSX disk. No saved filesystem snapshot yet."
  else if hasState then
    ascii "Writable disk with an SNSX state snapshot, but no bootloader copy."
  else if writable then ascii "Writable FAT volume ready for install/save."
  else ascii "Read-only volume detected by UEFI."

/-- The two reads below the root. -/
def readStateAndBoot (v : EfiVolume) (root : Nat) : (Option Bytes × Option Bytes) × EfiVolume :=
  let state := efiReadFile v root statePath persistMaxStateSize
  let boot := efiReadFile state.2 root bootPath persistBootMaxSize
  ((state.1, boot.1), boot.2)

/-- The loop of `disk_collect_info`, with the room in `infos`. -/
def diskCollectInfo (selected : Nat) :
    Nat → Nat → List PersistVolume → List DiskVolumeInfo × List PersistVolume
  | _, _, [] => ([], [])
  | 0, _, volumes => ([], volumes)
  | room + 1, index, p :: volumes =>
      let read := p.below (none, none) readStateAndBoot
      let rest := diskCollectInfo selected room (index + 1) volumes
      (⟨true, p.writable, read.1.2.isSome, read.1.1.isSome, index == selected,
        (read.1.1.getD []).length, ascii "VOLUME " ++ u32ToDec (UInt32.ofNat (index + 1)),
        diskRole read.1.2.isSome read.1.1.isSome p.writable⟩ :: rest.1, read.2 :: rest.2)

def installNote : Bytes :=
  ascii "SNSX installed disk\n" ++
    ascii "This volume stores BOOTAA64.EFI and the persistent SNSX state snapshot.\n"

/-- The table with `g_persist_volumes`. -/
structure EfiSession where
  fs : ArmFs
  volumes : List PersistVolume

namespace EfiSession

/-- `disk_collect_info` -/
def diskInfos (s : EfiSession) : List DiskVolumeInfo × List PersistVolume :=
  diskCollectInfo s.fs.persist.volumeIndex persistMaxVolumes 0 s.volumes

def setPersist (s : EfiSession) (persist : PersistState) : EfiSession :=
  { s with fs := { s.fs with persist := persist } }

/-- The table after what has been read is applied. -/
def applied (fs : ArmFs) : Option Bytes → ArmFs
  | none => fs
  | some bytes => (persistDeserialize fs bytes).2

/-- `persist_discover` -/
def discover (fs : ArmFs) (disks : List EfiDisk) : EfiSession :=
  let persist : PersistState := ⟨false, false, false, fs.persist.volumeIndex⟩
  match findState 0 (persistScanVolumes disks) with
  | (some index, volumes) =>
      let read := readStateAt volumes index
      let fs := { fs with persist := ⟨true, false, true, index⟩ }
      let fs := applied fs read.1
      ⟨{ fs with persist := { fs.persist with dirty := false } }, read.2⟩
  | (none, volumes) =>
      match volumes.findIdx? PersistVolume.writable with
      | some index => ⟨{ fs with persist := ⟨true, false, false, index⟩ }, volumes⟩
      | none => ⟨{ fs with persist := persist }, volumes⟩

def setDirty (s : EfiSession) : EfiSession :=
  s.setPersist { s.fs.persist with dirty := true }

/-- Write below the root of the selected volume. -/
def onTarget (s : EfiSession) (work : EfiVolume → Nat → Bool × EfiVolume) : Bool × EfiSession :=
  match s.volumes[s.fs.persist.volumeIndex]? with
  | none => (false, s)
  | some p =>
      let result := p.below false work
      (result.1, { s with volumes := s.volumes.set s.fs.persist.volumeIndex result.2 })

/-- `persist_flush_state` -/
def flush (s : EfiSession) : EfiSession :=
  if s.fs.persist.available = true ∧ s.fs.persist.dirty = true then
    match persistSerialize s.fs.entries persistMaxStateSize with
    | none => s
    | some bytes =>
        let written := s.onTarget fun v root => efiWriteFile v root statePath bytes
        if written.1 then
          written.2.setPersist { s.fs.persist with dirty := false, installed := true }
        else written.2
  else s

/-- The writes of `persist_install_boot_disk` below the root. -/
def installFiles (image : Bytes) (v : EfiVolume) (root : Nat) : Bool × EfiVolume :=
  let boot := efiWriteFile v root bootPath image
  if boot.1 then (true, (efiWriteFile boot.2 root readmePath installNote).2)
  else (false, boot.2)

/-- `persist_install_boot_disk` -/
def install (s : EfiSession) : EfiSession :=
  if s.fs.persist.available = true then
    match persistReadBootImage s.volumes with
    | (none, volumes) => { s with volumes := volumes }
    | (some image, volumes) =>
        let written := { s with volumes := volumes }.onTarget (installFiles image)
        if written.1 then
          (written.2.setPersist { s.fs.persist with installed := true, dirty := true }).flush
        else written.2
  else s

def select (s : EfiSession) (index : Nat) : EfiSession :=
  s.setPersist { s.fs.persist with available := true, volumeIndex := index }

def writableAt (s : EfiSession) (index : Nat) : Bool :=
  match s.volumes[index]? with
  | none => false
  | some p => p.writable

/-- The volumes as the firmware lists them once more. -/
def disks (s : EfiSession) : List EfiDisk :=
  s.volumes.map fun p => ⟨p.bootDevice, some p.volume⟩

end EfiSession

inductive EfiOp where
  | fs (op : FsOp)
  | flush
  | save
  | autosave
  | use (index : Nat)
  | install
  | installTo (index : Nat)
  | saveTo (index : Nat)
  /-- RESCAN with the volumes as they are -/
  | rescan
  /-- RESCAN after disks have been attached or taken away -/
  | attach (disks : List EfiDisk)
  /-- a new start of the machine with its volumes -/
  | restart
  /-- the disk manager shows the volumes -/
  | info

def efiStep (s : EfiSession) : EfiOp → EfiSession
  | .fs op => { s with fs := fsStep s.fs op }
  | .flush => s.flush
  | .save => s.setDirty.flush
  | .autosave => if s.fs.persist.available = true then s.setDirty.flush else s
  | .use index => if index < s.volumes.length then s.select index else s
  | .install => s.install
  | .installTo index => if s.writableAt index then (s.select index).install else s
  | .saveTo index => if s.writableAt index then (s.select index).setDirty.flush else s
  | .rescan => EfiSession.discover s.fs s.disks
  | .attach disks => EfiSession.discover s.fs disks
  | .restart => EfiSession.discover (fsSeed s.fs) s.disks
  | .info => { s with volumes := s.diskInfos.2 }


section Paths

theorem statePath_plain : PlainPath statePath := ⟨by decide, by decide⟩

theorem bootPath_plain : PlainPath bootPath := ⟨by decide, by decide⟩

theorem readmePath_plain : PlainPath readmePath := ⟨by decide, by decide⟩

variable (v : EfiVolume)

theorem pathOf_state : v.pathOf statePath =
    [v.driver.fold (asciiToUtf16Path (ascii "SNSX")),
      v.driver.fold (asciiToUtf16Path (ascii "STATE.BIN"))] := rfl

theorem pathOf_boot : v.pathOf bootPath =
    [v.driver.fold (asciiToUtf16Path (ascii "EFI")),
      v.driver.fold (asciiToUtf16Path (ascii "BOOT")),
      v.driver.fold (asciiToUtf16Path (ascii "BOOTAA64.EFI"))] := rfl

theorem pathOf_readme : v.pathOf readmePath =
    [v.driver.fold (asciiToUtf16Path (ascii "SNSX")),
      v.driver.fold (asciiToUtf16Path (ascii "README.TXT"))] := rfl

/-- Writing the boot image does not touch the snapshot. -/
theorem state_not_prefix_boot : ¬ v.pathOf statePath <+: v.pathOf bootPath := by
  rw [pathOf_state, pathOf_boot]
  intro h
  have hfold := (List.cons_prefix_cons.mp h).1
  exact absurd (v.driver.apart _ _ (by decide) (by decide) hfold) (by decide)

theorem state_not_prefix_readme : ¬ v.pathOf statePath <+: v.pathOf readmePath := by
  rw [pathOf_state, pathOf_readme]
  intro h
  have hfold := (List.cons_prefix_cons.mp (List.cons_prefix_cons.mp h).2).1
  exact absurd (v.driver.apart _ _ (by decide) (by decide) hfold) (by decide)

end Paths

section Below

/-- What `efi_probe_writable` answers when the root opens. -/
def PersistVolume.probed (p : PersistVolume) : Bool :=
  if p.volume.driver.tellsReadOnly then !p.volume.readOnly else !p.bootDevice

/-- The volume works, was probed, and `STATE.BIN` is not a directory on it. -/
structure PersistVolume.Sound (p : PersistVolume) : Prop where
  healthy : p.volume.driver.Healthy
  file : p.volume.files.items (p.volume.pathOf statePath) ≠ some .directory
  probed : p.writable = p.probed

/-- The snapshot that lies on the volume. -/
def PersistVolume.stateFile (p : PersistVolume) : Option Bytes :=
  p.volume.files.fileAt (p.volume.pathOf statePath)

/-- The paths that the kernel writes. -/
def snsxPaths : List Bytes := [statePath, bootPath, readmePath]

/-- An item is as before, or it is a file of the kernel or a new directory on the way to one, and
then the volume is not read-only. -/
def ItemKept (v w : EfiVolume) (q : EfiPath) : Prop :=
  w.files.items q = v.files.items q ∨ v.readOnly = false ∧
    ((∃ path ∈ snsxPaths, q = v.pathOf path) ∨
      (∃ path ∈ snsxPaths, q <+: v.pathOf path) ∧ v.files.items q = none ∧
        w.files.items q = some .directory)

/-- What the kernel leaves of a volume. -/
structure Kept (p p' : PersistVolume) : Prop where
  bootDevice : p'.bootDevice = p.bootDevice
  writable : p'.writable = p.writable
  settled : Settled p.volume p'.volume
  items : ∀ q, ItemKept p.volume p'.volume q

theorem Kept.refl (p : PersistVolume) : Kept p p :=
  ⟨rfl, rfl, Settled.refl _, fun _ => .inl rfl⟩

theorem pathOf_settled {v w : EfiVolume} (h : Settled v w) (path : Bytes) :
    w.pathOf path = v.pathOf path := by
  rw [EfiVolume.pathOf, EfiVolume.pathOf, EfiVolume.target, EfiVolume.target, h.driver]

theorem ItemKept.trans {v w u : EfiVolume} {q : EfiPath} (hsettled : Settled v w)
    (h : ItemKept v w q) (h' : ItemKept w u q) : ItemKept v u q := by
  rw [ItemKept, hsettled.readOnly] at h'
  simp only [pathOf_settled hsettled] at h'
  rcases h with hsame | ⟨hwritable, hfile | ⟨hway, hnone, hdir⟩⟩
  · rw [hsame] at h'
    exact h'
  · exact .inr ⟨hwritable, .inl hfile⟩
  · rcases h' with hsame | ⟨-, hfile | ⟨-, hnone', -⟩⟩
    · exact .inr ⟨hwritable, .inr ⟨hway, hnone, hsame.trans hdir⟩⟩
    · exact .inr ⟨hwritable, .inl hfile⟩
    · rw [hdir] at hnone'
      cases hnone'

theorem Kept.trans {p p' p'' : PersistVolume} (h : Kept p p') (h' : Kept p' p'') : Kept p p'' :=
  ⟨h'.bootDevice.trans h.bootDevice, h'.writable.trans h.writable, h.settled.trans h'.settled,
    fun q => (h.items q).trans h.settled (h'.items q)⟩

/-- The volume has been read at most. -/
structure OnlyRead (p p' : PersistVolume) : Prop where
  bootDevice : p'.bootDevice = p.bootDevice
  writable : p'.writable = p.writable
  settled : Settled p.volume p'.volume
  items : p'.volume.files.items = p.volume.files.items

theorem OnlyRead.refl (p : PersistVolume) : OnlyRead p p := ⟨rfl, rfl, Settled.refl _, rfl⟩

theorem OnlyRead.trans {p p' p'' : PersistVolume} (h : OnlyRead p p') (h' : OnlyRead p' p'') :
    OnlyRead p p'' :=
  ⟨h'.bootDevice.trans h.bootDevice, h'.writable.trans h.writable, h.settled.trans h'.settled,
    h'.items.trans h.items⟩

theorem OnlyRead.kept {p p' : PersistVolume} (h : OnlyRead p p') : Kept p p' :=
  ⟨h.bootDevice, h.writable, h.settled, fun q => .inl (congrFun h.items q)⟩

theorem OnlyRead.stateFile {p p' : PersistVolume} (h : OnlyRead p p') :
    p'.stateFile = p.stateFile := by
  rw [PersistVolume.stateFile, PersistVolume.stateFile, pathOf_settled h.settled,
    FileVolume.fileAt, FileVolume.fileAt, h.items]

theorem OnlyRead.sound {p p' : PersistVolume} (h : OnlyRead p p') (hp : p.Sound) : p'.Sound := by
  refine ⟨?_, ?_, ?_⟩
  · rw [h.settled.driver]
    exact hp.healthy
  · rw [h.items, pathOf_settled h.settled]
    exact hp.file
  · rw [h.writable, hp.probed, PersistVolume.probed, PersistVolume.probed, h.bootDevice,
      h.settled.driver, h.settled.readOnly]

/-- The volume with its root open. -/
def PersistVolume.opened (p : PersistVolume) : EfiVolume :=
  p.volume.withFiles (p.volume.files.openAt [])

variable {p : PersistVolume} {α : Type}

theorem below_eq (h : p.volume.driver.opensVolume = true) (failed : α)
    (work : EfiVolume → Nat → α × EfiVolume) : p.below failed work =
      ((work p.opened p.volume.files.next).1,
        p.withVolume ((work p.opened p.volume.files.next).2.close p.volume.files.next)) := by
  rw [PersistVolume.below, efiOpenRoot, if_pos h]
  rfl

theorem opened_root (p : PersistVolume) :
    p.opened.files.handles p.volume.files.next = some ⟨[], 0⟩ := Function.update_self _ _ _

/-- The root is closed again. -/
theorem settled_below {w : EfiVolume} (h : Settled p.opened w) :
    Settled p.volume (w.close p.volume.files.next) := by
  refine ⟨h.driver, h.readOnly, (Nat.le_succ _).trans h.next, ?_⟩
  change Function.update w.files.handles _ none = _
  rw [h.handles]
  exact FileVolume.close_new _ (p.volume.files.fresh _ le_rfl) _

theorem readFile_law (hp : p.volume.driver.Healthy) {path : Bytes} (hpath : PlainPath path)
    (capacity : Nat) : OnlyRead p (p.readFile path capacity).2 ∧
      (p.volume.files.items (p.volume.pathOf path) = none →
        (p.readFile path capacity).1 = none) ∧
      ∀ content, p.volume.files.fileAt (p.volume.pathOf path) = some content →
        (p.readFile path capacity).1 = some (content.take capacity) := by
  obtain ⟨hsettled, hitems, hnone, hsome⟩ :=
    efiReadFile_law (v := p.opened) hpath (opened_root p) capacity
  rw [PersistVolume.readFile, below_eq hp.opens]
  exact ⟨⟨rfl, rfl, settled_below hsettled, hitems⟩, hnone, hsome hp⟩

/-- Reading the snapshot. -/
theorem readState_law (hp : p.Sound) : OnlyRead p p.readState.2 ∧
    p.readState.1 = p.stateFile.map (List.take persistMaxStateSize) := by
  obtain ⟨hread, hnone, hsome⟩ := readFile_law hp.healthy statePath_plain persistMaxStateSize
  refine ⟨hread, ?_⟩
  rw [PersistVolume.stateFile, FileVolume.fileAt]
  rw [FileVolume.fileAt] at hsome
  cases hitem : p.volume.files.items (p.volume.pathOf statePath) with
  | none => exact hnone hitem
  | some item =>
    cases item with
    | directory => exact absurd hitem hp.file
    | file content =>
      rw [hitem] at hsome
      exact hsome content rfl

end Below

section Find

variable {volumes : List PersistVolume}

/-- The volume can be used and holds a snapshot. -/
def PersistVolume.holds (p : PersistVolume) : Bool := p.writable && p.stateFile.isSome

theorem onlyRead_refl (volumes : List PersistVolume) : List.Forall₂ OnlyRead volumes volumes :=
  List.forall₂_same.mpr fun p _ => OnlyRead.refl p

theorem findState_law (hsound : ∀ p ∈ volumes, p.Sound) (index : Nat) :
    List.Forall₂ OnlyRead volumes (findState index volumes).2 ∧
      (findState index volumes).1 =
        (volumes.findIdx? PersistVolume.holds).map (· + index) := by
  induction volumes generalizing index with
  | nil => exact ⟨.nil, rfl⟩
  | cons p volumes ih =>
    obtain ⟨hrest, hfound⟩ := ih (fun q hq => hsound q (List.mem_cons_of_mem _ hq)) (index + 1)
    have hlater : (volumes.findIdx? PersistVolume.holds).map (· + (index + 1)) =
        ((volumes.findIdx? PersistVolume.holds).map (· + 1)).map (· + index) := by
      rw [Option.map_map]
      congr 1
      funext n
      exact (Nat.add_right_comm n 1 index).symm
    rw [findState, List.findIdx?_cons, PersistVolume.holds]
    cases hwritable : p.writable with
    | false =>
      rw [if_neg Bool.false_ne_true, Bool.false_and, if_neg Bool.false_ne_true]
      exact ⟨.cons (OnlyRead.refl p) hrest, hfound.trans hlater⟩
    | true =>
      obtain ⟨hread, hstate⟩ := readState_law (hsound p List.mem_cons_self)
      rw [if_pos rfl, Bool.true_and]
      generalize p.readState = result at hread hstate
      rcases result with ⟨_ | bytes, p'⟩
      · have hnone : p.stateFile = none := Option.map_eq_none_iff.mp hstate.symm
        rw [hnone, Option.isSome_none, if_neg Bool.false_ne_true]
        exact ⟨.cons hread hrest, hfound.trans hlater⟩
      · obtain ⟨content, hcontent, -⟩ := Option.map_eq_some_iff.mp hstate.symm
        rw [hcontent, Option.isSome_some, if_pos rfl]
        exact ⟨.cons hread (onlyRead_refl volumes), congrArg some (Nat.zero_add index).symm⟩

end Find

section Leftover

/-- The loop does not look behind the entries that it was told of. -/
theorem persistDeserializeLoop_leftover {entries : List ArmFsEntry}
    (h : ∀ entry ∈ entries, Sized entry) (pre leftover : Bytes) (fs : ArmFs) :
    persistDeserializeLoop (pre ++ (entries.flatMap persistEntry ++ leftover)) entries.length
        pre.length fs =
      ((entries.map ArmFsEntry.node).all pathFits,
        ((entries.map ArmFsEntry.node).takeWhile pathFits).foldl restoreNode fs) := by
  induction entries generalizing pre fs with
  | nil => rfl
  | cons entry entries ih =>
    have hturn := persistDeserializeLoop_entry (h entry List.mem_cons_self) pre
      (entries.flatMap persistEntry ++ leftover) entries.length fs
    have hrest := ih (fun e he => h e (List.mem_cons_of_mem _ he)) (pre ++ persistEntry entry)
      (restoreNode fs entry.node)
    rw [List.append_assoc] at hrest
    rw [List.flatMap_cons, List.append_assoc, List.length_cons, hturn, List.map_cons,
      List.all_cons, List.takeWhile_cons]
    by_cases hfit : entry.path.length < fsPathMax
    · have htrue : pathFits entry.node = true := decide_eq_true hfit
      rw [if_pos hfit, hrest, htrue, Bool.true_and, if_pos rfl, List.foldl_cons]
    · have hfalse : pathFits entry.node = false := decide_eq_false hfit
      rw [if_neg hfit, hfalse, Bool.false_and, if_neg (by decide), List.foldl_nil]

/-- What an older, longer snapshot has left in the file is not read. -/
theorem persistDeserialize_leftover {saved : ArmFs} {bytes : Bytes}
    (hsized : AllEntries Sized saved)
    (hbytes : persistSerialize saved.entries persistMaxStateSize = some bytes) (leftover : Bytes)
    (target : ArmFs) :
    persistDeserialize target (bytes ++ leftover) = persistDeserialize target bytes := by
  rw [persistDeserialize_serialize hsized hbytes, persistSerialize_some hbytes, List.append_assoc]
  have hcount : (UInt32.ofNat saved.entries.length).toNat = saved.entries.length := by
    rw [UInt32.toNat_ofNat']
    exact Nat.mod_eq_of_lt (lt_of_le_of_lt saved.entries_le (by decide))
  have hloop := persistDeserializeLoop_leftover hsized
    (persistHeader (UInt32.ofNat saved.entries.length)) leftover target
  have hlong : ¬ (persistHeader (UInt32.ofNat saved.entries.length) ++
      (saved.entries.flatMap persistEntry ++ leftover)).length < persistHeaderSize := by
    simp [persistHeader, writeLe32, persistHeaderSize]
  have hmagic : readLe32 (persistHeader (UInt32.ofNat saved.entries.length) ++
      (saved.entries.flatMap persistEntry ++ leftover)) 0 = snsxStateMagic := le32_bytes _
  have hversion : readLe32 (persistHeader (UInt32.ofNat saved.entries.length) ++
      (saved.entries.flatMap persistEntry ++ leftover)) 4 = snsxStateVersion := le32_bytes _
  have hentries : readLe32 (persistHeader (UInt32.ofNat saved.entries.length) ++
      (saved.entries.flatMap persistEntry ++ leftover)) 8 = UInt32.ofNat saved.entries.length :=
    le32_bytes _
  rw [persistDeserialize, if_neg hlong, hmagic, hversion, hentries, hcount,
    if_neg (by simp)]
  exact hloop

/-- The file holds the snapshot, with leftovers behind it if the kernel has written it. -/
def Backs (file snapshot : Option Bytes) : Prop := file = snapshot ∨
  ∃ (saved : ArmFs) (bytes leftover : Bytes), AllEntries Sized saved ∧
    persistSerialize saved.entries persistMaxStateSize = some bytes ∧
    snapshot = some bytes ∧ file = some (bytes ++ leftover)

variable {file snapshot : Option Bytes}

theorem Backs.isSome (h : Backs file snapshot) : file.isSome = snapshot.isSome := by
  rcases h with rfl | ⟨saved, bytes, leftover, -, -, rfl, rfl⟩
  · rfl
  · rfl

/-- Both are read as the same table. -/
theorem Backs.deserialize (h : Backs file snapshot) (fs : ArmFs) :
    (file.map (List.take persistMaxStateSize)).map (persistDeserialize fs) =
      (snapshot.map (List.take persistMaxStateSize)).map (persistDeserialize fs) := by
  rcases h with rfl | ⟨saved, bytes, leftover, hsized, hbytes, rfl, rfl⟩
  · rfl
  · have hlength := persistSerialize_length hsized hbytes
    simp only [Option.map_some]
    rw [List.take_append, List.take_of_length_le hlength,
      persistDeserialize_leftover hsized hbytes]

end Leftover

section Discover

/-- What the sessions with files and with snapshots know of one volume. -/
structure ShowsVolume (p : PersistVolume) (volume : Volume) : Prop where
  writable : volume.writable = p.writable
  state : Backs p.stateFile volume.state
  sound : p.Sound

theorem ShowsVolume.holds {p : PersistVolume} {volume : Volume} (h : ShowsVolume p volume) :
    p.holds = holdsState volume := by
  rw [PersistVolume.holds, holdsState, h.writable, h.state.isSome]

theorem ShowsVolume.onlyRead {p p' : PersistVolume} {volume : Volume} (h : ShowsVolume p volume)
    (hread : OnlyRead p p') : ShowsVolume p' volume :=
  ⟨h.writable.trans hread.writable.symm, hread.stateFile ▸ h.state, hread.sound h.sound⟩

/-- Reading one of the volumes changes no other. -/
theorem readStateAt_law {volumes : List PersistVolume} {index : Nat} {p : PersistVolume}
    (hp : volumes[index]? = some p) (hsound : p.Sound) :
    List.Forall₂ OnlyRead volumes (readStateAt volumes index).2 ∧
      (readStateAt volumes index).1 = p.stateFile.map (List.take persistMaxStateSize) := by
  obtain ⟨hread, hstate⟩ := readState_law hsound
  rw [readStateAt, hp]
  exact ⟨forall₂_set OnlyRead.refl hp hread, hstate⟩

theorem foundState_index {volumes : List Volume} {index : Nat}
    (h : volumes.findIdx? holdsState = some index) :
    foundState volumes = volumes[index]?.bind Volume.readState := by
  obtain ⟨hlt, hholds, hmin⟩ := List.findIdx?_eq_some_iff_getElem.mp h
  have hfind : volumes.find? holdsState = some volumes[index] := by
    rw [List.find?_eq_some_iff_getElem]
    exact ⟨hholds, index, hlt, rfl, fun j hj => by simpa using hmin j hj⟩
  rw [foundState, hfind, List.getElem?_eq_getElem hlt]

theorem applied_eq (fs : ArmFs) (bytes : Option Bytes) : EfiSession.applied fs bytes =
    ((bytes.map (persistDeserialize fs)).map Prod.snd).getD fs := by
  cases bytes <;> rfl

theorem applyState_eq (fs : ArmFs) (volumes : List Volume) :
    applyState fs volumes = EfiSession.applied fs (foundState volumes) := by
  rw [applyState]
  cases foundState volumes <;> rfl

/-- Looking for a disk finds the same table as with snapshots, and only reads. -/
theorem discover_law {disks : List EfiDisk} {volumes : List Volume}
    (hshows : List.Forall₂ ShowsVolume (persistScanVolumes disks) volumes) (fs : ArmFs) :
    (EfiSession.discover fs disks).fs = persistDiscover fs volumes ∧
      List.Forall₂ OnlyRead (persistScanVolumes disks) (EfiSession.discover fs disks).volumes := by
  have hsound : ∀ p ∈ persistScanVolumes disks, p.Sound := by
    intro p hp
    obtain ⟨index, hindex⟩ := List.mem_iff_getElem?.mp hp
    obtain ⟨volume, -, hshow⟩ := forall₂_getElem? hshows hindex
    exact hshow.sound
  obtain ⟨hread, hfound⟩ := findState_law hsound 0
  have hholds := forall₂_findIdx hshows fun p volume h => h.holds
  have hshows' : List.Forall₂ ShowsVolume (findState 0 (persistScanVolumes disks)).2 volumes :=
    forall₂_joined (fun _ _ _ hshow hread => hshow.onlyRead hread) hshows hread
  rw [hholds] at hfound
  rw [EfiSession.discover, persistDiscover]
  generalize findState 0 (persistScanVolumes disks) = result at hread hfound hshows' ⊢
  rcases result with ⟨found, listed⟩
  cases hindex : volumes.findIdx? holdsState with
  | none =>
    rw [hindex] at hfound
    obtain rfl : found = none := hfound
    have hwritable := forall₂_findIdx (f := PersistVolume.writable) hshows'
      fun p volume h => h.writable.symm
    dsimp only at hwritable ⊢
    rw [hwritable]
    cases volumes.findIdx? Volume.writable with
    | none => exact ⟨rfl, hread⟩
    | some index => exact ⟨rfl, hread⟩
  | some index =>
    rw [hindex] at hfound
    obtain rfl : found = some index := hfound
    have hlt : index < volumes.length := (List.findIdx?_eq_some_iff_getElem.mp hindex).1
    obtain ⟨p, hp⟩ : ∃ p, listed[index]? = some p :=
      ⟨_, List.getElem?_eq_getElem (hshows'.length_eq ▸ hlt)⟩
    obtain ⟨volume, hvolume, hshow⟩ := forall₂_getElem? hshows' hp
    obtain ⟨hread', hstate⟩ := readStateAt_law hp hshow.sound
    refine ⟨?_, forall₂_trans (fun _ _ _ h h' => h.trans h') hread hread'⟩
    have hsame (fs : ArmFs) : EfiSession.applied fs (readStateAt listed index).1 =
        applyState fs volumes := by
      rw [hstate, applyState_eq, foundState_index hindex, hvolume, Option.bind_some,
        Volume.readState, applied_eq, applied_eq, hshow.state.deserialize]
    dsimp only
    rw [hsame]

end Discover

section Save

variable {p : PersistVolume}

theorem Touches.kept {v w : EfiVolume} {path : Bytes} (h : Touches v w (v.pathOf path))
    (hpath : path ∈ snsxPaths) (q : EfiPath) : ItemKept v w q := by
  rcases h q with hsame | ⟨hwritable, hprefix, hdirectory, -⟩
  · exact .inl hsame
  · by_cases hq : q = v.pathOf path
    · exact .inr ⟨hwritable, .inl ⟨path, hpath, hq⟩⟩
    · exact .inr ⟨hwritable, .inr ⟨⟨path, hpath, hprefix⟩, hdirectory hq⟩⟩

/-- What lies elsewhere stays. -/
theorem Touches.away {v w : EfiVolume} {target : EfiPath} (h : Touches v w target) {q : EfiPath}
    (hq : ¬ q <+: target) : w.files.items q = v.files.items q :=
  (h q).resolve_right fun hchanged => hq hchanged.2.1

theorem kept_of_settled {w : EfiVolume} (hsettled : Settled p.volume w)
    (hitems : ∀ q, ItemKept p.volume w q) : Kept p (p.withVolume w) :=
  ⟨rfl, rfl, hsettled, hitems⟩

theorem sound_withVolume (hp : p.Sound) {w : EfiVolume} (hsettled : Settled p.volume w)
    (hfile : w.files.items (p.volume.pathOf statePath) ≠ some .directory) :
    (p.withVolume w).Sound := by
  refine ⟨?_, ?_, ?_⟩
  · change w.driver.Healthy
    rw [hsettled.driver]
    exact hp.healthy
  · change w.files.items (w.pathOf statePath) ≠ some .directory
    rw [pathOf_settled hsettled]
    exact hfile
  · change p.writable = if w.driver.tellsReadOnly then !w.readOnly else !p.bootDevice
    rw [hsettled.driver, hsettled.readOnly]
    exact hp.probed

theorem stateFile_withVolume {w : EfiVolume} (hsettled : Settled p.volume w) :
    (p.withVolume w).stateFile = w.files.fileAt (p.volume.pathOf statePath) := by
  change w.files.fileAt (w.pathOf statePath) = _
  rw [pathOf_settled hsettled]

/-- Writing the snapshot: it is there, or everything is as before. -/
theorem writeState_law (hp : p.Sound) (bytes : Bytes) {result : Bool × PersistVolume}
    (hresult : p.below false (fun v root => efiWriteFile v root statePath bytes) = result) :
    Kept p result.2 ∧ result.2.Sound ∧
      (result.1 = true → ∃ leftover, result.2.stateFile = some (bytes ++ leftover)) ∧
      (result.1 = false → result.2.stateFile = p.stateFile) := by
  obtain ⟨hsettled, htouches, hwritten, hfailed⟩ :=
    efiWriteFile_law (v := p.opened) statePath_plain (opened_root p) bytes
  rw [below_eq hp.healthy.opens] at hresult
  have hclosed := settled_below hsettled
  generalize efiWriteFile p.opened p.volume.files.next statePath bytes = written at *
  subst hresult
  refine ⟨kept_of_settled hclosed (htouches.kept (by simp [snsxPaths])),
    sound_withVolume hp hclosed ?_, fun h => ?_, fun h => ?_⟩
  · rcases htouches (p.opened.pathOf statePath) with hsame | ⟨-, -, -, hfile⟩
    · intro hdir
      exact hp.file (hsame ▸ hdir)
    · intro hdir
      obtain ⟨content, hcontent⟩ := Option.isSome_iff_exists.mp (hfile rfl)
      have hitem := FileVolume.fileAt_eq_some.mp hcontent
      exact absurd (hdir.symm.trans hitem) (by simp)
  · obtain ⟨-, leftover, hleftover, -⟩ := hwritten h
    exact ⟨leftover, (stateFile_withVolume hclosed).trans hleftover⟩
  · exact (stateFile_withVolume hclosed).trans (hfailed hp.healthy h)

/-- Work below the root that keeps the items and leaves the snapshot alone. -/
theorem below_keeps (hp : p.Sound) {w : EfiVolume} (hsettled : Settled p.opened w)
    (hkept : ∀ q, ItemKept p.opened w q)
    (hsame : w.files.items (p.opened.pathOf statePath) =
      p.opened.files.items (p.opened.pathOf statePath)) :
    Kept p (p.withVolume (w.close p.volume.files.next)) ∧
      (p.withVolume (w.close p.volume.files.next)).Sound ∧
      (p.withVolume (w.close p.volume.files.next)).stateFile = p.stateFile := by
  have hclosed := settled_below hsettled
  refine ⟨kept_of_settled hclosed hkept, sound_withVolume hp hclosed ?_, ?_⟩
  · intro hdir
    exact hp.file (hsame ▸ hdir)
  · rw [stateFile_withVolume hclosed]
    exact congrArg (Option.bind · VolumeItem.content) hsame

/-- Installing leaves the snapshot as it is. -/
theorem installFiles_law (hp : p.Sound) (image : Bytes) {result : Bool × PersistVolume}
    (hresult : p.below false (EfiSession.installFiles image) = result) :
    Kept p result.2 ∧ result.2.Sound ∧ result.2.stateFile = p.stateFile := by
  obtain ⟨hsettled, htouches, -, -⟩ :=
    efiWriteFile_law (v := p.opened) bootPath_plain (opened_root p) image
  have hboot := htouches.away (state_not_prefix_boot p.opened)
  have hkept := htouches.kept (by simp [snsxPaths])
  rw [below_eq hp.healthy.opens, EfiSession.installFiles] at hresult
  generalize efiWriteFile p.opened p.volume.files.next bootPath image = boot at *
  subst hresult
  rcases boot with ⟨_ | _, w⟩
  · exact below_keeps hp hsettled hkept hboot
  · have hroot : w.files.handles p.volume.files.next = some ⟨[], 0⟩ := by
      rw [hsettled.handles]
      exact opened_root p
    obtain ⟨hsettled', htouches', -, -⟩ :=
      efiWriteFile_law (v := w) readmePath_plain hroot installNote
    have hreadme := htouches'.away (state_not_prefix_readme w)
    rw [pathOf_settled hsettled] at hreadme
    exact below_keeps hp (hsettled.trans hsettled')
      (fun q => (hkept q).trans hsettled (htouches'.kept (by simp [snsxPaths]) q))
      (hreadme.trans hboot)

end Save

section Session

/-- The session with files does what the one with snapshots does. -/
structure SessionShows (s : EfiSession) (t : DiskSession) : Prop where
  fs : s.fs = t.fs
  sized : AllEntries Sized s.fs
  volumes : List.Forall₂ ShowsVolume s.volumes t.volumes
  few : s.volumes.length ≤ persistMaxVolumes

def SessionKept (s s' : EfiSession) : Prop := List.Forall₂ Kept s.volumes s'.volumes

theorem SessionKept.refl (s : EfiSession) : SessionKept s s :=
  List.forall₂_same.mpr fun p _ => Kept.refl p

theorem SessionKept.trans {s s' s'' : EfiSession} (h : SessionKept s s')
    (h' : SessionKept s' s'') : SessionKept s s'' :=
  forall₂_trans (fun _ _ _ hp hp' => hp.trans hp') h h'

variable {s : EfiSession} {t : DiskSession}

theorem SessionShows.setPersist (h : SessionShows s t) (persist : PersistState) :
    SessionShows (s.setPersist persist) (t.setPersist persist) :=
  ⟨by rw [EfiSession.setPersist, DiskSession.setPersist, h.fs], h.sized, h.volumes, h.few⟩

theorem SessionShows.setDirty (h : SessionShows s t) : SessionShows s.setDirty t.setDirty := by
  rw [EfiSession.setDirty, DiskSession.setDirty, h.fs]
  exact h.setPersist _

theorem SessionShows.select (h : SessionShows s t) (index : Nat) :
    SessionShows (s.select index) (t.select index) := by
  rw [EfiSession.select, DiskSession.select, h.fs]
  exact h.setPersist _

theorem SessionShows.writableAt (h : SessionShows s t) (index : Nat) :
    s.writableAt index = t.writableAt index := by
  rw [EfiSession.writableAt, DiskSession.writableAt]
  cases hp : s.volumes[index]? with
  | none => rw [forall₂_getElem?_none h.volumes hp]
  | some p =>
    obtain ⟨volume, hvolume, hshow⟩ := forall₂_getElem? h.volumes hp
    rw [hvolume]
    exact hshow.writable.symm

/-- A change to one volume. -/
theorem SessionShows.setVolume (h : SessionShows s t) {index : Nat} {p p' : PersistVolume}
    (hp : s.volumes[index]? = some p) (hkept : Kept p p') {f : Volume → Volume}
    (hshows : ∀ volume, ShowsVolume p volume → ShowsVolume p' (f volume)) :
    SessionShows { s with volumes := s.volumes.set index p' }
        { t with volumes := t.volumes.modify index f } ∧
      SessionKept s { s with volumes := s.volumes.set index p' } := by
  refine ⟨⟨h.fs, h.sized, forall₂_set_modify h.volumes index fun volume hvolume => ?_, ?_⟩,
    forall₂_set Kept.refl hp hkept⟩
  · obtain ⟨volume', hvolume', hshow⟩ := forall₂_getElem? h.volumes hp
    rw [hvolume'] at hvolume
    exact hshows _ (Option.some.inj hvolume ▸ hshow)
  · rw [List.length_set]
    exact h.few

theorem flush_false (t : DiskSession) : t.flush false = t := by
  rw [DiskSession.flush, persistFlushState]
  cases writtenState t.fs <;> rfl

theorem flush_true {bytes : Bytes} (h : writtenState t.fs = some bytes) : t.flush true =
    DiskSession.setPersist ⟨t.fs, t.volumes.modify t.fs.persist.volumeIndex
        fun volume => { volume with state := some bytes }⟩
      { t.fs.persist with dirty := false, installed := true } := by
  rw [DiskSession.flush, persistFlushState, h]
  rfl

/-- Work on the selected volume. -/
theorem SessionShows.onTarget (h : SessionShows s t) (work : EfiVolume → Nat → Bool × EfiVolume)
    {P : Bool → PersistVolume → PersistVolume → Prop}
    (hwork : ∀ p : PersistVolume, p.Sound → ∀ result, p.below false work = result →
      Kept p result.2 ∧ P result.1 p result.2) {f : Bool → Volume → Volume}
    (hfalse : f false = id)
    (hshows : ∀ done p p' volume, P done p p' → ShowsVolume p volume →
      ShowsVolume p' (f done volume)) :
    SessionShows (s.onTarget work).2
        ⟨t.fs, t.volumes.modify t.fs.persist.volumeIndex (f (s.onTarget work).1)⟩ ∧
      SessionKept s (s.onTarget work).2 := by
  rw [EfiSession.onTarget]
  cases hp : s.volumes[s.fs.persist.volumeIndex]? with
  | none =>
    dsimp only
    rw [hfalse, List.modify_id]
    exact ⟨h, SessionKept.refl s⟩
  | some p =>
    obtain ⟨volume, -, hshow⟩ := forall₂_getElem? h.volumes hp
    obtain ⟨hkept, hdone⟩ := hwork p hshow.sound _ rfl
    have hindex : t.fs.persist.volumeIndex = s.fs.persist.volumeIndex := by rw [h.fs]
    rw [hindex]
    exact h.setVolume hp hkept fun volume hvolume => hshows _ _ _ _ hdone hvolume

theorem SessionShows.flush (h : SessionShows s t) :
    ∃ accepted, SessionShows s.flush (t.flush accepted) ∧ SessionKept s s.flush := by
  rw [EfiSession.flush]
  by_cases hdirty : s.fs.persist.available = true ∧ s.fs.persist.dirty = true
  · rw [if_pos hdirty]
    cases hbytes : persistSerialize s.fs.entries persistMaxStateSize with
    | none => exact ⟨false, by rw [flush_false]; exact h, SessionKept.refl s⟩
    | some bytes =>
      have hwritten : writtenState t.fs = some bytes := by
        rw [writtenState, ← h.fs, if_pos hdirty, hbytes]
      obtain ⟨hshows, hkept⟩ := h.onTarget (fun v root => efiWriteFile v root statePath bytes)
        (P := fun done p p' => p'.Sound ∧
          (done = true → ∃ leftover, p'.stateFile = some (bytes ++ leftover)) ∧
          (done = false → p'.stateFile = p.stateFile) ∧ p'.writable = p.writable)
        (f := fun done => if done then fun volume => { volume with state := some bytes } else id)
        (fun p hp result hresult => by
          obtain ⟨hkept, hsound, htrue, hfalse⟩ := writeState_law hp bytes hresult
          exact ⟨hkept, hsound, htrue, hfalse, hkept.writable⟩) rfl
        (fun done p p' volume hdone hshow => by
          obtain ⟨hsound, htrue, hfalse, hwritable⟩ := hdone
          cases done with
          | false =>
            exact ⟨hshow.writable.trans hwritable.symm, (hfalse rfl) ▸ hshow.state, hsound⟩
          | true =>
            obtain ⟨leftover, hleftover⟩ := htrue rfl
            exact ⟨hshow.writable.trans hwritable.symm,
              .inr ⟨s.fs, bytes, leftover, h.sized, hbytes, rfl, hleftover⟩, hsound⟩)
      dsimp only
      generalize s.onTarget (fun v root => efiWriteFile v root statePath bytes) = written at *
      rcases written with ⟨_ | _, s'⟩
      · refine ⟨false, ?_, hkept⟩
        rw [flush_false]
        rw [if_neg Bool.false_ne_true, List.modify_id] at hshows
        exact hshows
      · refine ⟨true, ?_, hkept⟩
        rw [flush_true hwritten, h.fs]
        exact hshows.setPersist _
  · rw [if_neg hdirty]
    exact ⟨false, by rw [flush_false]; exact h, SessionKept.refl s⟩

/-- The image is looked for on one volume after another. -/
theorem persistReadBootImage_law {volumes : List PersistVolume}
    (hsound : ∀ p ∈ volumes, p.Sound) :
    List.Forall₂ OnlyRead volumes (persistReadBootImage volumes).2 := by
  induction volumes with
  | nil => exact .nil
  | cons p volumes ih =>
    have hrest := ih fun q hq => hsound q (List.mem_cons_of_mem _ hq)
    obtain ⟨hread, -, -⟩ := readFile_law (hsound p List.mem_cons_self).healthy bootPath_plain
      persistBootMaxSize
    rw [persistReadBootImage]
    generalize p.readFile bootPath persistBootMaxSize = result at *
    rcases result with ⟨_ | image, p'⟩
    · exact .cons hread hrest
    · exact .cons hread (onlyRead_refl volumes)

/-- Reading the volumes leaves the session as it is. -/
theorem SessionShows.onlyRead (h : SessionShows s t) {volumes : List PersistVolume}
    (hread : List.Forall₂ OnlyRead s.volumes volumes) :
    SessionShows { s with volumes := volumes } t ∧ SessionKept s { s with volumes := volumes } :=
  ⟨⟨h.fs, h.sized, forall₂_joined (fun _ _ _ hshow hread => hshow.onlyRead hread) h.volumes hread,
    hread.length_eq ▸ h.few⟩, hread.imp fun _ _ h => h.kept⟩

theorem SessionShows.sound (h : SessionShows s t) : ∀ p ∈ s.volumes, p.Sound := by
  intro p hp
  obtain ⟨index, hindex⟩ := List.mem_iff_getElem?.mp hp
  obtain ⟨volume, -, hshow⟩ := forall₂_getElem? h.volumes hindex
  exact hshow.sound

theorem install_not (t : DiskSession) : t.install false false = t := by
  rw [DiskSession.install, if_neg fun h => Bool.false_ne_true h.2]

theorem SessionShows.install (h : SessionShows s t) :
    ∃ copied accepted, SessionShows s.install (t.install copied accepted) ∧
      SessionKept s s.install := by
  rw [EfiSession.install]
  by_cases havailable : s.fs.persist.available = true
  · rw [if_pos havailable]
    obtain ⟨hshows, hkept⟩ := h.onlyRead (persistReadBootImage_law h.sound)
    generalize persistReadBootImage s.volumes = found at *
    rcases found with ⟨_ | image, volumes⟩
    · exact ⟨false, false, by rw [install_not]; exact hshows, hkept⟩
    · obtain ⟨hshows', hkept'⟩ := hshows.onTarget (EfiSession.installFiles image)
        (P := fun _ p p' => p'.Sound ∧ p'.stateFile = p.stateFile ∧ p'.writable = p.writable)
        (f := fun _ => id)
        (fun p hp result hresult => by
          obtain ⟨hkept, hsound, hsame⟩ := installFiles_law hp image hresult
          exact ⟨hkept, hsound, hsame, hkept.writable⟩) rfl
        (fun done p p' volume hdone hshow => ⟨hshow.writable.trans hdone.2.2.symm,
          hdone.2.1 ▸ hshow.state, hdone.1⟩)
      rw [List.modify_id] at hshows'
      dsimp only at hshows' hkept' ⊢
      generalize (EfiSession.onTarget _ (EfiSession.installFiles image)) = written at *
      rcases written with ⟨_ | _, s'⟩
      · exact ⟨false, false, by rw [install_not]; exact hshows', hkept.trans hkept'⟩
      · have hdirty := hshows'.setPersist { t.fs.persist with installed := true, dirty := true }
        obtain ⟨accepted, hflush, hflushed⟩ := hdirty.flush
        have htarget : t.fs.persist.available = true ∧ true = true := ⟨h.fs ▸ havailable, rfl⟩
        refine ⟨true, accepted, ?_, (hkept.trans hkept').trans ?_⟩
        · rw [DiskSession.install, if_pos htarget, h.fs]
          exact hflush
        · rw [h.fs]
          exact hflushed
  · rw [if_neg havailable]
    exact ⟨false, false, by rw [install_not]; exact h, SessionKept.refl s⟩

end Session

section Scan

variable {disks : List EfiDisk} {volumes : List Volume}

/-- A disk whose volume works and has no directory in the place of the snapshot. -/
def EfiDisk.Sound (disk : EfiDisk) : Prop := ∀ v ∈ disk.volume, v.driver.Healthy ∧
  v.files.items (v.pathOf statePath) ≠ some .directory

theorem efiProbeWritable_law {v : EfiVolume} (hopens : v.driver.opensVolume = true)
    (bootDevice : Bool) : (efiProbeWritable bootDevice v).1 =
        (if v.driver.tellsReadOnly then !v.readOnly else !bootDevice) ∧
      Settled v (efiProbeWritable bootDevice v).2 ∧
      (efiProbeWritable bootDevice v).2.files.items = v.files.items := by
  rw [efiProbeWritable, efiOpenRoot, if_pos hopens]
  refine ⟨rfl, ⟨rfl, rfl, Nat.le_succ _, ?_⟩, rfl⟩
  exact FileVolume.close_new _ (v.files.fresh _ le_rfl) _

theorem persistScanLoop_length (room : Nat) (disks : List EfiDisk) :
    (persistScanLoop room disks).length ≤ room := by
  induction disks generalizing room with
  | nil => cases room <;> exact Nat.zero_le _
  | cons disk disks ih =>
    cases room with
    | zero => exact le_rfl
    | succ room =>
      rw [persistScanLoop]
      split
      · exact ih (room + 1)
      · exact Nat.succ_le_succ (ih room)

theorem persistScanLoop_sound (hdisks : ∀ disk ∈ disks, disk.Sound) (room : Nat) :
    ∀ p ∈ persistScanLoop room disks, p.Sound := by
  induction disks generalizing room with
  | nil => cases room <;> simp [persistScanLoop]
  | cons disk disks ih =>
    have hrest := ih fun d hd => hdisks d (List.mem_cons_of_mem _ hd)
    cases room with
    | zero => simp [persistScanLoop]
    | succ room =>
      rw [persistScanLoop]
      cases hvolume : disk.volume with
      | none => exact hrest (room + 1)
      | some v =>
        obtain ⟨hhealthy, hfile⟩ := hdisks disk List.mem_cons_self v hvolume
        obtain ⟨hprobed, hsettled, hitems⟩ := efiProbeWritable_law hhealthy.opens disk.bootDevice
        intro p hp
        rcases List.mem_cons.mp hp with rfl | hp
        · refine ⟨hsettled.driver ▸ hhealthy, ?_, ?_⟩
          · dsimp only
            rw [hitems, pathOf_settled hsettled]
            exact hfile
          · rw [PersistVolume.probed, hprobed, hsettled.driver, hsettled.readOnly]
        · exact hrest room p hp

/-- The snapshots on the volumes. -/
def snapshots (volumes : List PersistVolume) : List Volume :=
  volumes.map fun p => ⟨p.writable, p.stateFile⟩

theorem shows_snapshots {volumes : List PersistVolume} (hsound : ∀ p ∈ volumes, p.Sound) :
    List.Forall₂ ShowsVolume volumes (snapshots volumes) := by
  rw [snapshots, List.forall₂_map_right_iff]
  exact List.forall₂_same.mpr fun p hp => ⟨rfl, .inl rfl, hsound p hp⟩

/-- Listing the volumes once more gives the same volumes. -/
theorem persistScanLoop_again {volumes : List PersistVolume} (hsound : ∀ p ∈ volumes, p.Sound)
    {room : Nat} (hroom : volumes.length ≤ room) : List.Forall₂ OnlyRead volumes
      (persistScanLoop room (volumes.map fun p => ⟨p.bootDevice, some p.volume⟩)) := by
  induction volumes generalizing room with
  | nil => cases room <;> exact .nil
  | cons p volumes ih =>
    cases room with
    | zero => exact absurd hroom (Nat.not_succ_le_zero _)
    | succ room =>
      have hp := hsound p List.mem_cons_self
      obtain ⟨hprobed, hsettled, hitems⟩ := efiProbeWritable_law hp.healthy.opens p.bootDevice
      rw [List.map_cons, persistScanLoop]
      exact .cons ⟨rfl, hprobed.trans hp.probed.symm, hsettled, hitems⟩
        (ih (fun q hq => hsound q (List.mem_cons_of_mem _ hq)) (Nat.le_of_succ_le_succ hroom))

end Scan

section Discovered

variable {s : EfiSession} {t : DiskSession}

theorem discover_shows {disks : List EfiDisk} {volumes : List Volume}
    (hshows : List.Forall₂ ShowsVolume (persistScanVolumes disks) volumes) {fs : ArmFs}
    (hsized : AllEntries Sized fs) :
    SessionShows (EfiSession.discover fs disks) ⟨persistDiscover fs volumes, volumes⟩ := by
  obtain ⟨hfs, hread⟩ := discover_law hshows fs
  refine ⟨hfs, ?_, forall₂_joined (fun _ _ _ h h' => h.onlyRead h') hshows hread, ?_⟩
  · rw [hfs]
    exact persistDiscover_sized hsized volumes
  · rw [← hread.length_eq]
    exact persistScanLoop_length _ _

/-- RESCAN and a new start find the volumes as they were left. -/
theorem SessionShows.discover (h : SessionShows s t) {fs : ArmFs} (hsized : AllEntries Sized fs) :
    SessionShows (EfiSession.discover fs s.disks)
        ⟨persistDiscover fs t.volumes, t.volumes⟩ ∧
      SessionKept s (EfiSession.discover fs s.disks) := by
  have hagain := persistScanLoop_again h.sound h.few
  have hshows : List.Forall₂ ShowsVolume (persistScanVolumes s.disks) t.volumes :=
    forall₂_joined (fun _ _ _ h h' => h.onlyRead h') h.volumes hagain
  refine ⟨discover_shows hshows hsized, ?_⟩
  obtain ⟨-, hread⟩ := discover_law hshows fs
  exact forall₂_trans (fun _ _ _ h h' => (h.trans h').kept) hagain hread

end Discovered

section Run

/-- What the disk manager shows of a volume is right: whether it is writable and selected, and
whether a snapshot can be read. -/
structure InfoShows (selected index : Nat) (info : DiskVolumeInfo) (volume : Volume) : Prop where
  writable : info.writable = volume.writable
  hasState : info.hasState = volume.state.isSome
  selected : info.selected = true ↔ index = selected

theorem readStateAndBoot_law {p : PersistVolume} (hp : p.Sound) :
    OnlyRead p (p.below (none, none) readStateAndBoot).2 ∧
      (p.below (none, none) readStateAndBoot).1.1 =
        p.stateFile.map (List.take persistMaxStateSize) := by
  obtain ⟨-, hstate⟩ := readState_law hp
  rw [PersistVolume.readState, PersistVolume.readFile, below_eq hp.healthy.opens] at hstate
  obtain ⟨hsettled, hitems, -, -⟩ :=
    efiReadFile_law (v := p.opened) statePath_plain (opened_root p) persistMaxStateSize
  rw [below_eq hp.healthy.opens, readStateAndBoot]
  generalize efiReadFile p.opened p.volume.files.next statePath persistMaxStateSize = state at *
  have hroot : state.2.files.handles p.volume.files.next = some ⟨[], 0⟩ := by
    rw [hsettled.handles]
    exact opened_root p
  obtain ⟨hsettled', hitems', -, -⟩ :=
    efiReadFile_law (v := state.2) bootPath_plain hroot persistBootMaxSize
  exact ⟨⟨rfl, rfl, settled_below (hsettled.trans hsettled'), hitems'.trans hitems⟩, hstate⟩

theorem diskCollectInfo_law {volumes : List PersistVolume} {snapshots : List Volume}
    (h : List.Forall₂ ShowsVolume volumes snapshots) (selected : Nat) {room : Nat}
    (hroom : volumes.length ≤ room) (start : Nat) :
    List.Forall₂ OnlyRead volumes (diskCollectInfo selected room start volumes).2 ∧
      (diskCollectInfo selected room start volumes).1.length = snapshots.length ∧
      ∀ index info volume, (diskCollectInfo selected room start volumes).1[index]? = some info →
        snapshots[index]? = some volume → InfoShows selected (start + index) info volume := by
  induction h generalizing room start with
  | nil =>
    refine ⟨?_, ?_, fun index info volume _ h => by cases h⟩
    · cases room <;> exact .nil
    · cases room <;> rfl
  | @cons p volume volumes snapshots hshow _ ih =>
    cases room with
    | zero => exact absurd hroom (Nat.not_succ_le_zero _)
    | succ room =>
      obtain ⟨hread, hstate⟩ := readStateAndBoot_law hshow.sound
      obtain ⟨hrest, hlength, hinfos⟩ := ih (Nat.le_of_succ_le_succ hroom) (start + 1)
      rw [diskCollectInfo]
      refine ⟨.cons hread hrest, congrArg Nat.succ hlength, fun index info v hinfo hv => ?_⟩
      cases index with
      | zero =>
        obtain rfl := Option.some.inj hinfo
        obtain rfl := Option.some.inj hv
        refine ⟨hshow.writable.symm, ?_, ?_⟩
        · rw [← hshow.state.isSome]
          dsimp only
          rw [hstate, Option.isSome_map]
        · exact beq_iff_eq
      | succ index =>
        rw [← Nat.succ_eq_add_one, ← Nat.succ_add_eq_add_succ]
        exact hinfos index info v hinfo hv

/-- What the firmware decides of an operation: whether a boot image was copied and whether the
snapshot was written. -/
structure EfiAnswer where
  copied : Bool
  accepted : Bool

/-- The operation on a session with snapshots. -/
def snapshotStep (t : DiskSession) : EfiOp × EfiAnswer → DiskSession
  | (.fs op, _) => diskStep t (.fs op)
  | (.flush, answer) => diskStep t (.flush answer.accepted)
  | (.save, answer) => diskStep t (.save answer.accepted)
  | (.autosave, answer) => diskStep t (.autosave answer.accepted)
  | (.use index, _) => diskStep t (.use index)
  | (.install, answer) => diskStep t (.install answer.copied answer.accepted)
  | (.installTo index, answer) => diskStep t (.installTo index answer.copied answer.accepted)
  | (.saveTo index, answer) => diskStep t (.saveTo index answer.accepted)
  | (.rescan, _) => diskStep t (.rescan t.volumes)
  | (.attach disks, _) => diskStep t (.rescan (snapshots (persistScanVolumes disks)))
  | (.restart, _) => diskStart t.fs t.volumes
  | (.info, _) => t

/-- The disks that are attached work. -/
def EfiOp.Sound : EfiOp → Prop
  | .attach disks => ∀ disk ∈ disks, disk.Sound
  | _ => True

/-- The volumes stay the same ones. -/
def EfiOp.Stays : EfiOp → Prop
  | .attach _ => False
  | _ => True

variable {s : EfiSession} {t : DiskSession}

theorem fsSeed_sized (fs : ArmFs) : AllEntries Sized (fsSeed fs) := by
  have h := run_seed_sized fs []
  rwa [run_nil] at h

theorem efiStep_shows (h : SessionShows s t) {op : EfiOp} (hop : op.Sound) :
    ∃ answer, SessionShows (efiStep s op) (snapshotStep t (op, answer)) ∧
      (op.Stays → SessionKept s (efiStep s op)) := by
  cases op with
  | fs op =>
    refine ⟨⟨false, false⟩, ⟨?_, fsStep_sized h.sized op, h.volumes, h.few⟩,
      fun _ => SessionKept.refl s⟩
    exact congrArg (fsStep · op) h.fs
  | flush =>
    obtain ⟨accepted, hflush, hkept⟩ := h.flush
    exact ⟨⟨false, accepted⟩, hflush, fun _ => hkept⟩
  | save =>
    obtain ⟨accepted, hflush, hkept⟩ := h.setDirty.flush
    exact ⟨⟨false, accepted⟩, hflush, fun _ => hkept⟩
  | autosave =>
    rw [efiStep]
    by_cases havailable : s.fs.persist.available = true
    · have havailable' : t.fs.persist.available = true := h.fs ▸ havailable
      obtain ⟨accepted, hflush, hkept⟩ := h.setDirty.flush
      refine ⟨⟨false, accepted⟩, ?_, fun _ => ?_⟩
      · rw [if_pos havailable]
        change SessionShows _
          (if t.fs.persist.available = true then t.setDirty.flush accepted else t)
        rw [if_pos havailable']
        exact hflush
      · rw [if_pos havailable]
        exact hkept
    · have havailable' : ¬ t.fs.persist.available = true := h.fs ▸ havailable
      refine ⟨⟨false, false⟩, ?_, fun _ => ?_⟩
      · rw [if_neg havailable]
        change SessionShows _ (if t.fs.persist.available = true then t.setDirty.flush false else t)
        rw [if_neg havailable']
        exact h
      · rw [if_neg havailable]
        exact SessionKept.refl s
  | use index =>
    refine ⟨⟨false, false⟩, ?_, fun _ => ?_⟩
    · rw [efiStep, h.volumes.length_eq]
      change SessionShows _ (if index < t.volumes.length then t.select index else t)
      split
      · exact h.select index
      · exact h
    · rw [efiStep]
      split
      · exact SessionKept.refl s
      · exact SessionKept.refl s
  | install =>
    obtain ⟨copied, accepted, hinstall, hkept⟩ := h.install
    exact ⟨⟨copied, accepted⟩, hinstall, fun _ => hkept⟩
  | installTo index =>
    rw [efiStep]
    by_cases hwritable : s.writableAt index = true
    · obtain ⟨copied, accepted, hinstall, hkept⟩ := (h.select index).install
      refine ⟨⟨copied, accepted⟩, ?_, fun _ => ?_⟩
      · rw [if_pos hwritable, snapshotStep, diskStep, if_pos (h.writableAt index ▸ hwritable)]
        exact hinstall
      · rw [if_pos hwritable]
        exact hkept
    · refine ⟨⟨false, false⟩, ?_, fun _ => ?_⟩
      · rw [if_neg hwritable, snapshotStep, diskStep, if_neg (h.writableAt index ▸ hwritable)]
        exact h
      · rw [if_neg hwritable]
        exact SessionKept.refl s
  | saveTo index =>
    rw [efiStep]
    by_cases hwritable : s.writableAt index = true
    · obtain ⟨accepted, hflush, hkept⟩ := (h.select index).setDirty.flush
      refine ⟨⟨false, accepted⟩, ?_, fun _ => ?_⟩
      · rw [if_pos hwritable, snapshotStep, diskStep, if_pos (h.writableAt index ▸ hwritable)]
        exact hflush
      · rw [if_pos hwritable]
        exact hkept
    · refine ⟨⟨false, false⟩, ?_, fun _ => ?_⟩
      · rw [if_neg hwritable, snapshotStep, diskStep, if_neg (h.writableAt index ▸ hwritable)]
        exact h
      · rw [if_neg hwritable]
        exact SessionKept.refl s
  | rescan =>
    obtain ⟨hshows, hkept⟩ := h.discover h.sized
    refine ⟨⟨false, false⟩, ?_, fun _ => hkept⟩
    change SessionShows (EfiSession.discover s.fs s.disks)
      ⟨persistDiscover t.fs t.volumes, t.volumes⟩
    rw [← h.fs]
    exact hshows
  | attach disks =>
    have hshows := discover_shows (shows_snapshots (persistScanLoop_sound hop persistMaxVolumes))
      h.sized
    refine ⟨⟨false, false⟩, ?_, False.elim⟩
    change SessionShows (EfiSession.discover s.fs disks)
      ⟨persistDiscover t.fs (snapshots (persistScanVolumes disks)),
        snapshots (persistScanVolumes disks)⟩
    rw [← h.fs]
    exact hshows
  | restart =>
    obtain ⟨hshows, hkept⟩ := h.discover (fsSeed_sized s.fs)
    refine ⟨⟨false, false⟩, ?_, fun _ => hkept⟩
    change SessionShows (EfiSession.discover (fsSeed s.fs) s.disks)
      ⟨persistDiscover (fsSeed t.fs) t.volumes, t.volumes⟩
    rw [← h.fs]
    exact hshows
  | info =>
    obtain ⟨hread, -, -⟩ := diskCollectInfo_law h.volumes s.fs.persist.volumeIndex h.few 0
    obtain ⟨hshows, hkept⟩ := h.onlyRead hread
    exact ⟨⟨false, false⟩, hshows, fun _ => hkept⟩

theorem efiRun_shows (h : SessionShows s t) (ops : List EfiOp) (hops : ∀ op ∈ ops, op.Sound) :
    ∃ answers : List (EfiOp × EfiAnswer), answers.map Prod.fst = ops ∧
      SessionShows (run efiStep s ops) (run snapshotStep t answers) ∧
      ((∀ op ∈ ops, op.Stays) → SessionKept s (run efiStep s ops)) := by
  induction ops generalizing s t with
  | nil => exact ⟨[], rfl, h, fun _ => SessionKept.refl s⟩
  | cons op ops ih =>
    obtain ⟨answer, hstep, hkept⟩ := efiStep_shows h (hops op List.mem_cons_self)
    obtain ⟨answers, hanswers, hrun, hrest⟩ := ih hstep fun op hop =>
      hops op (List.mem_cons_of_mem _ hop)
    refine ⟨(op, answer) :: answers, by rw [List.map_cons, hanswers], hrun, fun hstays => ?_⟩
    exact (hkept (hstays op List.mem_cons_self)).trans
      (hrest fun op hop => hstays op (List.mem_cons_of_mem _ hop))

/-- The session after `fs_seed` and the first `persist_discover`. -/
def efiStart (fs : ArmFs) (disks : List EfiDisk) : EfiSession :=
  EfiSession.discover (fsSeed fs) disks

/-- What the disk manager shows goes with the session. -/
theorem SessionShows.diskInfos (h : SessionShows s t) :
    s.diskInfos.1.length = t.volumes.length ∧
      ∀ index info volume, s.diskInfos.1[index]? = some info →
        t.volumes[index]? = some volume → InfoShows t.fs.persist.volumeIndex index info volume := by
  obtain ⟨-, hlength, hinfos⟩ :=
    diskCollectInfo_law h.volumes s.fs.persist.volumeIndex h.few 0
  refine ⟨hlength, fun index info volume hinfo hvolume => ?_⟩
  have hshow := hinfos index info volume hinfo hvolume
  rwa [Nat.zero_add, h.fs] at hshow

/-- A firmware that tells names apart but for case, reads two bytes at a time and cannot cut off
a file. -/
def plainDriver : EfiDriver where
  fold name := name.map upperCase
  apart _ _ _ _ h := h
  opensVolume := true
  tellsReadOnly := false
  creates _ := true
  readable _ _ := true
  chunk _ _ _ := 2
  chunk_pos _ _ _ _ := Nat.two_pos
  readDirectory _ _ _ := none
  setsPosition := false
  setsSize _ := false
  rejects _ _ := none

/-- An empty volume. -/
def emptyVolume : EfiVolume where
  driver := plainDriver
  readOnly := false
  files :=
    { items := fun path => if path = [] then some .directory else none
      handles := fun _ => none
      next := 0
      root := rfl
      parent := fun path name h => absurd (if_neg (by simp)) h
      fresh := fun _ _ => rfl }

end Run

end SnsxOS.Arm64
