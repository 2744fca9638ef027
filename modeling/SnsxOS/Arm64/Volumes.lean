import SnsxOS.Arm64.Load

/-!
# Saving to a volume and finding the snapshot again

The firmware lists the volumes; of each one the kernel knows whether it is writable and what
reading `/SNSX/STATE.BIN` gives.
-/

namespace SnsxOS.Arm64

open Framework

structure Volume where
  writable : Bool
  /-- the content of `/SNSX/STATE.BIN` when it can be read -/
  state : Option Bytes
  deriving DecidableEq

/-- `efi_read_file` fills the state buffer at most. -/
def Volume.readState (volume : Volume) : Option Bytes :=
  volume.state.map fun bytes => bytes.take persistMaxStateSize

/-- The bytes `persist_flush_state` hands to the firmware. -/
def writtenState (fs : ArmFs) : Option Bytes :=
  if fs.persist.available = true ∧ fs.persist.dirty = true then
    persistSerialize fs.entries persistMaxStateSize
  else none

/-- `accepted` tells whether the firmware opens the volume and writes the file. -/
def persistFlushState (fs : ArmFs) (volumes : List Volume) (accepted : Bool) :
    ArmFs × List Volume :=
  match writtenState fs with
  | none => (fs, volumes)
  | some bytes =>
      if accepted then
        ({ fs with persist := { fs.persist with dirty := false, installed := true } },
          volumes.modify fs.persist.volumeIndex fun volume => { volume with state := some bytes })
      else (fs, volumes)

def holdsState (volume : Volume) : Bool := volume.writable && volume.state.isSome

/-- The snapshot that `persist_discover` applies. -/
def foundState (volumes : List Volume) : Option Bytes :=
  (volumes.find? holdsState).bind Volume.readState

/-- The table after `persist_read_state_from_volume` has applied the snapshot. -/
def applyState (fs : ArmFs) (volumes : List Volume) : ArmFs :=
  match foundState volumes with
  | none => fs
  | some bytes => (persistDeserialize fs bytes).2

def persistDiscover (fs : ArmFs) (volumes : List Volume) : ArmFs :=
  match volumes.findIdx? holdsState with
  | some index =>
      let fs := applyState { fs with persist := ⟨true, false, true, index⟩ } volumes
      { fs with persist := { fs.persist with dirty := false } }
  | none =>
      match volumes.findIdx? Volume.writable with
      | some index => { fs with persist := ⟨true, false, false, index⟩ }
      | none => { fs with persist := ⟨false, false, false, fs.persist.volumeIndex⟩ }

section Restore

variable {fs : ArmFs} {bytes : Bytes}

theorem writtenState_eq_some (h : writtenState fs = some bytes) :
    persistSerialize fs.entries persistMaxStateSize = some bytes := by
  rw [writtenState] at h
  split at h
  · exact h
  · cases h

/-- What a successful save writes is what reading the volume gives. -/
theorem persistFlushState_readState (hsized : AllEntries Sized fs)
    (h : writtenState fs = some bytes) {volumes : List Volume}
    (hindex : fs.persist.volumeIndex < volumes.length) :
    ((persistFlushState fs volumes true).2[fs.persist.volumeIndex]?).bind Volume.readState =
      some bytes := by
  have hlen := persistSerialize_length hsized (writtenState_eq_some h)
  simp only [persistFlushState, h, if_true, List.getElem?_modify_eq,
    List.getElem?_eq_getElem hindex, Option.map_eq_map, Option.map_some, Option.bind_some,
    Volume.readState, List.take_of_length_le hlen]

/-- The discovered snapshot is loaded up to the first path that does not fit. -/
theorem persistDiscover_nodes {saved : ArmFs} (hsized : AllEntries Sized saved)
    (hbytes : persistSerialize saved.entries persistMaxStateSize = some bytes)
    {volumes : List Volume} (hfound : foundState volumes = some bytes) (hok : EntriesOk fs) :
    (persistDiscover fs volumes).nodes =
      (saved.nodes.takeWhile pathFits).foldl loadNode fs.nodes := by
  have hsome : ∃ index, volumes.findIdx? holdsState = some index := by
    cases hindex : volumes.findIdx? holdsState with
    | some index => exact ⟨index, rfl⟩
    | none =>
      rw [List.findIdx?_eq_none_iff] at hindex
      rw [foundState, List.find?_eq_none.mpr fun v hv => by simp [hindex v hv]] at hfound
      cases hfound
  obtain ⟨index, hindex⟩ := hsome
  have hnul : ∀ node ∈ saved.nodes.takeWhile pathFits, NulFree node.path := fun node hnode =>
    nodes_nulFree saved node ((List.takeWhile_sublist _).subset hnode)
  have htarget : EntriesOk { fs with persist := ⟨true, false, true, index⟩ } := hok
  rw [persistDiscover, hindex]
  simp only [applyState, hfound, persistDeserialize_serialize hsized hbytes]
  exact foldl_restoreNode_nodes htarget hnul

end Restore

end SnsxOS.Arm64
