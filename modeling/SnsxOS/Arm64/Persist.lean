import SnsxOS.Arm64.Entries
import SnsxOS.Framework.Replay
import SnsxOS.Lib.LittleEndian

/-!
# The snapshot of the ARM64 file system

`persist_serialize` lays the entries of the table one after another behind a header;
`persist_deserialize` replays them through `fs_mkdir` and `fs_write` and does not look at their
answers.
-/

namespace SnsxOS.Arm64

open Framework

def persistMaxStateSize : Nat := 524288

def snsxStateMagic : UInt32 := 0x58434e53

def snsxStateVersion : UInt32 := 1

def persistHeaderSize : Nat := 16

def persistEntryHeaderSize : Nat := 8

def ArmFsType.code : ArmFsType → UInt16
  | .text => 1
  | .dir => 2

/-- The header, path and data of one entry. -/
def persistEntry (entry : ArmFsEntry) : Bytes :=
  writeLe16 (UInt16.ofNat entry.path.length) ++ (writeLe16 entry.type.code ++
    (writeLe32 (UInt32.ofNat entry.size) ++ (entry.path ++ entry.bytes)))

def persistHeader (entryCount : UInt32) : Bytes :=
  writeLe32 snsxStateMagic ++ (writeLe32 snsxStateVersion ++
    (writeLe32 entryCount ++ writeLe32 0))

/-- The loop of `persist_serialize` from an offset on. -/
def persistSerializeLoop (capacity : Nat) : Nat → List ArmFsEntry → Option Bytes
  | _, [] => some []
  | offset, entry :: entries =>
      if capacity < offset + persistEntryHeaderSize + entry.path.length + entry.size then none
      else (persistSerializeLoop capacity
        (offset + persistEntryHeaderSize + entry.path.length + entry.size) entries).map
          fun rest => persistEntry entry ++ rest

/-- The bytes `persist_serialize` writes when it succeeds. -/
def persistSerialize (entries : List ArmFsEntry) (capacity : Nat) : Option Bytes :=
  if capacity < persistHeaderSize then none
  else (persistSerializeLoop capacity persistHeaderSize entries).map
    fun body => persistHeader (UInt32.ofNat entries.length) ++ body

/-- The loop of `persist_deserialize` with the number of entries left. -/
def persistDeserializeLoop (buffer : Bytes) : Nat → Nat → ArmFs → Bool × ArmFs
  | 0, _, fs => (true, fs)
  | remaining + 1, offset, fs =>
      if buffer.length < offset + persistEntryHeaderSize then (false, fs)
      else
        let pathLength := (readLe16 buffer offset).toNat
        let type := readLe16 buffer (offset + 2)
        let size := (readLe32 buffer (offset + 4)).toNat
        let offset := offset + persistEntryHeaderSize
        if fsPathMax < pathLength + 1 ∨ buffer.length < offset + pathLength + size then (false, fs)
        else
          let path := cString ((buffer.drop offset).take pathLength)
          let offset := offset + pathLength
          let fs := if type = ArmFsType.dir.code then (fsMkdir fs path).2
            else (fsWrite fs path ((buffer.drop offset).take size) .text).2
          persistDeserializeLoop buffer remaining (offset + size) fs

def persistDeserialize (fs : ArmFs) (buffer : Bytes) : Bool × ArmFs :=
  if buffer.length < persistHeaderSize then (false, fs)
  else if readLe32 buffer 0 ≠ snsxStateMagic ∨ readLe32 buffer 4 ≠ snsxStateVersion then
    (false, fs)
  else persistDeserializeLoop buffer (readLe32 buffer 8).toNat persistHeaderSize fs

/-- Replay one saved node. -/
def restoreNode (fs : ArmFs) (node : FileNode ArmFsType) : ArmFs :=
  if node.type = .dir then (fsMkdir fs node.path).2
  else (fsWrite fs node.path node.bytes .text).2

theorem Sized.bytes_length {entry : ArmFsEntry} (h : Sized entry) :
    entry.bytes.length = entry.size :=
  Buffer.length_read _ (by have := h.size_le; omega)

theorem Sized.dir_bytes {entry : ArmFsEntry} (h : Sized entry) (hdir : entry.type = .dir) :
    entry.bytes = [] := by
  rw [ArmFsEntry.bytes, h.dir_empty hdir, Buffer.read_zero_length]

theorem persistEntry_length {entry : ArmFsEntry} (h : Sized entry) :
    (persistEntry entry).length = persistEntryHeaderSize + entry.path.length + entry.size := by
  simp only [persistEntry, writeLe16, writeLe32, List.length_append, List.length_cons,
    List.length_nil, h.bytes_length, persistEntryHeaderSize]
  omega

theorem path_length_lt (entry : ArmFsEntry) : entry.path.length < 2 ^ 16 :=
  lt_of_le_of_lt entry.memory.str_length_le (by decide)

/-- The fields of an entry are read back from wherever it lies in the buffer. -/
theorem persistEntry_fields {entry : ArmFsEntry} (h : Sized entry) (pre rest : Bytes) :
    (readLe16 (pre ++ (persistEntry entry ++ rest)) pre.length).toNat = entry.path.length ∧
    readLe16 (pre ++ (persistEntry entry ++ rest)) (pre.length + 2) = entry.type.code ∧
    (readLe32 (pre ++ (persistEntry entry ++ rest)) (pre.length + 4)).toNat = entry.size := by
  have hpath := path_length_lt entry
  have hsize : entry.size < 2 ^ 32 := lt_of_le_of_lt h.size_le (by decide)
  refine ⟨?_, ?_, ?_⟩
  · rw [← Nat.add_zero pre.length, readLe16_append pre _ rfl]
    exact (congrArg UInt16.toNat (le16_bytes (UInt16.ofNat entry.path.length))).trans
      (by rw [UInt16.toNat_ofNat']; exact Nat.mod_eq_of_lt hpath)
  · rw [readLe16_append pre _ rfl]
    exact le16_bytes entry.type.code
  · rw [readLe32_append pre _ rfl]
    exact (congrArg UInt32.toNat (le32_bytes (UInt32.ofNat entry.size))).trans
      (by rw [UInt32.toNat_ofNat']; exact Nat.mod_eq_of_lt hsize)

/-- Path and data follow the fields. -/
theorem persistEntry_parts {entry : ArmFsEntry} (h : Sized entry) (pre rest : Bytes) :
    ((pre ++ (persistEntry entry ++ rest)).drop (pre.length + persistEntryHeaderSize)).take
      entry.path.length = entry.path ∧
    ((pre ++ (persistEntry entry ++ rest)).drop
      (pre.length + persistEntryHeaderSize + entry.path.length)).take entry.size =
      entry.bytes := by
  have hdrop : (pre ++ (persistEntry entry ++ rest)).drop
      (pre.length + persistEntryHeaderSize) = entry.path ++ (entry.bytes ++ rest) := by
    rw [← List.drop_drop, List.drop_left]
    simp [persistEntry, writeLe16, writeLe32, persistEntryHeaderSize]
  refine ⟨?_, ?_⟩
  · rw [hdrop, List.take_left]
  · rw [← List.drop_drop, hdrop, List.drop_left, ← h.bytes_length, List.take_left]

theorem code_eq_dir {type : ArmFsType} : type.code = ArmFsType.dir.code ↔ type = .dir := by
  cases type <;> decide

/-- One turn of the loop over an entry that was saved. -/
theorem persistDeserializeLoop_entry {entry : ArmFsEntry} (h : Sized entry)
    (pre rest : Bytes) (remaining : Nat) (fs : ArmFs) :
    persistDeserializeLoop (pre ++ (persistEntry entry ++ rest)) (remaining + 1) pre.length fs =
      if entry.path.length < fsPathMax then
        persistDeserializeLoop (pre ++ (persistEntry entry ++ rest)) remaining
          (pre ++ persistEntry entry).length (restoreNode fs entry.node)
      else (false, fs) := by
  obtain ⟨hpath, htype, hsize⟩ := persistEntry_fields h pre rest
  obtain ⟨hpathBytes, hdata⟩ := persistEntry_parts h pre rest
  have hlen := persistEntry_length h
  have htotal : (pre ++ (persistEntry entry ++ rest)).length =
      pre.length + (persistEntryHeaderSize + entry.path.length + entry.size) + rest.length := by
    rw [List.length_append, List.length_append, hlen]
    omega
  have hroom : ¬ (pre ++ (persistEntry entry ++ rest)).length <
      pre.length + persistEntryHeaderSize := by omega
  have hrest : ¬ (pre ++ (persistEntry entry ++ rest)).length <
      pre.length + persistEntryHeaderSize + entry.path.length + entry.size := by omega
  rw [persistDeserializeLoop, if_neg hroom]
  dsimp only
  rw [hpath, htype, hsize, hpathBytes, hdata, cString_of_nulFree (path_nulFree entry)]
  simp only [hrest, or_false, code_eq_dir]
  by_cases hfit : entry.path.length < fsPathMax
  · rw [if_neg (by omega), if_pos hfit]
    have hoffset : pre.length + persistEntryHeaderSize + entry.path.length + entry.size =
        (pre ++ persistEntry entry).length := by
      rw [List.length_append, hlen]
      omega
    rw [hoffset]
    rfl
  · rw [if_pos (by omega), if_neg hfit]

/-- The path of the node fits its field together with the terminator. -/
def pathFits (node : FileNode ArmFsType) : Bool := decide (node.path.length < fsPathMax)

/-- The loop replays the saved entries up to the first whose path does not fit. -/
theorem persistDeserializeLoop_entries {entries : List ArmFsEntry}
    (h : ∀ entry ∈ entries, Sized entry) (pre : Bytes) (fs : ArmFs) :
    persistDeserializeLoop (pre ++ entries.flatMap persistEntry) entries.length pre.length fs =
      ((entries.map ArmFsEntry.node).all pathFits,
        ((entries.map ArmFsEntry.node).takeWhile pathFits).foldl restoreNode fs) := by
  induction entries generalizing pre fs with
  | nil => rfl
  | cons entry entries ih =>
    have hturn := persistDeserializeLoop_entry (h entry (by simp)) pre
      (entries.flatMap persistEntry) entries.length fs
    have hrest := ih (fun e he => h e (by simp [he])) (pre ++ persistEntry entry)
      (restoreNode fs entry.node)
    rw [List.append_assoc] at hrest
    rw [List.flatMap_cons, List.length_cons, hturn, List.map_cons, List.all_cons,
      List.takeWhile_cons]
    by_cases hfit : entry.path.length < fsPathMax
    · have htrue : pathFits entry.node = true := decide_eq_true hfit
      rw [if_pos hfit, hrest, htrue, Bool.true_and, if_pos rfl, List.foldl_cons]
    · have hfalse : pathFits entry.node = false := decide_eq_false hfit
      rw [if_neg hfit, hfalse, Bool.false_and, if_neg (by decide), List.foldl_nil]

theorem persistSerializeLoop_some {capacity offset : Nat} {entries : List ArmFsEntry}
    {body : Bytes} (h : persistSerializeLoop capacity offset entries = some body) :
    body = entries.flatMap persistEntry := by
  induction entries generalizing offset body with
  | nil => exact (Option.some.inj h).symm
  | cons entry entries ih =>
    rw [persistSerializeLoop] at h
    split at h
    · cases h
    · obtain ⟨rest, hrest, rfl⟩ := Option.map_eq_some_iff.mp h
      rw [List.flatMap_cons, ih hrest]

theorem persistSerialize_some {capacity : Nat} {entries : List ArmFsEntry} {bytes : Bytes}
    (h : persistSerialize entries capacity = some bytes) :
    bytes = persistHeader (UInt32.ofNat entries.length) ++ entries.flatMap persistEntry := by
  rw [persistSerialize] at h
  split at h
  · cases h
  · obtain ⟨body, hbody, rfl⟩ := Option.map_eq_some_iff.mp h
    rw [persistSerializeLoop_some hbody]

/-- Reading back the header leads into the loop over all entries. -/
theorem persistDeserialize_header (entries : List ArmFsEntry)
    (hcount : entries.length ≤ fsMaxEntries) (fs : ArmFs) :
    persistDeserialize fs
        (persistHeader (UInt32.ofNat entries.length) ++ entries.flatMap persistEntry) =
      persistDeserializeLoop
        (persistHeader (UInt32.ofNat entries.length) ++ entries.flatMap persistEntry)
        entries.length persistHeaderSize fs := by
  have hlen : ¬ (persistHeader (UInt32.ofNat entries.length) ++
      entries.flatMap persistEntry).length < persistHeaderSize := by
    simp [persistHeader, writeLe32, persistHeaderSize]
  have hmagic : readLe32 (persistHeader (UInt32.ofNat entries.length) ++
      entries.flatMap persistEntry) 0 = snsxStateMagic := le32_bytes _
  have hversion : readLe32 (persistHeader (UInt32.ofNat entries.length) ++
      entries.flatMap persistEntry) 4 = snsxStateVersion := le32_bytes _
  have hentries : readLe32 (persistHeader (UInt32.ofNat entries.length) ++
      entries.flatMap persistEntry) 8 = UInt32.ofNat entries.length := le32_bytes _
  have hnat : (UInt32.ofNat entries.length).toNat = entries.length := by
    rw [UInt32.toNat_ofNat']
    exact Nat.mod_eq_of_lt (lt_of_le_of_lt hcount (by decide))
  rw [persistDeserialize, if_neg hlen, hmagic, hversion, hentries, hnat, if_neg (by simp)]

/-- The bytes the entries take in the snapshot. -/
def entriesSize (table : Table) : Nat :=
  (table.map fun node =>
    persistEntryHeaderSize + node.path.length + node.bytes.length).sum

theorem persistSerializeLoop_of_le {capacity offset : Nat} {entries : List ArmFsEntry}
    (hsized : ∀ entry ∈ entries, Sized entry)
    (h : offset + entriesSize (entries.map ArmFsEntry.node) ≤ capacity) :
    persistSerializeLoop capacity offset entries = some (entries.flatMap persistEntry) := by
  induction entries generalizing offset with
  | nil => rfl
  | cons entry entries ih =>
    have hsize : entry.node.bytes.length = entry.size := (hsized entry (by simp)).bytes_length
    rw [entriesSize, List.map_cons, List.map_cons, List.sum_cons, hsize,
      show entry.node.path = entry.path from rfl, ← entriesSize] at h
    rw [persistSerializeLoop, if_neg (by omega),
      ih (fun e he => hsized e (by simp [he])) (by omega), Option.map_some, List.flatMap_cons]

/-- A small enough table is saved. -/
theorem persistSerialize_of_le {fs : ArmFs} (hsized : AllEntries Sized fs)
    (h : persistHeaderSize + entriesSize fs.nodes ≤ persistMaxStateSize) :
    persistSerialize fs.entries persistMaxStateSize =
      some (persistHeader (UInt32.ofNat fs.entries.length) ++ fs.entries.flatMap persistEntry) := by
  rw [persistSerialize, if_neg (by decide), persistSerializeLoop_of_le hsized h, Option.map_some]

theorem persistSerializeLoop_length {capacity offset : Nat} {entries : List ArmFsEntry}
    {body : Bytes} (hsized : ∀ entry ∈ entries, Sized entry) (hoffset : offset ≤ capacity)
    (h : persistSerializeLoop capacity offset entries = some body) :
    offset + body.length ≤ capacity := by
  induction entries generalizing offset body with
  | nil =>
    obtain rfl := Option.some.inj h
    exact hoffset
  | cons entry entries ih =>
    rw [persistSerializeLoop] at h
    split at h
    · cases h
    · obtain ⟨rest, hrest, rfl⟩ := Option.map_eq_some_iff.mp h
      have hlen := ih (fun e he => hsized e (by simp [he])) (by omega) hrest
      rw [List.length_append, persistEntry_length (hsized entry (by simp))]
      omega

theorem persistSerialize_length {fs : ArmFs} {bytes : Bytes} (hsized : AllEntries Sized fs)
    (h : persistSerialize fs.entries persistMaxStateSize = some bytes) :
    bytes.length ≤ persistMaxStateSize := by
  rw [persistSerialize, if_neg (by decide)] at h
  obtain ⟨body, hbody, rfl⟩ := Option.map_eq_some_iff.mp h
  have hlen := persistSerializeLoop_length hsized (by decide) hbody
  rw [List.length_append]
  exact hlen

/-- A snapshot that was written is replayed up to the first path that does not fit. -/
theorem persistDeserialize_serialize {fs : ArmFs} {bytes : Bytes} (hsized : AllEntries Sized fs)
    (hbytes : persistSerialize fs.entries persistMaxStateSize = some bytes) (target : ArmFs) :
    persistDeserialize target bytes =
      (fs.nodes.all pathFits, (fs.nodes.takeWhile pathFits).foldl restoreNode target) := by
  rw [persistSerialize_some hbytes, persistDeserialize_header _ fs.entries_le]
  exact persistDeserializeLoop_entries hsized
    (persistHeader (UInt32.ofNat fs.entries.length)) target

end SnsxOS.Arm64
