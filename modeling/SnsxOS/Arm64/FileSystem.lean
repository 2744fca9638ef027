import SnsxOS.Framework.KeyedList
import SnsxOS.Framework.Transition
import SnsxOS.Lib.Strings

/-!
# The ARM64 file system

The table `g_fs` with its count and the operations on it. The path and the data of an entry lie
next to each other in memory, so a path written past its 96 bytes runs on into the data; an
entry therefore keeps both in one buffer. Slots past the count are cleared when they are used
again and are not part of the state.
-/

namespace SnsxOS.Arm64

open Framework

def fsPathMax : Nat := 96

def fsMaxEntries : Nat := 160

def fsMaxFileSize : Nat := 16384

inductive ArmFsType where
  | text | dir
  deriving DecidableEq

structure ArmFsEntry where
  /-- `path` followed by `data` -/
  memory : Buffer (fsPathMax + fsMaxFileSize)
  size : Nat
  type : ArmFsType
  deriving DecidableEq

namespace ArmFsEntry

/-- The string that starts at `path`. -/
def path (entry : ArmFsEntry) : Bytes := entry.memory.str

/-- The first `size` bytes of `data`. -/
def bytes (entry : ArmFsEntry) : Bytes := entry.memory.read fsPathMax entry.size

def node (entry : ArmFsEntry) : FileNode ArmFsType := ⟨entry.path, entry.type, entry.bytes⟩

def setPath (entry : ArmFsEntry) (path : Bytes) : ArmFsEntry :=
  { entry with memory := entry.memory.strcpy path }

def appendPath (entry : ArmFsEntry) (suffix : Bytes) : ArmFsEntry :=
  { entry with memory := entry.memory.strcat suffix }

def clearData (entry : ArmFsEntry) : ArmFsEntry :=
  { entry with memory := entry.memory.write fsPathMax (List.replicate fsMaxFileSize 0) }

/-- `memcpy` into `data` and the new size. -/
def setData (entry : ArmFsEntry) (data : Bytes) : ArmFsEntry :=
  { entry with memory := entry.memory.write fsPathMax data, size := data.length }

/-- The entry `fs_push` leaves in its slot. -/
def fresh (path : Bytes) (type : ArmFsType) : ArmFsEntry :=
  ⟨(Buffer.zero _).strcpy (strcopyLimit path fsPathMax), 0, type⟩

end ArmFsEntry

/-- The part of `g_persist` that the operations read and write. -/
structure PersistState where
  available : Bool
  dirty : Bool
  installed : Bool
  volumeIndex : Nat
  deriving DecidableEq

structure ArmFs where
  entries : List ArmFsEntry
  entries_le : entries.length ≤ fsMaxEntries
  persist : PersistState
  deriving DecidableEq

namespace ArmFs

/-- The table as a list of paths, types and contents. -/
def nodes (fs : ArmFs) : List (FileNode ArmFsType) := fs.entries.map ArmFsEntry.node

/-- `persist_mark_dirty`. -/
def persistMarkDirty (fs : ArmFs) : ArmFs :=
  if fs.persist.available then { fs with persist := { fs.persist with dirty := true } } else fs

def modify (fs : ArmFs) (slot : Nat) (f : ArmFsEntry → ArmFsEntry) : ArmFs where
  entries := fs.entries.modify slot f
  entries_le := by rw [List.length_modify]; exact fs.entries_le
  persist := fs.persist

def push (fs : ArmFs) (entry : ArmFsEntry) (h : fs.entries.length < fsMaxEntries) : ArmFs where
  entries := fs.entries ++ [entry]
  entries_le := by rw [List.length_append]; exact h
  persist := fs.persist

/-- Shift the entries after the slot down by one. -/
def removeAt (fs : ArmFs) (slot : Nat) : ArmFs where
  entries := fs.entries.eraseIdx slot
  entries_le := (List.eraseIdx_sublist _ _).length_le.trans fs.entries_le
  persist := fs.persist

def map (fs : ArmFs) (f : ArmFsEntry → ArmFsEntry) : ArmFs where
  entries := fs.entries.map f
  entries_le := by rw [List.length_map]; exact fs.entries_le
  persist := fs.persist

end ArmFs

def parentDirectory (path : Bytes) : Bytes :=
  if path = [slash] then path
  else match lastIndex? slash path with
    | none => path
    | some 0 => path.take 1
    | some index => path.take index

/-- `fs_find`, as the number of the entry. -/
def fsFind (fs : ArmFs) (path : Bytes) : Option Nat := slotOf ArmFsEntry.path fs.entries path

/-- `fs_find`, as the entry read through the pointer. -/
def fsEntry (fs : ArmFs) (path : Bytes) : Option ArmFsEntry :=
  lookup ArmFsEntry.path fs.entries path

def fsParentExists (fs : ArmFs) (path : Bytes) : Bool :=
  let parent := parentDirectory (strcopyLimit path fsPathMax)
  if parent = [] ∨ parent = [slash] then true
  else match fsEntry fs parent with
    | none => false
    | some entry => entry.type == .dir

def fsHasChildren (fs : ArmFs) (path : Bytes) : Bool :=
  if path = [slash] then decide (0 < fs.entries.length)
  else fs.entries.any fun entry => belowTest slash path entry.path

def fsPush (fs : ArmFs) (path : Bytes) (type : ArmFsType) : Option ArmFs :=
  if h : fs.entries.length < fsMaxEntries then
    if fsPathMax < path.length + 1 then none
    else some (fs.push (ArmFsEntry.fresh path type) h)
  else none

def fsWrite (fs : ArmFs) (path data : Bytes) (type : ArmFsType) : Bool × ArmFs :=
  if path.head? ≠ some slash ∨ fsMaxFileSize < data.length ∨ type = .dir then (false, fs)
  else match fsFind fs path with
    | some slot =>
        if (fs.entries[slot]?.map ArmFsEntry.type) = some .dir then (false, fs)
        else (true, (fs.modify slot fun entry =>
          { entry.clearData.setData data with type := type }).persistMarkDirty)
    | none =>
        if !fsParentExists fs path then (false, fs)
        else match fsPush fs path type with
          | none => (false, fs)
          | some fs' => (true, (fs'.modify (fs'.entries.length - 1) fun entry =>
              entry.setData data).persistMarkDirty)

def fsWriteIfChanged (fs : ArmFs) (path data : Bytes) (type : ArmFsType) : Bool × ArmFs :=
  match fsEntry fs path with
  | none => fsWrite fs path data type
  | some entry =>
      if entry.type = type ∧ entry.size = data.length ∧
          (data.length = 0 ∨ entry.bytes = data) then (true, fs)
      else fsWrite fs path data type

def fsMkdir (fs : ArmFs) (path : Bytes) : Bool × ArmFs :=
  if path.head? ≠ some slash ∨ path = [slash] then (false, fs)
  else match fsEntry fs path with
    | some entry => (entry.type == .dir, fs)
    | none =>
        if !fsParentExists fs path then (false, fs)
        else match fsPush fs path .dir with
          | none => (false, fs)
          | some fs' => (true, fs'.persistMarkDirty)

def fsRemove (fs : ArmFs) (path : Bytes) : Bool × ArmFs :=
  if path.head? ≠ some slash ∨ path = [slash] then (false, fs)
  else match fsFind fs path with
    | none => (false, fs)
    | some slot =>
        if (fs.entries[slot]?.map ArmFsEntry.type) = some .dir ∧ fsHasChildren fs path = true then
          (false, fs)
        else (true, (fs.removeAt slot).persistMarkDirty)

def fsCopy (fs : ArmFs) (source destination : Bytes) : Bool × ArmFs :=
  match fsEntry fs source with
  | none => (false, fs)
  | some src =>
      if src.type = .dir ∨ (fsEntry fs destination).isSome then (false, fs)
      else fsWrite fs destination src.bytes src.type

/-- What the loop of `fs_move` does to an entry that matches its source. -/
def fsRenameEntry (sourceLen : Nat) (destination : Bytes) (entry : ArmFsEntry) : ArmFsEntry :=
  let suffix := strcopyLimit (entry.path.drop sourceLen) fsPathMax
  let entry := entry.setPath (strcopyLimit destination fsPathMax)
  if suffix = [] then entry else entry.appendPath suffix

/-- What the loop of `fs_move` does to an entry of the moved subtree. -/
def fsMoveEntry (source destination : Bytes) (entry : ArmFsEntry) : ArmFsEntry :=
  if entry.path = source ∨ belowTest slash source entry.path = true then
    let suffix := strcopyLimit (entry.path.drop source.length) fsPathMax
    let entry := entry.setPath (strcopyLimit destination fsPathMax)
    if suffix = [] then entry else entry.appendPath suffix
  else entry

def fsMove (fs : ArmFs) (source destination : Bytes) : Bool × ArmFs :=
  match fsEntry fs source with
  | none => (false, fs)
  | some src =>
      if (fsEntry fs destination).isSome ∨ fsParentExists fs destination = false then (false, fs)
      else if src.type = .dir ∧ belowTest slash source destination = true then (false, fs)
      else (true, (fs.map (fsMoveEntry source destination)).persistMarkDirty)

def newline : UInt8 := 10

/-- The content of a file with its last line ended. -/
def endLine (content : Bytes) : Option Bytes :=
  if content = [] ∨ content.getLast? = some newline then some content
  else if fsMaxFileSize ≤ content.length + 1 then none
  else some (content ++ [newline])

def fsAppendLine (fs : ArmFs) (path text : Bytes) : Bool × ArmFs :=
  match fsEntry fs path with
  | some entry =>
      if entry.type = .dir then (false, fs)
      else match endLine entry.bytes with
        | none => (false, fs)
        | some content =>
            if fsMaxFileSize < content.length + text.length + 1 then (false, fs)
            else fsWrite fs path (content ++ text ++ [newline]) .text
  | none =>
      if !fsParentExists fs path then (false, fs)
      else if fsMaxFileSize < text.length + 1 then (false, fs)
      else fsWrite fs path (text ++ [newline]) .text

/-- A call of one of the mutating operations. -/
inductive FsOp where
  | mkdir (path : Bytes)
  | write (path data : Bytes) (type : ArmFsType)
  | appendLine (path text : Bytes)
  | remove (path : Bytes)
  | copy (source destination : Bytes)
  | move (source destination : Bytes)
  deriving DecidableEq

def fsCall (fs : ArmFs) : FsOp → Bool × ArmFs
  | .mkdir path => fsMkdir fs path
  | .write path data type => fsWrite fs path data type
  | .appendLine path text => fsAppendLine fs path text
  | .remove path => fsRemove fs path
  | .copy source destination => fsCopy fs source destination
  | .move source destination => fsMove fs source destination

def fsStep (fs : ArmFs) (op : FsOp) : ArmFs := (fsCall fs op).2

/-- The empty table with a given persistence state. -/
def ArmFs.empty (persist : PersistState) : ArmFs := ⟨[], Nat.zero_le _, persist⟩

end SnsxOS.Arm64
