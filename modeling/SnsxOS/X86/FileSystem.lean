import SnsxOS.Framework.KeyedList
import SnsxOS.Framework.SlotTable
import SnsxOS.Framework.Transition
import SnsxOS.Lib.Strings
import Mathlib.Data.List.DropRight

/-!
# The x86 file system

The table `g_nodes` with its count `g_entry_count` and the operations of `kernel/fs.c`. Every
slot carries a public view `entry` whose `name` and `data` are pointers; a pointer is the number
of the slot whose field it designates. A null path and an empty path take the same branch of
`fs_normalize_path` and are both the empty list.
-/

namespace SnsxOS.X86

open Framework

def fsPathMax : Nat := 64

def fsMaxEntrySize : Nat := 16384

def maxFsEntries : Nat := 64

def fsTypeText : UInt32 := 1

def fsTypeProgram : UInt32 := 2

def fsTypeDir : UInt32 := 3

structure FsEntry where
  name : Option Nat
  data : Option Nat
  size : Nat
  type : UInt32
  deriving DecidableEq

structure FsNode where
  name : Bytes
  data : Buffer fsMaxEntrySize
  size : Nat
  type : UInt32
  entry : FsEntry
  deriving DecidableEq

/-- A slot filled with zero bytes. -/
def FsNode.zero : FsNode := ⟨[], Buffer.zero _, 0, 0, ⟨none, none, 0, 0⟩⟩

abbrev FsState := SlotTable FsNode maxFsEntries

def FsState.nodeAt (st : FsState) (slot : Nat) : FsNode := st.cells.getD slot FsNode.zero

def fsSyncEntry (slot : Nat) (node : FsNode) : FsNode :=
  { node with entry := ⟨some slot, some slot, node.size, node.type⟩ }

/-- The copying loop of `fs_normalize_path`; `output` is what has been written so far. -/
def fsNormalizeLoop : Bytes → Bytes → Bool → Option Bytes
  | [], output, _ => some output
  | ch :: input, output, lastWasSlash =>
      if ch = slash then
        if output.length = 0 ∨ lastWasSlash = true then fsNormalizeLoop input output true
        else if fsPathMax ≤ output.length + 1 then none
        else fsNormalizeLoop input (output ++ [slash]) true
      else if fsPathMax ≤ output.length + 1 then none
      else fsNormalizeLoop input (output ++ [ch]) false

def fsNormalizePath (input : Bytes) : Option Bytes :=
  if input = [] then some []
  else (fsNormalizeLoop input [] false).map fun output => output.rdropWhile (· == slash)

def fsParentPath (normalized : Bytes) : Option Bytes :=
  match lastIndex? slash normalized with
  | none => some []
  | some length => if fsPathMax ≤ length then none else some (normalized.take length)

def fsIsDirectChild (directory candidate : Bytes) : Bool :=
  if directory = [] then !candidate.contains slash
  else belowTest slash directory candidate &&
    !(candidate.drop (directory.length + 1)).contains slash

/-- `fs_find_node_normalized`, as the number of the slot. -/
def fsFindNodeNormalized (st : FsState) (normalized : Bytes) : Option Nat :=
  slotOf FsNode.name st.used normalized

/-- `fs_find_node_normalized_const`, as the node read through the pointer. -/
def fsFindNodeNormalizedConst (st : FsState) (normalized : Bytes) : Option FsNode :=
  lookup FsNode.name st.used normalized

def fsHasChildren (st : FsState) (normalized : Bytes) : Bool :=
  st.used.any fun node => normalized.length == 0 || belowTest slash normalized node.name

def fsParentExists (st : FsState) (normalized : Bytes) : Bool :=
  match fsParentPath normalized with
  | none => false
  | some parent =>
      if parent = [] then true
      else match fsFindNodeNormalizedConst st parent with
        | none => false
        | some node => node.type == fsTypeDir

def fsPushNode (st : FsState) (normalized : Bytes) (type : UInt32) : Option FsState :=
  if h : st.count < maxFsEntries then
    if fsPathMax < normalized.length + 1 then none
    else some (st.push
      (fsSyncEntry st.count { FsNode.zero with name := normalized, type := type }) h)
  else none

def fsMkdir (st : FsState) (path : Bytes) : Bool × FsState :=
  match fsNormalizePath path with
  | none => (false, st)
  | some normalized =>
      if normalized = [] then (false, st)
      else match fsFindNodeNormalized st normalized with
        | some slot => ((st.nodeAt slot).type == fsTypeDir, st)
        | none =>
            if !fsParentExists st normalized then (false, st)
            else match fsPushNode st normalized fsTypeDir with
              | none => (false, st)
              | some st' => (true, st')

def fsWriteFile (st : FsState) (path data : Bytes) (type : UInt32) : Bool × FsState :=
  match fsNormalizePath path with
  | none => (false, st)
  | some normalized =>
      if normalized = [] ∨ type = fsTypeDir ∨ fsMaxEntrySize < data.length then (false, st)
      else match fsFindNodeNormalized st normalized with
        | some slot =>
            if (st.nodeAt slot).type = fsTypeDir then (false, st)
            else (true, st.modify slot fun node => fsSyncEntry slot
              { node with
                data := (Buffer.zero fsMaxEntrySize).write 0 data
                size := data.length
                type := type })
        | none =>
            if !fsParentExists st normalized then (false, st)
            else match fsPushNode st normalized type with
              | none => (false, st)
              | some st' => (true, st'.modify (st'.count - 1) fun node =>
                  fsSyncEntry (st'.count - 1)
                    { node with data := node.data.write 0 data, size := data.length })

/-- The sum of the sizes cannot wrap: both buffers lie in one 32-bit address space. -/
def fsAppendFile (st : FsState) (path data : Bytes) : Bool × FsState :=
  match fsNormalizePath path with
  | none => (false, st)
  | some normalized =>
      if normalized = [] then (false, st)
      else match fsFindNodeNormalized st normalized with
        | none => fsWriteFile st normalized data fsTypeText
        | some slot =>
            if (st.nodeAt slot).type ≠ fsTypeText ∨
                fsMaxEntrySize < (st.nodeAt slot).size + data.length then (false, st)
            else (true, st.modify slot fun node => fsSyncEntry slot
              { node with
                data := node.data.write node.size data
                size := node.size + data.length })

def fsRemove (st : FsState) (path : Bytes) : Bool × FsState :=
  match fsNormalizePath path with
  | none => (false, st)
  | some normalized =>
      if normalized = [] then (false, st)
      else match fsFindNodeNormalized st normalized with
        | none => (false, st)
        | some slot =>
            if (st.nodeAt slot).type = fsTypeDir ∧ fsHasChildren st normalized = true then
              (false, st)
            else (true, st.removeAt slot)

def fsCopy (st : FsState) (source destination : Bytes) : Bool × FsState :=
  match fsNormalizePath source, fsNormalizePath destination with
  | some normalizedSource, some normalizedDestination =>
      match fsFindNodeNormalizedConst st normalizedSource with
      | none => (false, st)
      | some node =>
          if node.type = fsTypeDir then (false, st)
          else if (fsFindNodeNormalizedConst st normalizedDestination).isSome then (false, st)
          else fsWriteFile st normalizedDestination (node.data.read 0 node.size) node.type
  | _, _ => (false, st)

/-- The slots `fs_move` renames. -/
def fsMoved (source : Bytes) (node : FsNode) : Bool :=
  node.name == source || belowTest slash source node.name

/-- The name `fs_move` gives a renamed slot. -/
def fsMoveName (source destination name : Bytes) : Bytes :=
  destination ++ name.drop source.length

/-- The first loop of `fs_move`: every new name fits and collides with no other slot. -/
def fsMoveAllowed (st : FsState) (source destination : Bytes) : Bool :=
  (List.range st.count).all fun i =>
    if fsMoved source (st.nodeAt i) then
      !(decide (fsPathMax < destination.length +
          ((st.nodeAt i).name.drop source.length).length + 1)) &&
        (List.range st.count).all fun j =>
          !(i != j && (st.nodeAt j).name == fsMoveName source destination (st.nodeAt i).name)
    else true

def fsMove (st : FsState) (source destination : Bytes) : Bool × FsState :=
  match fsNormalizePath source, fsNormalizePath destination with
  | some normalizedSource, some normalizedDestination =>
      if normalizedSource = [] ∨ normalizedDestination = [] then (false, st)
      else match fsFindNodeNormalized st normalizedSource with
        | none => (false, st)
        | some slot =>
            if (fsFindNodeNormalizedConst st normalizedDestination).isSome ∨
                fsParentExists st normalizedDestination = false then (false, st)
            else if (st.nodeAt slot).type = fsTypeDir ∧
                belowTest slash normalizedSource normalizedDestination = true then (false, st)
            else if !fsMoveAllowed st normalizedSource normalizedDestination then (false, st)
            else (true, st.mapUsed fun i node =>
              if fsMoved normalizedSource node then fsSyncEntry i
                { node with name := fsMoveName normalizedSource normalizedDestination node.name }
              else node)
  | _, _ => (false, st)

/-- The slot whose view `fs_get` returns. -/
def fsGet (st : FsState) (index : Nat) : Option Nat :=
  if st.count ≤ index then none else some index

/-- The slot whose view `fs_find` returns. -/
def fsFind (st : FsState) (path : Bytes) : Option Nat :=
  match fsNormalizePath path with
  | none => none
  | some normalized => fsFindNodeNormalized st normalized

/-- The slots whose views `fs_list` stores, in order. -/
def fsList (st : FsState) (directory : Bytes) (maxResults : Nat) : List Nat :=
  match fsNormalizePath directory with
  | none => []
  | some normalized =>
      let children := ((List.range st.count).filter fun i =>
        fsIsDirectChild normalized (st.nodeAt i).name).take maxResults
      if normalized = [] then children
      else match fsFindNodeNormalizedConst st normalized with
        | none => []
        | some dir => if dir.type ≠ fsTypeDir then [] else children

/-- What a caller reads through a returned view. -/
structure EntryRead where
  name : Bytes
  data : Bytes
  size : Nat
  type : UInt32
  deriving DecidableEq

/-- Follow the pointers of the view stored in a slot. -/
def readEntry (st : FsState) (slot : Nat) : Option EntryRead :=
  let entry := (st.nodeAt slot).entry
  match entry.name, entry.data with
  | some nameSlot, some dataSlot =>
      some ⟨(st.nodeAt nameSlot).name, (st.nodeAt dataSlot).data.read 0 entry.size,
        entry.size, entry.type⟩
  | _, _ => none

/-- A call of one of the mutating operations. -/
inductive FsOp where
  | mkdir (path : Bytes)
  | writeFile (path data : Bytes) (type : UInt32)
  | appendFile (path data : Bytes)
  | remove (path : Bytes)
  | copy (source destination : Bytes)
  | move (source destination : Bytes)
  deriving DecidableEq

def fsCall (st : FsState) : FsOp → Bool × FsState
  | .mkdir path => fsMkdir st path
  | .writeFile path data type => fsWriteFile st path data type
  | .appendFile path data => fsAppendFile st path data
  | .remove path => fsRemove st path
  | .copy source destination => fsCopy st source destination
  | .move source destination => fsMove st source destination

def fsStep (st : FsState) (op : FsOp) : FsState := (fsCall st op).2

def builtinReadme : Bytes :=
  ascii "SNSX fallback filesystem\n" ++
  ascii "This path is used when the custom boot image starts without an initrd.\n" ++
  ascii "The live ISO includes the richer rootfs module.\n"

def builtinHome : Bytes :=
  ascii "Welcome to SNSX.\n" ++
  ascii "Use help, apps, files, calc, and edit to explore the live system.\n"

def builtinMotd : Bytes := ascii
  "SNSX live system: writable RAM filesystem, file manager, calculator, and editor.\n"

/-- The calls `fs_use_builtin` makes on the emptied table. -/
def builtinOps : List FsOp :=
  [.mkdir (ascii "/docs"), .mkdir (ascii "/home"),
    .writeFile (ascii "/README.TXT") builtinReadme fsTypeText,
    .writeFile (ascii "/docs/MOTD.TXT") builtinMotd fsTypeText,
    .writeFile (ascii "/home/WELCOME.TXT") builtinHome fsTypeText]

def fsUseBuiltin (st : FsState) : FsState :=
  run fsStep { st with count := 0, count_le := Nat.zero_le _ } builtinOps

end SnsxOS.X86
