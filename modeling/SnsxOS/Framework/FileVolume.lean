import Mathlib.Logic.Function.Basic
import Mathlib.Data.List.Basic
import Mathlib.Tactic

/-!
# Volumes of files behind handles

A volume maps paths to directories and files; whatever lies at a path lies in a directory. It is
used through handles: an open one stands for a path and a position in it, a closed one for nothing.
-/

namespace SnsxOS.Framework

variable {ν β : Type*}

inductive VolumeItem (β : Type*) where
  | directory
  | file (content : List β)
  deriving DecidableEq

def VolumeItem.content : VolumeItem β → Option (List β)
  | .directory => none
  | .file content => some content

structure OpenItem (ν : Type*) where
  path : List ν
  position : Nat
  deriving DecidableEq

@[ext]
structure FileVolume (ν β : Type*) where
  items : List ν → Option (VolumeItem β)
  handles : Nat → Option (OpenItem ν)
  /-- the first handle that has never been given out -/
  next : Nat
  root : items [] = some .directory
  parent : ∀ path name, items (path ++ [name]) ≠ none → items path = some .directory
  fresh : ∀ handle, next ≤ handle → handles handle = none

/-- Write at a position; a gap before it is filled up. -/
def overwrite [Inhabited β] (content : List β) (position : Nat) (data : List β) : List β :=
  (content ++ List.replicate (position - content.length) default).take position ++ data ++
    content.drop (position + data.length)

@[simp] theorem overwrite_zero [Inhabited β] (content data : List β) :
    overwrite content 0 data = data ++ content.drop data.length := by
  simp [overwrite]

namespace FileVolume

variable (v : FileVolume ν β)

/-- The content of a file. -/
def fileAt (path : List ν) : Option (List β) := (v.items path).bind VolumeItem.content

/-- A new handle on a path. -/
def openAt (path : List ν) : FileVolume ν β :=
  { v with
    handles := Function.update v.handles v.next (some ⟨path, 0⟩)
    next := v.next + 1
    fresh := by
      intro handle h
      rw [Function.update_of_ne (by omega)]
      exact v.fresh handle (by omega) }

def close (handle : Nat) : FileVolume ν β :=
  { v with
    handles := Function.update v.handles handle none
    fresh := by
      intro other h
      by_cases hother : other = handle
      · rw [hother, Function.update_self]
      · rw [Function.update_of_ne hother]
        exact v.fresh other h }

def seek (handle position : Nat) : FileVolume ν β :=
  { v with
    handles := Function.update v.handles handle
      ((v.handles handle).map fun item => { item with position := position })
    fresh := by
      intro other h
      by_cases hother : other = handle
      · rw [hother, Function.update_self, ← hother, v.fresh other h]
        rfl
      · rw [Function.update_of_ne hother]
        exact v.fresh other h }

@[simp] theorem items_openAt (path : List ν) : (v.openAt path).items = v.items := rfl

@[simp] theorem items_close (handle : Nat) : (v.close handle).items = v.items := rfl

@[simp] theorem items_seek (handle position : Nat) : (v.seek handle position).items = v.items := rfl

@[simp] theorem handles_openAt (path : List ν) : (v.openAt path).handles =
    Function.update v.handles v.next (some ⟨path, 0⟩) := rfl

@[simp] theorem handles_close (handle : Nat) : (v.close handle).handles =
    Function.update v.handles handle none := rfl

@[simp] theorem next_openAt (path : List ν) : (v.openAt path).next = v.next + 1 := rfl

@[simp] theorem next_close (handle : Nat) : (v.close handle).next = v.next := rfl

@[simp] theorem next_seek (handle position : Nat) : (v.seek handle position).next = v.next := rfl

variable {v}

theorem fileAt_eq_some {path : List ν} {content : List β} :
    v.fileAt path = some content ↔ v.items path = some (.file content) := by
  rw [fileAt]
  rcases v.items path with _ | _ | old
  · simp
  · simp [VolumeItem.content]
  · simp [VolumeItem.content]

/-- An open handle has been given out. -/
theorem lt_next {handle : Nat} {item : OpenItem ν} (h : v.handles handle = some item) :
    handle < v.next := by
  by_contra hge
  rw [v.fresh handle (by omega)] at h
  cases h

/-- Closing a new handle leaves the handles as they were. -/
theorem close_new (handles : Nat → Option (OpenItem ν)) {handle : Nat}
    (hnew : handles handle = none) (item : Option (OpenItem ν)) :
    Function.update (Function.update handles handle item) handle none = handles := by
  rw [Function.update_idem, ← hnew, Function.update_eq_self]

theorem seek_same {handle : Nat} {item : OpenItem ν} (h : v.handles handle = some item) :
    v.seek handle item.position = v := by
  apply FileVolume.ext
  · rfl
  · change Function.update v.handles handle _ = _
    rw [h, Option.map_some, ← h, Function.update_eq_self]
  · rfl

/-- What lies on the way to an item are directories. -/
theorem items_of_append {path rest : List ν} (h : v.items (path ++ rest) ≠ none)
    (hrest : rest ≠ []) : v.items path = some .directory := by
  induction rest using List.reverseRecOn with
  | nil => exact absurd rfl hrest
  | append_singleton rest name ih =>
    rw [← List.append_assoc] at h
    have hparent := v.parent _ _ h
    cases rest with
    | nil => rwa [List.append_nil] at hparent
    | cons first rest =>
      apply ih _ (List.cons_ne_nil _ _)
      rw [hparent]
      exact Option.some_ne_none _

variable [DecidableEq ν] (v)

/-- New content for a file; nothing happens where there is none. -/
def store (path : List ν) (content : List β) : FileVolume ν β :=
  if h : (v.fileAt path).isSome then
    { v with
      items := Function.update v.items path (some (.file content))
      root := by
        have hne : [] ≠ path := by
          intro hnil
          obtain ⟨old, hsome⟩ := Option.isSome_iff_exists.mp h
          have hold := fileAt_eq_some.mp hsome
          rw [← hnil, v.root] at hold
          cases hold
        rw [Function.update_of_ne hne]
        exact v.root
      parent := by
        obtain ⟨old, hsome⟩ := Option.isSome_iff_exists.mp h
        have hold := fileAt_eq_some.mp hsome
        intro path' name' hitem
        have hdir : v.items path' = some .directory := by
          apply v.parent path' name'
          by_cases hchild : path' ++ [name'] = path
          · rw [hchild, hold]
            exact Option.some_ne_none _
          · rwa [Function.update_of_ne hchild] at hitem
        have hne : path' ≠ path := by
          intro heq
          rw [heq, hold] at hdir
          cases hdir
        rw [Function.update_of_ne hne]
        exact hdir }
  else v

variable {v} {path : List ν}

theorem items_store {old : List β} (hfile : v.items path = some (.file old)) (content : List β) :
    (v.store path content).items = Function.update v.items path (some (.file content)) := by
  rw [store, dif_pos (Option.isSome_iff_exists.mpr ⟨old, fileAt_eq_some.mpr hfile⟩)]

theorem handles_store (content : List β) : (v.store path content).handles = v.handles := by
  rw [store]
  split <;> rfl

theorem next_store (content : List β) : (v.store path content).next = v.next := by
  rw [store]
  split <;> rfl

variable [DecidableEq β] (v)

/-- A new item in a directory; nothing happens where there is one already. -/
def create (path : List ν) (name : ν) (item : VolumeItem β) : FileVolume ν β :=
  if h : v.items path = some .directory ∧ v.items (path ++ [name]) = none then
    { v with
      items := Function.update v.items (path ++ [name]) (some item)
      root := by
        rw [Function.update_of_ne (by simp)]
        exact v.root
      parent := by
        intro path' name' hitem
        by_cases hpath : path' = path
        · rw [hpath, Function.update_of_ne (by simp)]
          exact h.1
        · have hchild : path' ++ [name'] ≠ path ++ [name] := fun heq =>
            hpath (List.append_inj_left' heq rfl)
          rw [Function.update_of_ne hchild] at hitem
          have hdir := v.parent path' name' hitem
          have hne : path' ≠ path ++ [name] := by
            intro heq
            rw [heq, h.2] at hdir
            cases hdir
          rw [Function.update_of_ne hne]
          exact hdir }
  else v

variable {v}

theorem items_create {name : ν} (hdir : v.items path = some .directory)
    (hnew : v.items (path ++ [name]) = none) (item : VolumeItem β) :
    (v.create path name item).items = Function.update v.items (path ++ [name]) (some item) := by
  rw [create, dif_pos ⟨hdir, hnew⟩]

theorem handles_create (name : ν) (item : VolumeItem β) :
    (v.create path name item).handles = v.handles := by
  rw [create]
  split <;> rfl

theorem next_create (name : ν) (item : VolumeItem β) :
    (v.create path name item).next = v.next := by
  rw [create]
  split <;> rfl

end FileVolume

end SnsxOS.Framework
