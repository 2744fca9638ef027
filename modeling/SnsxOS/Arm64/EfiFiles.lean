import SnsxOS.Arm64.FileSystem
import SnsxOS.Framework.FileVolume

/-!
# Files on the volumes of the firmware

The firmware opens a name below a directory, reads a file in pieces of its own choice and may lack
the calls that cut a file off. `efi_open_path`, `efi_read_file` and `efi_write_file` work on this:
what has been written is what is read again, and every handle is closed.
-/

namespace SnsxOS.Arm64

open Framework

abbrev EfiName := List UInt16

abbrev EfiPath := List EfiName

def efiFileModeRead : UInt64 := 0x0000000000000001

def efiFileModeWrite : UInt64 := 0x0000000000000002

def efiFileModeCreate : UInt64 := 0x8000000000000000

def efiFileDirectory : UInt64 := 0x10

def efiFileArchive : UInt64 := 0x20

def letterOrDigit (c : UInt16) : Bool :=
  (48 ≤ c && c ≤ 57) || (65 ≤ c && c ≤ 90) || (97 ≤ c && c ≤ 122)

/-- Letters, digits and dots, the last not a dot. -/
def plainName (name : EfiName) : Bool :=
  name.all (fun c => letterOrDigit c || c == 46) && name.getLast?.any letterOrDigit

def upperCase (c : UInt16) : UInt16 := if 97 ≤ c ∧ c ≤ 122 then c - 32 else c

/-- What is left to the firmware. -/
structure EfiDriver where
  /-- names folded to the same one are the same file -/
  fold : EfiName → EfiName
  /-- plain names are told apart but for the case of their letters -/
  apart : ∀ a b, plainName a = true → plainName b = true → fold a = fold b →
    a.map upperCase = b.map upperCase
  opensVolume : Bool
  /-- `get_info` of the root tells whether the volume is read-only -/
  tellsReadOnly : Bool
  /-- there is room for one more item -/
  creates : EfiPath → Bool
  readable : EfiPath → Nat → Bool
  /-- how many of the bytes there are a read from a position hands over -/
  chunk : EfiPath → Nat → Nat → Nat
  chunk_pos : ∀ path position count, 0 < count → 0 < chunk path position count
  /-- the records that reading a directory gives -/
  readDirectory : EfiPath → Nat → Nat → Option Bytes
  setsPosition : Bool
  /-- `get_info` and `set_info` are there and take the size of the file -/
  setsSize : EfiPath → Bool
  /-- a write that fails, after so many bytes -/
  rejects : EfiPath → Bytes → Option Nat

structure EfiVolume where
  driver : EfiDriver
  readOnly : Bool
  files : FileVolume EfiName UInt8

namespace EfiVolume

def withFiles (v : EfiVolume) (files : FileVolume EfiName UInt8) : EfiVolume :=
  { v with files := files }

def close (v : EfiVolume) (handle : Nat) : EfiVolume := v.withFiles (v.files.close handle)

/-- The path of a name below a directory. -/
def child (v : EfiVolume) (path : EfiPath) (name : EfiName) : EfiPath :=
  if name = [46] then path
  else if name = [46, 46] then path.dropLast
  else path ++ [v.driver.fold name]

/-- The mode or the attributes do not go with what lies at the path. -/
def refuses (v : EfiVolume) (item : VolumeItem UInt8) (mode attributes : UInt64) : Prop :=
  mode &&& efiFileModeWrite ≠ 0 ∧ v.readOnly = true ∨
    mode &&& efiFileModeCreate ≠ 0 ∧
      ¬ (item = .directory ↔ attributes &&& efiFileDirectory ≠ 0)

instance (v : EfiVolume) (item : VolumeItem UInt8) (mode attributes : UInt64) :
    Decidable (v.refuses item mode attributes) :=
  inferInstanceAs (Decidable (_ ∨ _))

def newItem (attributes : UInt64) : VolumeItem UInt8 :=
  if attributes &&& efiFileDirectory ≠ 0 then .directory else .file []

/-- `open` -/
def openFile (v : EfiVolume) (handle : Nat) (name : EfiName) (mode attributes : UInt64) :
    Option Nat × EfiVolume :=
  match v.files.handles handle with
  | none => (none, v)
  | some directory =>
      if v.files.items directory.path = some .directory then
        match v.files.items (v.child directory.path name) with
        | some item =>
            if v.refuses item mode attributes then (none, v)
            else (some v.files.next,
              v.withFiles (v.files.openAt (v.child directory.path name)))
        | none =>
            if mode &&& efiFileModeCreate ≠ 0 ∧ v.readOnly = false ∧
                v.driver.creates (v.child directory.path name) = true then
              (some v.files.next, v.withFiles
                ((v.files.create directory.path (v.driver.fold name)
                  (newItem attributes)).openAt (v.child directory.path name)))
            else (none, v)
      else (none, v)

/-- `read` -/
def read (v : EfiVolume) (handle count : Nat) : Option Bytes × EfiVolume :=
  match v.files.handles handle with
  | none => (none, v)
  | some item =>
      match v.files.items item.path with
      | none => (none, v)
      | some .directory =>
          match v.driver.readDirectory item.path item.position count with
          | none => (none, v)
          | some bytes =>
              (some (bytes.take count), v.withFiles (v.files.seek handle (item.position + 1)))
      | some (.file content) =>
          if v.driver.readable item.path item.position = true then
            let rest := (content.drop item.position).take count
            let bytes := rest.take (v.driver.chunk item.path item.position rest.length)
            (some bytes, v.withFiles (v.files.seek handle (item.position + bytes.length)))
          else (none, v)

/-- `write` -/
def write (v : EfiVolume) (handle : Nat) (data : Bytes) : Bool × EfiVolume :=
  match v.files.handles handle with
  | none => (false, v)
  | some item =>
      match v.files.fileAt item.path with
      | none => (false, v)
      | some content =>
          match v.driver.rejects item.path data with
          | some count => (false, v.withFiles
              (v.files.store item.path (overwrite content item.position (data.take count))))
          | none => (true, v.withFiles
              ((v.files.store item.path (overwrite content item.position data)).seek handle
                (item.position + data.length)))

/-- `set_position`, where the firmware has it -/
def setPosition (v : EfiVolume) (handle position : Nat) : EfiVolume :=
  if v.driver.setsPosition then v.withFiles (v.files.seek handle position) else v

end EfiVolume

/-- `open_volume` -/
def efiOpenRoot (v : EfiVolume) : Option Nat × EfiVolume :=
  if v.driver.opensVolume then (some v.files.next, v.withFiles (v.files.openAt []))
  else (none, v)

def isSeparator (ch : UInt8) : Bool := ch == 47 || ch == 92

def asciiToUtf16Path (input : Bytes) : EfiName :=
  (input.take (fsPathMax - 1)).map fun ch => if ch = 47 then 92 else ch.toUInt16

/-- The scan of `efi_open_path`: the components of a path, a long one in pieces. -/
def efiComponents : Nat → Bytes → List Bytes
  | 0, _ => []
  | fuel + 1, path =>
      let path := path.dropWhile isSeparator
      if path = [] then []
      else
        let component := (path.takeWhile fun ch => !isSeparator ch).take (fsPathMax - 1)
        component :: efiComponents fuel (path.drop component.length)

/-- The calls of `efi_open_path`, one for each component. -/
def efiOpenComponents (openMode attributes : UInt64) (createDirectories : Bool) :
    EfiVolume → Nat → Bool → List Bytes → Option Nat × EfiVolume
  | v, current, _, [] => (some current, v)
  | v, current, closeCurrent, component :: rest =>
      let mode := if rest = [] then openMode
        else if createDirectories then
          efiFileModeRead ||| efiFileModeWrite ||| efiFileModeCreate
        else efiFileModeRead
      let opened := v.openFile current (asciiToUtf16Path component) mode
        (if rest = [] then attributes else efiFileDirectory)
      let v := if closeCurrent then opened.2.close current else opened.2
      match opened.1 with
      | none => (none, v)
      | some next =>
          efiOpenComponents openMode attributes createDirectories v next true rest

def efiOpenPath (v : EfiVolume) (root : Nat) (path : Bytes) (openMode attributes : UInt64)
    (createDirectories : Bool) : Option Nat × EfiVolume :=
  efiOpenComponents openMode attributes createDirectories v root false
    (efiComponents path.length path)

def efiTryTruncateFile (v : EfiVolume) (file : Nat) : EfiVolume :=
  match v.files.handles file with
  | none => v
  | some item =>
      if v.driver.setsSize item.path then v.withFiles (v.files.store item.path []) else v

/-- `efi_write_file`; what `flush` does is not visible here. -/
def efiWriteFile (v : EfiVolume) (root : Nat) (path data : Bytes) : Bool × EfiVolume :=
  match efiOpenPath v root path (efiFileModeRead ||| efiFileModeWrite ||| efiFileModeCreate)
      efiFileArchive true with
  | (none, v) => (false, v)
  | (some file, v) =>
      if file = root then (false, v)
      else
        let v := v.setPosition file 0
        let v := efiTryTruncateFile v file
        let v := v.setPosition file 0
        if data = [] then (true, v.close file)
        else
          let written := v.write file data
          (written.1, written.2.close file)

/-- The loop of `efi_read_file`; each turn but the last reads at least one byte. -/
def efiReadLoop (file capacity : Nat) : Nat → EfiVolume → Bytes → Option Bytes × EfiVolume
  | 0, v, total => (some total, v)
  | fuel + 1, v, total =>
      if total.length < capacity then
        match v.read file (capacity - total.length) with
        | (none, v) => (none, v)
        | (some bytes, v) =>
            if bytes = [] then (some total, v)
            else efiReadLoop file capacity fuel v (total ++ bytes)
      else (some total, v)

def efiReadFile (v : EfiVolume) (root : Nat) (path : Bytes) (capacity : Nat) :
    Option Bytes × EfiVolume :=
  match efiOpenPath v root path efiFileModeRead 0 false with
  | (none, v) => (none, v)
  | (some file, v) =>
      if file = root then (none, v)
      else
        let result := efiReadLoop file capacity capacity v []
        (result.1, result.2.close file)


section Open

/-- The path that names lead to from another one. -/
def EfiVolume.target (v : EfiVolume) (path : EfiPath) (components : List Bytes) : EfiPath :=
  path ++ components.map fun component => v.driver.fold (asciiToUtf16Path component)

/-- The component names an item of its own. -/
def ProperName (component : Bytes) : Prop :=
  asciiToUtf16Path component ≠ [46] ∧ asciiToUtf16Path component ≠ [46, 46]

instance : DecidablePred ProperName := fun _ => inferInstanceAs (Decidable (_ ∧ _))

/-- What opening a path leaves behind: one handle if it succeeds, and otherwise none. -/
structure Opened (v v' : EfiVolume) (kept : Nat → Option (OpenItem EfiName)) (target : EfiPath)
    (result : Option Nat) : Prop where
  driver : v'.driver = v.driver
  readOnly : v'.readOnly = v.readOnly
  next : v.files.next ≤ v'.files.next
  handles : v'.files.handles =
    result.elim kept fun handle => Function.update kept handle (some ⟨target, 0⟩)
  new : ∀ handle ∈ result, v.files.next ≤ handle

/-- The items are as they were but for new directories on the way and a new file at the end. -/
structure MakesWay (v v' : EfiVolume) (target : EfiPath) (made : Bool) : Prop where
  items : ∀ path, v'.files.items path = v.files.items path ∨
    v.files.items path = none ∧ v.readOnly = false ∧ path <+: target ∧
      (path ≠ target ∧ v'.files.items path = some .directory ∨
        path = target ∧ made = true ∧ v'.files.items path = some (.file []))
  file : made = true → (v'.files.fileAt target).isSome = true ∧ v.readOnly = false

variable {v : EfiVolume} {handle position : Nat} {path : EfiPath} {component : Bytes}

theorem child_proper (v : EfiVolume) (path : EfiPath) (h : ProperName component) :
    v.child path (asciiToUtf16Path component) =
      path ++ [v.driver.fold (asciiToUtf16Path component)] := by
  rw [EfiVolume.child, if_neg h.1, if_neg h.2]

theorem openFile_read (hhandle : v.files.handles handle = some ⟨path, position⟩)
    (hproper : ProperName component) (attributes : UInt64) :
    v.openFile handle (asciiToUtf16Path component) efiFileModeRead attributes =
      if v.files.items (path ++ [v.driver.fold (asciiToUtf16Path component)]) = none then (none, v)
      else (some v.files.next, v.withFiles
        (v.files.openAt (path ++ [v.driver.fold (asciiToUtf16Path component)]))) := by
  rw [EfiVolume.openFile, hhandle]
  dsimp only
  rw [child_proper v path hproper]
  have hparent := v.files.parent path (v.driver.fold (asciiToUtf16Path component))
  cases hitem : v.files.items (path ++ [v.driver.fold (asciiToUtf16Path component)]) with
  | none =>
    rw [if_pos rfl]
    split
    · exact if_neg fun h => absurd (by decide) h.1
    · rfl
  | some item =>
    have hnot : ¬ v.refuses item efiFileModeRead attributes := by
      rintro (⟨hbit, -⟩ | ⟨hbit, -⟩)
      · exact absurd (by decide) hbit
      · exact absurd (by decide) hbit
    rw [if_pos (hparent (hitem ▸ Option.some_ne_none _)), if_neg (Option.some_ne_none _)]
    dsimp only
    rw [if_neg hnot]

/-- One item has been opened. -/
structure OneOpened (v w : EfiVolume) (path : EfiPath) : Prop where
  driver : w.driver = v.driver
  readOnly : w.readOnly = v.readOnly
  next : w.files.next = v.files.next + 1
  handles : w.files.handles = Function.update v.files.handles v.files.next (some ⟨path, 0⟩)

theorem openFile_cases (hhandle : v.files.handles handle = some ⟨path, position⟩) (name : EfiName)
    (mode attributes : UInt64) : v.openFile handle name mode attributes = (none, v) ∨
      ∃ w, OneOpened v w (v.child path name) ∧
        v.openFile handle name mode attributes = (some v.files.next, w) := by
  rw [EfiVolume.openFile, hhandle]
  dsimp only
  split
  · split
    · split
      · exact .inl rfl
      · exact .inr ⟨v.withFiles (v.files.openAt (v.child path name)), ⟨rfl, rfl, rfl, rfl⟩, rfl⟩
    · split
      · refine .inr ⟨v.withFiles ((v.files.create path (v.driver.fold name)
          (EfiVolume.newItem attributes)).openAt (v.child path name)), ⟨rfl, rfl, ?_, ?_⟩, rfl⟩
        · rw [EfiVolume.withFiles, FileVolume.next_openAt, FileVolume.next_create]
        · rw [EfiVolume.withFiles, FileVolume.handles_openAt, FileVolume.next_create,
            FileVolume.handles_create]
      · exact .inl rfl
  · exact .inl rfl

/-- The handles when `current` is closed unless it is the root. -/
def keptHandles (v : EfiVolume) (current : Nat) (closeCurrent : Bool) :
    Nat → Option (OpenItem EfiName) :=
  if closeCurrent then Function.update v.files.handles current none else v.files.handles

theorem keptHandles_next (v : EfiVolume) (handle : Nat) (closeCurrent : Bool) :
    keptHandles v handle closeCurrent v.files.next = none := by
  have hfresh : v.files.handles v.files.next = none := v.files.fresh _ le_rfl
  rw [keptHandles]
  split
  · by_cases h : v.files.next = handle
    · rw [h, Function.update_self]
    · rw [Function.update_of_ne h, hfresh]
  · exact hfresh

theorem OneOpened.handles_closed {w : EfiVolume} {path' : EfiPath} (h : OneOpened v w path')
    (hhandle : v.files.handles handle = some ⟨path, position⟩) (closeCurrent : Bool) :
    (if closeCurrent then w.close handle else w).files.handles =
      Function.update (keptHandles v handle closeCurrent) v.files.next (some ⟨path', 0⟩) := by
  have hne : handle ≠ v.files.next := (FileVolume.lt_next hhandle).ne
  cases closeCurrent with
  | false => exact h.handles
  | true =>
    rw [if_pos rfl, EfiVolume.close, EfiVolume.withFiles, FileVolume.handles_close, h.handles,
      Function.update_comm hne.symm]
    rfl

theorem opened_none (v : EfiVolume) (current : Nat) (closeCurrent : Bool) (target : EfiPath) :
    Opened v (if closeCurrent then v.close current else v) (keptHandles v current closeCurrent)
      target none := by
  cases closeCurrent with
  | false => exact ⟨rfl, rfl, le_rfl, rfl, fun _ h => by cases h⟩
  | true => exact ⟨rfl, rfl, le_rfl, rfl, fun _ h => by cases h⟩

theorem efiOpenComponents_opened (openMode attributes : UInt64) (createDirectories : Bool)
    {components : List Bytes} (hproper : ∀ component ∈ components, ProperName component)
    (hhandle : v.files.handles handle = some ⟨path, position⟩) (closeCurrent : Bool)
    (hne : components ≠ []) :
    Opened v (efiOpenComponents openMode attributes createDirectories v handle closeCurrent
        components).2
      (keptHandles v handle closeCurrent) (v.target path components)
      (efiOpenComponents openMode attributes createDirectories v handle closeCurrent
        components).1 := by
  induction components generalizing v handle path position closeCurrent with
  | nil => exact absurd rfl hne
  | cons component rest ih =>
    have hchild := child_proper v path (hproper component List.mem_cons_self)
    rw [efiOpenComponents]
    generalize (if rest = [] then openMode else _) = mode
    rcases openFile_cases hhandle (asciiToUtf16Path component) mode
      (if rest = [] then attributes else efiFileDirectory) with hopen | ⟨w, hw, hopen⟩
    · rw [hopen]
      exact opened_none v handle closeCurrent _
    · rw [hopen]
      dsimp only
      rw [hchild] at hw
      have hhandles := hw.handles_closed hhandle closeCurrent
      have hdriver : (if closeCurrent then w.close handle else w).driver = v.driver := by
        cases closeCurrent <;> exact hw.driver
      have hreadOnly : (if closeCurrent then w.close handle else w).readOnly = v.readOnly := by
        cases closeCurrent <;> exact hw.readOnly
      have hnext : (if closeCurrent then w.close handle else w).files.next =
          v.files.next + 1 := by
        cases closeCurrent <;> exact hw.next
      generalize (if closeCurrent then w.close handle else w) = w' at *
      cases rest with
      | nil =>
        exact ⟨hdriver, hreadOnly, by rw [efiOpenComponents, hnext]; omega, hhandles,
          fun _ h => by cases h; exact le_rfl⟩
      | cons second rest =>
        have hself : w'.files.handles v.files.next =
            some ⟨path ++ [v.driver.fold (asciiToUtf16Path component)], 0⟩ := by
          rw [hhandles, Function.update_self]
        have hrest := ih (fun c hc => hproper c (List.mem_cons_of_mem _ hc)) hself true
          (List.cons_ne_nil _ _)
        have hkept : keptHandles w' v.files.next true = keptHandles v handle closeCurrent := by
          rw [keptHandles, if_pos rfl, hhandles,
            FileVolume.close_new _ (keptHandles_next v handle closeCurrent)]
        have htarget : w'.target (path ++ [v.driver.fold (asciiToUtf16Path component)])
            (second :: rest) = v.target path (component :: second :: rest) := by
          simp [EfiVolume.target, hdriver]
        rw [hkept, htarget] at hrest
        refine ⟨hrest.driver.trans hdriver, hrest.readOnly.trans hreadOnly, ?_, hrest.handles,
          fun h hmem => ?_⟩
        · have := hrest.next
          omega
        · have := hrest.new h hmem
          omega

/-- Opening for reading finds what is there and changes nothing. -/
theorem efiOpenComponents_read (attributes : UInt64) {components : List Bytes}
    (hproper : ∀ component ∈ components, ProperName component)
    (hhandle : v.files.handles handle = some ⟨path, position⟩) (closeCurrent : Bool)
    (hne : components ≠ []) :
    (efiOpenComponents efiFileModeRead attributes false v handle closeCurrent
        components).2.files.items = v.files.items ∧
      ((efiOpenComponents efiFileModeRead attributes false v handle closeCurrent
        components).1 = none ↔ v.files.items (v.target path components) = none) := by
  induction components generalizing v handle path position closeCurrent with
  | nil => exact absurd rfl hne
  | cons component rest ih =>
    have htarget : v.target path (component :: rest) =
        path ++ [v.driver.fold (asciiToUtf16Path component)] ++
          rest.map fun component => v.driver.fold (asciiToUtf16Path component) := by
      simp [EfiVolume.target]
    rw [efiOpenComponents, if_neg (Bool.false_ne_true), ite_self,
      openFile_read hhandle (hproper component List.mem_cons_self), htarget]
    generalize hpath' : path ++ [v.driver.fold (asciiToUtf16Path component)] = path'
    by_cases hitem : v.files.items path' = none
    · rw [if_pos hitem]
      have hnone : v.files.items
          (path' ++ rest.map fun component => v.driver.fold (asciiToUtf16Path component)) = none := by
        by_contra h
        by_cases hrest : rest = []
        · exact h (by rw [hrest, List.map_nil, List.append_nil, hitem])
        · rw [FileVolume.items_of_append h (by simpa using hrest)] at hitem
          cases hitem
      refine ⟨?_, iff_of_true rfl hnone⟩
      cases closeCurrent <;> rfl
    · rw [if_neg hitem]
      dsimp only
      have hopened : OneOpened v (v.withFiles (v.files.openAt path')) path' := ⟨rfl, rfl, rfl, rfl⟩
      have hhandles := hopened.handles_closed hhandle closeCurrent
      have hdriver : (if closeCurrent then (v.withFiles (v.files.openAt path')).close handle
          else v.withFiles (v.files.openAt path')).driver = v.driver := by
        cases closeCurrent <;> rfl
      have hitems : (if closeCurrent then (v.withFiles (v.files.openAt path')).close handle
          else v.withFiles (v.files.openAt path')).files.items = v.files.items := by
        cases closeCurrent <;> rfl
      generalize (if closeCurrent then (v.withFiles (v.files.openAt path')).close handle
          else v.withFiles (v.files.openAt path')) = w at *
      cases rest with
      | nil =>
        refine ⟨hitems, iff_of_false (Option.some_ne_none _) ?_⟩
        rwa [List.map_nil, List.append_nil]
      | cons second rest =>
        have hself : w.files.handles v.files.next = some ⟨path', 0⟩ := by
          rw [hhandles, Function.update_self]
        have hrest := ih (fun c hc => hproper c (List.mem_cons_of_mem _ hc)) hself true
          (List.cons_ne_nil _ _)
        rw [EfiVolume.target, hitems, hdriver] at hrest
        exact hrest

theorem openFile_create (hhandle : v.files.handles handle = some ⟨path, position⟩)
    (hdir : v.files.items path = some .directory) (hproper : ProperName component)
    (attributes : UInt64) {path' : EfiPath}
    (hpath' : path ++ [v.driver.fold (asciiToUtf16Path component)] = path') :
    v.openFile handle (asciiToUtf16Path component)
        (efiFileModeRead ||| efiFileModeWrite ||| efiFileModeCreate) attributes = (none, v) ∨
      ∃ w, v.openFile handle (asciiToUtf16Path component)
          (efiFileModeRead ||| efiFileModeWrite ||| efiFileModeCreate) attributes =
            (some v.files.next, w) ∧ OneOpened v w path' ∧ v.readOnly = false ∧
        (w.files.items = v.files.items ∧ (∃ item, v.files.items path' = some item ∧
            (item = .directory ↔ attributes &&& efiFileDirectory ≠ 0)) ∨
          v.files.items path' = none ∧ w.files.items =
            Function.update v.files.items path' (some (EfiVolume.newItem attributes))) := by
  rw [EfiVolume.openFile, hhandle]
  dsimp only
  rw [if_pos hdir, child_proper v path hproper, hpath']
  cases hitem : v.files.items path' with
  | none =>
    dsimp only
    split
    · rename_i hcreates
      refine .inr ⟨_, rfl, ⟨rfl, rfl, ?_, ?_⟩, hcreates.2.1, .inr ⟨rfl, ?_⟩⟩
      · rw [EfiVolume.withFiles, FileVolume.next_openAt, FileVolume.next_create]
      · rw [EfiVolume.withFiles, FileVolume.handles_openAt, FileVolume.next_create,
          FileVolume.handles_create]
      · rw [EfiVolume.withFiles, FileVolume.items_openAt,
          FileVolume.items_create hdir (by rw [hpath', hitem]), hpath']
    · exact .inl rfl
  | some item =>
    dsimp only
    split
    · exact .inl rfl
    · rename_i hnot
      rw [EfiVolume.refuses, not_or] at hnot
      refine .inr ⟨_, rfl, ⟨rfl, rfl, rfl, rfl⟩, ?_, .inl ⟨rfl, item, rfl, ?_⟩⟩
      · cases hro : v.readOnly with
        | false => rfl
        | true => exact absurd ⟨by decide, hro⟩ hnot.1
      · by_contra h
        exact hnot.2 ⟨by decide, h⟩

/-- Opening for writing makes the directories on the way and at last the file. -/
theorem efiOpenComponents_create {components : List Bytes}
    (hproper : ∀ component ∈ components, ProperName component)
    (hhandle : v.files.handles handle = some ⟨path, position⟩)
    (hdir : v.files.items path = some .directory) (closeCurrent : Bool) (hne : components ≠ []) :
    MakesWay v (efiOpenComponents (efiFileModeRead ||| efiFileModeWrite ||| efiFileModeCreate)
        efiFileArchive true v handle closeCurrent components).2 (v.target path components)
      (efiOpenComponents (efiFileModeRead ||| efiFileModeWrite ||| efiFileModeCreate)
        efiFileArchive true v handle closeCurrent components).1.isSome := by
  induction components generalizing v handle path position closeCurrent with
  | nil => exact absurd rfl hne
  | cons component rest ih =>
    have htarget : v.target path (component :: rest) =
        path ++ [v.driver.fold (asciiToUtf16Path component)] ++
          rest.map fun component => v.driver.fold (asciiToUtf16Path component) := by
      simp [EfiVolume.target]
    rw [efiOpenComponents, if_pos rfl, ite_self, htarget]
    generalize hpath' : path ++ [v.driver.fold (asciiToUtf16Path component)] = path'
    rcases openFile_create hhandle hdir (hproper component List.mem_cons_self)
      (if rest = [] then efiFileArchive else efiFileDirectory) hpath' with
      hopen | ⟨w, hopen, hw, hwritable, hitems⟩
    · rw [hopen]
      refine ⟨fun path => .inl ?_, fun h => by cases h⟩
      cases closeCurrent <;> rfl
    · rw [hopen]
      dsimp only
      have hhandles := hw.handles_closed hhandle closeCurrent
      have hdriver : (if closeCurrent then w.close handle else w).driver = v.driver := by
        cases closeCurrent <;> exact hw.driver
      have hreadOnly : (if closeCurrent then w.close handle else w).readOnly = v.readOnly := by
        cases closeCurrent <;> exact hw.readOnly
      have hsame : (if closeCurrent then w.close handle else w).files.items = w.files.items := by
        cases closeCurrent <;> rfl
      generalize (if closeCurrent then w.close handle else w) = w' at *
      rw [← hsame] at hitems
      cases rest with
      | nil =>
        rw [List.map_nil, List.append_nil]
        rw [if_pos rfl] at hitems
        refine ⟨fun q => ?_, fun _ => ⟨?_, hwritable⟩⟩
        · rcases hitems with ⟨hitems, -⟩ | ⟨hnone, hitems⟩
          · exact .inl (congrFun hitems q)
          · by_cases hq : q = path'
            · refine .inr ⟨hq ▸ hnone, hwritable, hq ▸ List.prefix_rfl, .inr ⟨hq, rfl, ?_⟩⟩
              change w'.files.items q = _
              rw [hitems, hq, Function.update_self]
              rfl
            · refine .inl ?_
              change w'.files.items q = _
              rw [hitems, Function.update_of_ne hq]
        · change (w'.files.fileAt path').isSome = true
          rcases hitems with ⟨hitems, item, hitem, hfile⟩ | ⟨hnone, hitems⟩
          · cases item with
            | directory => exact absurd (by decide) (hfile.mp rfl)
            | file content =>
              rw [FileVolume.fileAt_eq_some.mpr (by rw [hitems, hitem])]
              rfl
          · have hnew : w'.files.items path' = some (.file []) := by
              rw [hitems, Function.update_self]
              rfl
            rw [FileVolume.fileAt_eq_some.mpr hnew]
            rfl
      | cons second rest =>
        rw [if_neg (List.cons_ne_nil _ _)] at hitems
        have hself : w'.files.handles v.files.next = some ⟨path', 0⟩ := by
          rw [hhandles, Function.update_self]
        have hdir' : w'.files.items path' = some .directory := by
          rcases hitems with ⟨hitems, item, hitem, hdirectory⟩ | ⟨hnone, hitems⟩
          · rw [hitems, hitem, hdirectory.mpr (by decide)]
          · rw [hitems, Function.update_self]
            rfl
        have hrest := ih (fun c hc => hproper c (List.mem_cons_of_mem _ hc)) hself hdir' true
          (List.cons_ne_nil _ _)
        rw [EfiVolume.target, hdriver] at hrest
        refine ⟨fun q => ?_, fun hmade => ⟨(hrest.file hmade).1, hwritable⟩⟩
        have hlonger : path' ≠ path' ++ (second :: rest).map fun component =>
            v.driver.fold (asciiToUtf16Path component) := by
          intro h
          exact List.cons_ne_nil _ _ (List.self_eq_append_right.mp h)
        rcases hrest.items q with hq | ⟨hnone, -, hprefix, hmade⟩
        · rw [hq]
          rcases hitems with ⟨hitems, -⟩ | ⟨hnew, hitems⟩
          · exact .inl (congrFun hitems q)
          · by_cases hpath : q = path'
            · rw [hpath]
              refine .inr ⟨hnew, hwritable, List.prefix_append _ _, .inl ⟨hlonger, ?_⟩⟩
              rw [hitems, Function.update_self]
              rfl
            · exact .inl (by rw [hitems, Function.update_of_ne hpath])
        · have hold : v.files.items q = none := by
            rcases hitems with ⟨hitems, -⟩ | ⟨hnew, hitems⟩
            · rw [← hitems, hnone]
            · by_cases hpath : q = path'
              · rw [hpath, hnew]
              · rw [← hnone, hitems, Function.update_of_ne hpath]
          exact .inr ⟨hold, hwritable, hprefix, hmade⟩

end Open

section Read

/-- Nothing fails but what has to: the reads succeed and no write is cut off. -/
structure EfiDriver.Healthy (d : EfiDriver) : Prop where
  opens : d.opensVolume = true
  reads : ∀ path position, d.readable path position = true
  writes : ∀ path data, d.rejects path data = none

/-- Only one handle may have moved. -/
structure Moved (v v' : EfiVolume) (handle : Nat) : Prop where
  driver : v'.driver = v.driver
  readOnly : v'.readOnly = v.readOnly
  next : v'.files.next = v.files.next
  handles : ∀ item, Function.update v'.files.handles handle item =
    Function.update v.files.handles handle item

theorem Moved.refl (v : EfiVolume) (handle : Nat) : Moved v v handle :=
  ⟨rfl, rfl, rfl, fun _ => rfl⟩

theorem Moved.trans {v v' v'' : EfiVolume} {handle : Nat} (h : Moved v v' handle)
    (h' : Moved v' v'' handle) : Moved v v'' handle :=
  ⟨h'.driver.trans h.driver, h'.readOnly.trans h.readOnly, h'.next.trans h.next,
    fun item => (h'.handles item).trans (h.handles item)⟩

theorem moved_seek (v : EfiVolume) (handle position : Nat) :
    Moved v (v.withFiles (v.files.seek handle position)) handle :=
  ⟨rfl, rfl, rfl, fun _ => Function.update_idem _ _ _⟩

variable {v : EfiVolume} {handle : Nat} {path : EfiPath}

theorem read_moved (v : EfiVolume) (handle count : Nat) : Moved v (v.read handle count).2 handle ∧
    (v.read handle count).2.files.items = v.files.items := by
  rw [EfiVolume.read]
  split
  · exact ⟨Moved.refl v handle, rfl⟩
  · split
    · exact ⟨Moved.refl v handle, rfl⟩
    · split
      · exact ⟨Moved.refl v handle, rfl⟩
      · exact ⟨moved_seek v handle _, rfl⟩
    · split
      · exact ⟨moved_seek v handle _, rfl⟩
      · exact ⟨Moved.refl v handle, rfl⟩

theorem efiReadLoop_moved (file capacity fuel : Nat) (v : EfiVolume) (total : Bytes) :
    Moved v (efiReadLoop file capacity fuel v total).2 file ∧
      (efiReadLoop file capacity fuel v total).2.files.items = v.files.items := by
  induction fuel generalizing v total with
  | zero => exact ⟨Moved.refl v file, rfl⟩
  | succ fuel ih =>
    rw [efiReadLoop]
    split
    · obtain ⟨hmoved, hitems⟩ := read_moved v file (capacity - total.length)
      generalize v.read file (capacity - total.length) = result at *
      rcases result with ⟨_ | bytes, w⟩
      · exact ⟨hmoved, hitems⟩
      · dsimp only
        split
        · exact ⟨hmoved, hitems⟩
        · obtain ⟨hmoved', hitems'⟩ := ih w (total ++ bytes)
          exact ⟨hmoved.trans hmoved', hitems'.trans hitems⟩
    · exact ⟨Moved.refl v file, rfl⟩

theorem prefix_full {total content : Bytes} {capacity : Nat} (h : total <+: content)
    (hle : total.length ≤ capacity) (hge : capacity ≤ total.length) :
    some total = some (content.take capacity) := by
  rw [le_antisymm hge hle, ← List.prefix_iff_eq_take.mp h]

/-- However the firmware cuts a file in pieces, what is read is its beginning. -/
theorem efiReadLoop_file {capacity fuel : Nat} {content : Bytes}
    (hhealthy : v.driver.Healthy) (hfile : v.files.items path = some (.file content))
    {total : Bytes} (htotal : total <+: content)
    (hhandle : v.files.handles handle = some ⟨path, total.length⟩)
    (hfuel : capacity ≤ fuel + total.length) (hcapacity : total.length ≤ capacity) :
    (efiReadLoop handle capacity fuel v total).1 = some (content.take capacity) := by
  induction fuel generalizing v total with
  | zero => exact prefix_full htotal hcapacity (by omega)
  | succ fuel ih =>
    rw [efiReadLoop]
    by_cases hroom : total.length < capacity
    · obtain ⟨rest, rfl⟩ := htotal
      rw [if_pos hroom, EfiVolume.read, hhandle]
      dsimp only
      rw [hfile]
      dsimp only
      rw [if_pos (hhealthy.reads _ _), List.drop_left]
      dsimp only
      have hpos := v.driver.chunk_pos path total.length
        (rest.take (capacity - total.length)).length
      generalize v.driver.chunk path total.length
        (rest.take (capacity - total.length)).length = chunk at hpos
      by_cases hbytes : (rest.take (capacity - total.length)).take chunk = []
      · rw [if_pos hbytes]
        have hnone : rest.take (capacity - total.length) = [] := by
          by_contra hne
          rcases List.take_eq_nil_iff.mp hbytes with h | h
          · exact absurd (hpos (List.length_pos_iff.mpr hne)) (by omega)
          · exact hne h
        have hend : rest = [] := by
          rcases List.take_eq_nil_iff.mp hnone with h | h
          · omega
          · exact h
        rw [hend, List.append_nil, List.take_of_length_le hcapacity]
      · rw [if_neg hbytes]
        generalize hb : (rest.take (capacity - total.length)).take chunk = bytes at hbytes ⊢
        have hprefix : bytes <+: rest :=
          hb ▸ (List.take_prefix _ _).trans (List.take_prefix _ _)
        have hlen : bytes.length ≤ capacity - total.length := by
          rw [← hb, List.length_take, List.length_take]
          omega
        have hsome := List.length_pos_iff.mpr hbytes
        have hlength : (total ++ bytes).length = total.length + bytes.length :=
          List.length_append
        apply ih
        · exact hhealthy
        · exact hfile
        · exact (List.prefix_append_right_inj total).mpr hprefix
        · change Function.update v.files.handles handle _ handle = _
          rw [Function.update_self, hhandle, hlength]
          rfl
        · omega
        · omega
    · rw [if_neg hroom]
      exact prefix_full htotal hcapacity (by omega)

end Read

section Files

/-- The path has components, and each names an item of its own. -/
structure PlainPath (path : Bytes) : Prop where
  proper : ∀ component ∈ efiComponents path.length path, ProperName component
  ne_nil : efiComponents path.length path ≠ []

/-- The items that a path names on a volume. -/
def EfiVolume.pathOf (v : EfiVolume) (path : Bytes) : EfiPath :=
  v.target [] (efiComponents path.length path)

/-- No handle has been left open and none has been closed that was open. -/
structure Settled (v v' : EfiVolume) : Prop where
  driver : v'.driver = v.driver
  readOnly : v'.readOnly = v.readOnly
  next : v.files.next ≤ v'.files.next
  handles : v'.files.handles = v.files.handles

theorem Settled.refl (v : EfiVolume) : Settled v v := ⟨rfl, rfl, le_rfl, rfl⟩

theorem Settled.trans {v v' v'' : EfiVolume} (h : Settled v v') (h' : Settled v' v'') :
    Settled v v'' :=
  ⟨h'.driver.trans h.driver, h'.readOnly.trans h.readOnly, h.next.trans h'.next,
    h'.handles.trans h.handles⟩

variable {v : EfiVolume} {root position : Nat} {path : Bytes}

/-- A handle that is closed again has never been. -/
theorem Opened.settled {v v' w : EfiVolume} {target : EfiPath} {handle : Nat}
    (hopened : Opened v v' v.files.handles target (some handle)) (hmoved : Moved v' w handle) :
    Settled v (w.close handle) := by
  have hnew : v.files.handles handle = none := v.files.fresh _ (hopened.new handle rfl)
  refine ⟨hmoved.driver.trans hopened.driver, hmoved.readOnly.trans hopened.readOnly, ?_, ?_⟩
  · exact hopened.next.trans hmoved.next.ge
  · change Function.update w.files.handles handle none = v.files.handles
    rw [hmoved.handles, hopened.handles]
    exact FileVolume.close_new _ hnew _

theorem efiReadFile_law (hpath : PlainPath path)
    (hroot : v.files.handles root = some ⟨[], position⟩) (capacity : Nat) :
    Settled v (efiReadFile v root path capacity).2 ∧
      (efiReadFile v root path capacity).2.files.items = v.files.items ∧
      (v.files.items (v.pathOf path) = none → (efiReadFile v root path capacity).1 = none) ∧
      (v.driver.Healthy → ∀ content, v.files.fileAt (v.pathOf path) = some content →
        (efiReadFile v root path capacity).1 = some (content.take capacity)) := by
  have hopened := efiOpenComponents_opened efiFileModeRead 0 false hpath.proper hroot false
    hpath.ne_nil
  obtain ⟨hitems, hnone⟩ := efiOpenComponents_read 0 hpath.proper hroot false hpath.ne_nil
  rw [efiReadFile, efiOpenPath]
  generalize efiOpenComponents efiFileModeRead 0 false v root false
    (efiComponents path.length path) = result at *
  rcases result with ⟨_ | file, w⟩
  · refine ⟨⟨hopened.driver, hopened.readOnly, hopened.next, hopened.handles⟩, hitems,
      fun _ => rfl, fun _ content hcontent => ?_⟩
    have hitem := FileVolume.fileAt_eq_some.mp hcontent
    rw [EfiVolume.pathOf, hnone.mp rfl] at hitem
    cases hitem
  · have hne : file ≠ root := by
      have hle : v.files.next ≤ file := hopened.new file rfl
      have hlt := FileVolume.lt_next hroot
      omega
    dsimp only
    rw [if_neg hne]
    obtain ⟨hmoved, hsame⟩ := efiReadLoop_moved file capacity capacity w []
    refine ⟨hopened.settled hmoved, ?_, fun h => ?_, fun hhealthy content hcontent => ?_⟩
    · exact hsame.trans hitems
    · cases hnone.mpr h
    · have hitem := FileVolume.fileAt_eq_some.mp hcontent
      have hhandle : w.files.handles file = some ⟨v.pathOf path, 0⟩ := by
        rw [hopened.handles]
        exact Function.update_self _ _ _
      refine efiReadLoop_file ?_ ?_ List.nil_prefix hhandle le_self_add (Nat.zero_le _)
      · rw [hopened.driver]
        exact hhealthy
      · rw [hitems, hitem]

theorem setPosition_zero {handle : Nat} {path : EfiPath}
    (h : v.files.handles handle = some ⟨path, 0⟩) : v.setPosition handle 0 = v := by
  rw [EfiVolume.setPosition]
  split
  · have hsame : v.files.seek handle 0 = v.files := FileVolume.seek_same h
    rw [EfiVolume.withFiles, hsame]
  · rfl

theorem moved_store (v : EfiVolume) (handle : Nat) (path : EfiPath) (content : Bytes) :
    Moved v (v.withFiles (v.files.store path content)) handle := by
  refine ⟨rfl, rfl, FileVolume.next_store content, fun item => ?_⟩
  rw [EfiVolume.withFiles, FileVolume.handles_store]

/-- A file that is new or cut off, if the firmware can do that, with data in front. -/
structure Written (v w : EfiVolume) (path : EfiPath) (data : Bytes) : Prop where
  others : ∀ q, q ≠ path → w.files.items q = v.files.items q
  content : ∃ tail, w.files.fileAt path = some (data ++ tail) ∧
    (v.driver.setsSize path = true → tail = [])

theorem fileAt_store {files : FileVolume EfiName UInt8} {path : EfiPath} {old : Bytes}
    (h : files.fileAt path = some old) (content : Bytes) :
    (files.store path content).fileAt path = some content := by
  rw [FileVolume.fileAt_eq_some, FileVolume.items_store (FileVolume.fileAt_eq_some.mp h),
    Function.update_self]

theorem others_store {files : FileVolume EfiName UInt8} {path : EfiPath} {old : Bytes}
    (h : files.fileAt path = some old) (content : Bytes) (q : EfiPath) (hq : q ≠ path) :
    (files.store path content).items q = files.items q := by
  rw [FileVolume.items_store (FileVolume.fileAt_eq_some.mp h), Function.update_of_ne hq]

theorem efiTryTruncateFile_law {handle : Nat} {path : EfiPath} {old : Bytes}
    (hhandle : v.files.handles handle = some ⟨path, 0⟩) (hfile : v.files.fileAt path = some old) :
    Moved v (efiTryTruncateFile v handle) handle ∧
      (efiTryTruncateFile v handle).files.handles handle = some ⟨path, 0⟩ ∧
      Written v (efiTryTruncateFile v handle) path [] := by
  rw [efiTryTruncateFile, hhandle]
  dsimp only
  split
  · refine ⟨moved_store v handle path [], ?_, others_store hfile [], [], ?_, fun _ => rfl⟩
    · rw [EfiVolume.withFiles, FileVolume.handles_store, hhandle]
    · exact fileAt_store hfile []
  · rename_i hnot
    exact ⟨Moved.refl v handle, hhandle, fun _ _ => rfl, old, hfile, fun h => absurd h hnot⟩

theorem write_law {handle : Nat} {path : EfiPath} {old : Bytes} (data : Bytes)
    (hhandle : v.files.handles handle = some ⟨path, 0⟩) (hfile : v.files.fileAt path = some old) :
    Moved v (v.write handle data).2 handle ∧
      (∀ q, q ≠ path → (v.write handle data).2.files.items q = v.files.items q) ∧
      ((v.write handle data).2.files.fileAt path).isSome = true ∧
      ((v.write handle data).1 = true → (v.write handle data).2.files.fileAt path =
        some (data ++ old.drop data.length)) ∧
      (v.driver.rejects path data = none → (v.write handle data).1 = true) := by
  rw [EfiVolume.write, hhandle]
  dsimp only
  rw [hfile]
  dsimp only
  cases v.driver.rejects path data with
  | none =>
    refine ⟨⟨rfl, rfl, FileVolume.next_store _, fun item => ?_⟩, others_store hfile _, ?_,
      fun _ => ?_, fun _ => rfl⟩
    · dsimp only [EfiVolume.withFiles, FileVolume.seek]
      rw [FileVolume.handles_store, Function.update_idem]
    · exact Option.isSome_iff_exists.mpr ⟨_, fileAt_store hfile _⟩
    · rw [← overwrite_zero]
      exact fileAt_store hfile _
  | some count =>
    exact ⟨moved_store v handle path _, others_store hfile _,
      Option.isSome_iff_exists.mpr ⟨_, fileAt_store hfile _⟩,
      fun h => (Bool.false_ne_true h).elim, fun h => by cases h⟩

/-- What a call of `efi_write_file` may change: directories are made on the way to the file. -/
def Touches (v w : EfiVolume) (target : EfiPath) : Prop := ∀ q, w.files.items q = v.files.items q ∨
  v.readOnly = false ∧ q <+: target ∧
    (q ≠ target → v.files.items q = none ∧ w.files.items q = some .directory) ∧
    (q = target → (w.files.fileAt q).isSome = true)

theorem MakesWay.touches {w u : EfiVolume} {target : EfiPath} {made : Bool}
    (h : MakesWay v w target made)
    (hu : ∀ q, q ≠ target ∨ made = false → u.files.items q = w.files.items q)
    (hfile : made = true → (u.files.fileAt target).isSome = true) : Touches v u target := by
  intro q
  by_cases hq : q = target
  · cases made with
    | false =>
      rw [hu q (.inr rfl)]
      rcases h.items q with hsame | ⟨-, -, -, hother | hfile⟩
      · exact .inl hsame
      · exact absurd hq hother.1
      · exact (Bool.false_ne_true hfile.2.1).elim
    | true =>
      exact .inr ⟨(h.file rfl).2, hq ▸ List.prefix_rfl, fun hne => absurd hq hne,
        fun _ => hq ▸ hfile rfl⟩
  · rw [hu q (.inl hq)]
    rcases h.items q with hsame | ⟨hnone, hwritable, hprefix, hdirectory | hfile⟩
    · exact .inl hsame
    · exact .inr ⟨hwritable, hprefix, fun _ => ⟨hnone, hdirectory.2⟩, fun h => absurd h hq⟩
    · exact absurd hfile.1 hq

theorem efiWriteFile_law (hpath : PlainPath path)
    (hroot : v.files.handles root = some ⟨[], position⟩) (data : Bytes) :
    Settled v (efiWriteFile v root path data).2 ∧
      Touches v (efiWriteFile v root path data).2 (v.pathOf path) ∧
      ((efiWriteFile v root path data).1 = true → v.readOnly = false ∧
        ∃ tail, (efiWriteFile v root path data).2.files.fileAt (v.pathOf path) =
          some (data ++ tail) ∧ (v.driver.setsSize (v.pathOf path) = true → tail = [])) ∧
      (v.driver.Healthy → (efiWriteFile v root path data).1 = false →
        (efiWriteFile v root path data).2.files.fileAt (v.pathOf path) =
          v.files.fileAt (v.pathOf path)) := by
  have hopened := efiOpenComponents_opened
    (efiFileModeRead ||| efiFileModeWrite ||| efiFileModeCreate) efiFileArchive true
    hpath.proper hroot false hpath.ne_nil
  have hway := efiOpenComponents_create hpath.proper hroot v.files.root false hpath.ne_nil
  rw [efiWriteFile, efiOpenPath]
  generalize efiOpenComponents _ efiFileArchive true v root false
    (efiComponents path.length path) = result at *
  rcases result with ⟨_ | file, w⟩
  · refine ⟨⟨hopened.driver, hopened.readOnly, hopened.next, hopened.handles⟩,
      hway.touches (fun _ _ => rfl) (fun h => (Bool.false_ne_true h).elim),
      fun h => (Bool.false_ne_true h).elim, fun _ _ => ?_⟩
    rw [FileVolume.fileAt, FileVolume.fileAt]
    rcases hway.items (v.pathOf path) with hsame | ⟨-, -, -, hother | hmade⟩
    · exact congrArg (Option.bind · VolumeItem.content) hsame
    · exact absurd rfl hother.1
    · exact (Bool.false_ne_true hmade.2.1).elim
  · have hne : file ≠ root := by
      have hle : v.files.next ≤ file := hopened.new file rfl
      have hlt := FileVolume.lt_next hroot
      omega
    have hhandle : w.files.handles file = some ⟨v.pathOf path, 0⟩ := by
      rw [hopened.handles]
      exact Function.update_self _ _ _
    obtain ⟨hfile, hwritable⟩ := hway.file rfl
    obtain ⟨old, hold⟩ := Option.isSome_iff_exists.mp hfile
    obtain ⟨hmoved, hhandle', hwritten⟩ := efiTryTruncateFile_law hhandle hold
    dsimp only
    rw [if_neg hne, setPosition_zero hhandle, setPosition_zero hhandle']
    obtain ⟨tail, htail, hcut⟩ := hwritten.content
    rw [hopened.driver] at hcut
    generalize efiTryTruncateFile w file = u at *
    have hother (q : EfiPath) (hq : q ≠ v.pathOf path ∨ (some file).isSome = false) :
        q ≠ v.pathOf path := hq.resolve_right (by simp)
    by_cases hdata : data = []
    · rw [if_pos hdata, hdata]
      exact ⟨hopened.settled hmoved, hway.touches (fun q hq => hwritten.others q (hother q hq))
          fun _ => Option.isSome_iff_exists.mpr ⟨_, htail⟩,
        fun _ => ⟨hwritable, tail, htail, hcut⟩, fun _ h => (Bool.false_ne_true h.symm).elim⟩
    · rw [if_neg hdata]
      obtain ⟨hmoved', hothers, hfile', hcontent, hhealthy⟩ := write_law data hhandle' htail
      dsimp only
      refine ⟨hopened.settled (hmoved.trans hmoved'),
        hway.touches
          (fun q hq => (hothers q (hother q hq)).trans (hwritten.others q (hother q hq)))
          (fun _ => hfile'),
        fun h => ⟨hwritable, tail.drop data.length, hcontent h, fun hsets => ?_⟩,
        fun hd h => ?_⟩
      · rw [hcut hsets, List.drop_nil]
      · rw [hmoved.driver, hopened.driver] at hhealthy
        rw [hhealthy (hd.writes _ _)] at h
        exact (Bool.false_ne_true h.symm).elim

end Files

end SnsxOS.Arm64
