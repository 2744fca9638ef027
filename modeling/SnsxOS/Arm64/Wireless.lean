import SnsxOS.Framework.NamedSlots
import SnsxOS.Framework.Transition
import SnsxOS.Arm64.Desktop

/-!
# The Wi-Fi and Bluetooth dashboards

The dashboards keep profiles in the slots of two arrays. ADD and PAIR compare the whole name that
was typed with the names in the slots, which hold its first 31 characters. Which slot a profile
takes, and whether the profiles stay apart, is decided here; what a selected profile is connected to
is left out.
-/

namespace SnsxOS.Arm64

open Framework

/-- What `ui_prompt_line` returns into an array of `FS_PATH_MAX` characters. -/
structure Prompted where
  bytes : Bytes
  printable : ∀ ch ∈ bytes, isprint ch = true
  fits : bytes.length < fsPathMax
  deriving DecidableEq

section Slots

variable {ν : Type*}

/-- The search of ADD and of PAIR: the first used slot with the name ends it, and the first free
slot is remembered. -/
def searchSlot (used : ν → Bool) (name : ν → Bytes) (input : Bytes) (i : Nat) (slot : Option Nat) :
    List ν → Option Nat
  | [] => slot
  | row :: rows =>
      if used row = true ∧ name row = input then some i
      else searchSlot used name input (i + 1)
        (if used row = false ∧ slot = none then some i else slot) rows

/-- `wifi_collect_slots` and `bluetooth_collect_slots` -/
def collectSlots (used : ν → Bool) (rows : List ν) : List Nat :=
  (List.range rows.length).filter fun i => (rows[i]?.map used).getD false

/-- `slots[selected]`, where the selection is moved to the last row if it is behind it. -/
def selectedSlot (used : ν → Bool) (rows : List ν) (selected : Nat) : Option Nat :=
  (collectSlots used rows)[min selected ((collectSlots used rows).length - 1)]?

end Slots

def WifiProfile.add (name password : Bytes) : WifiProfile where
  used := true
  autoConnect := true
  remembered := true
  ssid := strcopyLimit name 32
  password := strcopyLimit password 64

def BluetoothDevice.pair (name kind : Bytes) : BluetoothDevice where
  used := true
  paired := true
  name := strcopyLimit name 32
  kind := strcopyLimit kind 24

/-- The actions of the dashboards that change a profile, with the answers to their prompts. -/
inductive WirelessOp where
  | addWifi (name password : Prompted)
  /-- the password is asked for when the profile has none -/
  | connectWifi (selected : Nat) (password : Prompted)
  | forgetWifi (selected : Nat)
  | pairBluetooth (name kind : Prompted)
  | unpairBluetooth (selected : Nat)
  deriving DecidableEq

/-- The slot that ADD finds for a name. -/
def wifiSlot (wifi : List WifiProfile) (name : Bytes) : Option Nat :=
  searchSlot WifiProfile.used WifiProfile.ssid name 0 none wifi

/-- The slot that PAIR finds for a name. -/
def bluetoothSlot (bluetooth : List BluetoothDevice) (name : Bytes) : Option Nat :=
  searchSlot BluetoothDevice.used BluetoothDevice.name name 0 none bluetooth

/-- `ui_run_wifi_app` -/
def wifiStep (wifi : List WifiProfile) : WirelessOp → List WifiProfile
  | .addWifi name password =>
      if name.bytes = [] then wifi
      else match wifiSlot wifi name.bytes with
        | some slot => wifi.set slot (.add name.bytes password.bytes)
        | none => wifi
  | .connectWifi selected password =>
      match selectedSlot WifiProfile.used wifi selected with
      | some slot => wifi.modify slot fun profile =>
          if profile.password = [] then
            { profile with password := strcopyLimit password.bytes 64 }
          else profile
      | none => wifi
  | .forgetWifi selected =>
      match selectedSlot WifiProfile.used wifi selected with
      | some slot => wifi.set slot .zero
      | none => wifi
  | _ => wifi

/-- `ui_run_bluetooth_app` -/
def bluetoothStep (bluetooth : List BluetoothDevice) : WirelessOp → List BluetoothDevice
  | .pairBluetooth name kind =>
      if name.bytes = [] ∨ kind.bytes = [] then bluetooth
      else match bluetoothSlot bluetooth name.bytes with
        | some slot => bluetooth.set slot (.pair name.bytes kind.bytes)
        | none => bluetooth
  | .unpairBluetooth selected =>
      match selectedSlot BluetoothDevice.used bluetooth selected with
      | some slot => bluetooth.set slot .zero
      | none => bluetooth
  | _ => bluetooth

def wirelessStep (s : WirelessProfiles) (op : WirelessOp) : WirelessProfiles where
  wifi := wifiStep s.wifi op
  bluetooth := bluetoothStep s.bluetooth op

/-- The arrays before a profile has been stored. -/
def wirelessStart : WirelessProfiles where
  wifi := List.replicate wifiProfileMax .zero
  bluetooth := List.replicate bluetoothDeviceMax .zero

section Names

variable {ν : Type*} {used : ν → Bool} {name : ν → Bytes}

/-- The names of the used rows. -/
def rowNames (used : ν → Bool) (name : ν → Bytes) (rows : List ν) : List (Option Bytes) :=
  rows.map fun row => if used row = true then some (name row) else none

theorem searchSlot_eq (input : Bytes) (i : Nat) (slot : Option Nat) (rows : List ν) :
    searchSlot used name input i slot rows =
      (((rowNames used name rows).findIdx? fun slot => decide (slot = some input)).map (· + i)).or
        (slot.or (((rowNames used name rows).findIdx? Option.isNone).map (· + i))) := by
  induction rows generalizing i slot with
  | nil => simp [searchSlot, rowNames]
  | cons row rows ih =>
    have hshift : ∀ found : Option Nat, (found.map (· + 1)).map (· + i) = found.map (· + (i + 1)) := by
      intro found
      cases found with
      | none => rfl
      | some k => exact congrArg some (show k + 1 + i = k + (i + 1) by omega)
    rw [searchSlot, rowNames, List.map_cons, ← rowNames, List.findIdx?_cons, List.findIdx?_cons]
    cases hused : used row with
    | false =>
      have hfree : ((if false = true then some (name row) else none) : Option Bytes) = none := rfl
      rw [if_neg (by simp), ih, hfree]
      cases slot with
      | none => simp [hshift]
      | some k => simp [hshift]
    | true =>
      have hrow : ((if true = true then some (name row) else none) : Option Bytes) =
          some (name row) := rfl
      rw [hrow]
      by_cases hname : name row = input
      · rw [if_pos ⟨rfl, hname⟩, hname]
        simp
      · rw [if_neg fun h => hname h.2, ih]
        simp [hname, hshift]

theorem searchSlot_pick (input : Bytes) (rows : List ν) :
    searchSlot used name input 0 none rows = pickSlot (rowNames used name rows) input := by
  have hzero : ∀ found : Option Nat, found.map (· + 0) = found := by
    intro found
    cases found <;> rfl
  rw [searchSlot_eq, pickSlot, Option.none_or, hzero, hzero]

/-- No two used rows have one name, and a name that a slot was given finds this slot again. -/
structure SlotsApart (used : ν → Bool) (name : ν → Bytes) (rows : List ν)
    (given : List (Option Bytes)) : Prop where
  unique : ∀ (i j : Nat) (row other : ν), rows[i]? = some row → rows[j]? = some other →
    used row = true → used other = true → name row = name other → i = j
  found : ∀ (i : Nat) (input : Bytes), given[i]? = some (some input) →
    searchSlot used name input 0 none rows = some i

theorem slotsApart_iff {rows : List ν} {given : List (Option Bytes)} {shorten : Bytes → Bytes}
    (h : rowNames used name rows = keptNames shorten given) :
    SlotsApart used name rows given ↔ Apart shorten given := by
  have hrow : ∀ (i : Nat) (input : Bytes), (keptNames shorten given)[i]? = some (some input) ↔
      ∃ row, rows[i]? = some row ∧ used row = true ∧ name row = input := by
    intro i input
    rw [← h, rowNames, List.getElem?_map, Option.map_eq_some_iff]
    constructor
    · rintro ⟨row, hget, hname⟩
      split at hname
      · exact ⟨row, hget, ‹_›, Option.some.inj hname⟩
      · cases hname
    · rintro ⟨row, hget, hused, rfl⟩
      exact ⟨row, hget, if_pos hused⟩
  constructor
  · intro hapart
    refine ⟨fun i j input hi hj => ?_, fun i input hi => ?_⟩
    · obtain ⟨row, hget, hused, hname⟩ := (hrow i input).mp hi
      obtain ⟨other, hget', hused', hname'⟩ := (hrow j input).mp hj
      exact hapart.unique i j row other hget hget' hused hused' (hname.trans hname'.symm)
    · rw [← h, ← searchSlot_pick]
      exact hapart.found i input hi
  · intro hapart
    refine ⟨fun i j row other hi hj hused hused' hname => ?_, fun i input hi => ?_⟩
    · exact hapart.unique i j (name other) ((hrow i _).mpr ⟨row, hi, hused, hname⟩)
        ((hrow j _).mpr ⟨other, hj, hused', rfl⟩)
    · rw [searchSlot_pick, h]
      exact hapart.found i input hi

theorem none_mem_given_iff {rows : List ν} {given : List (Option Bytes)} {shorten : Bytes → Bytes}
    (h : rowNames used name rows = keptNames shorten given) :
    none ∉ given ↔ ∀ row ∈ rows, used row = true := by
  have hkept : none ∈ given ↔ none ∈ keptNames shorten given := by
    simp [keptNames]
  rw [hkept, ← h, rowNames, List.mem_map]
  constructor
  · intro hnone row hrow
    by_contra hfree
    exact hnone ⟨row, hrow, if_neg hfree⟩
  · rintro hall ⟨row, hrow, hnone⟩
    rw [if_pos (hall row hrow)] at hnone
    cases hnone

theorem rowNames_set {rows : List ν} (slot : Nat) (row : ν) :
    rowNames used name (rows.set slot row) =
      (rowNames used name rows).set slot (if used row = true then some (name row) else none) :=
  List.map_set

/-- A change of other fields leaves the names. -/
theorem rowNames_modify {rows : List ν} (slot : Nat) {f : ν → ν}
    (hf : ∀ row, used (f row) = used row ∧ name (f row) = name row) :
    rowNames used name (rows.modify slot f) = rowNames used name rows := by
  apply List.ext_getElem?
  intro i
  rw [rowNames, rowNames, List.getElem?_map, List.getElem?_map, List.getElem?_modify]
  cases rows[i]? with
  | none => rfl
  | some row =>
    by_cases hat : slot = i
    · simp [hat, hf row]
    · simp [hat]

end Names

/-- The profiles and the whole names that the slots were given and that were not forgotten. -/
structure NamedProfiles where
  profiles : WirelessProfiles
  wifiNames : List (Option Bytes)
  bluetoothNames : List (Option Bytes)

def namedStart : NamedProfiles where
  profiles := wirelessStart
  wifiNames := List.replicate wifiProfileMax none
  bluetoothNames := List.replicate bluetoothDeviceMax none

/-- A slot with another name; nothing where there is no slot. -/
def renameSlot (names : List (Option Bytes)) (slot : Option Nat) (name : Option Bytes) :
    List (Option Bytes) :=
  match slot with
  | some slot => names.set slot name
  | none => names

def namedStep (s : NamedProfiles) (op : WirelessOp) : NamedProfiles where
  profiles := wirelessStep s.profiles op
  wifiNames := match op with
    | .addWifi name _ =>
        if name.bytes = [] then s.wifiNames
        else renameSlot s.wifiNames (wifiSlot s.profiles.wifi name.bytes) (some name.bytes)
    | .forgetWifi selected =>
        renameSlot s.wifiNames (selectedSlot WifiProfile.used s.profiles.wifi selected) none
    | _ => s.wifiNames
  bluetoothNames := match op with
    | .pairBluetooth name kind =>
        if name.bytes = [] ∨ kind.bytes = [] then s.bluetoothNames
        else renameSlot s.bluetoothNames (bluetoothSlot s.profiles.bluetooth name.bytes) (some name.bytes)
    | .unpairBluetooth selected =>
        renameSlot s.bluetoothNames
          (selectedSlot BluetoothDevice.used s.profiles.bluetooth selected) none
    | _ => s.bluetoothNames

/-- The used profiles have distinct names, and a name that is saved updates its slot. -/
structure NamesApart (s : NamedProfiles) : Prop where
  wifi : SlotsApart WifiProfile.used WifiProfile.ssid s.profiles.wifi s.wifiNames
  bluetooth :
    SlotsApart BluetoothDevice.used BluetoothDevice.name s.profiles.bluetooth s.bluetoothNames

/-- A name that is stored fits its field. -/
def NameFits (s : NamedProfiles) : WirelessOp → Prop
  | .addWifi name _ => name.bytes.length < 32 ∨ ∀ profile ∈ s.profiles.wifi, profile.used = true
  | .pairBluetooth name kind => kind.bytes = [] ∨ name.bytes.length < 32 ∨
      ∀ device ∈ s.profiles.bluetooth, device.used = true
  | _ => True

/-- What a field of 32 characters keeps of a name. -/
def shortName (name : Bytes) : Bytes := strcopyLimit name 32

theorem shortName_eq_self_iff {name : Bytes} : shortName name = name ↔ name.length < 32 := by
  refine ⟨fun h => ?_, strcopyLimit_of_lt⟩
  rw [← h]
  exact length_strcopyLimit_lt name (by decide)

/-- The fields keep the given names, shortened. -/
structure KeepsNames (s : NamedProfiles) : Prop where
  wifi : rowNames WifiProfile.used WifiProfile.ssid s.profiles.wifi =
    keptNames shortName s.wifiNames
  bluetooth : rowNames BluetoothDevice.used BluetoothDevice.name s.profiles.bluetooth =
    keptNames shortName s.bluetoothNames

theorem keptNames_set (shorten : Bytes → Bytes) (given : List (Option Bytes)) (slot : Nat)
    (name : Option Bytes) :
    keptNames shorten (given.set slot name) = (keptNames shorten given).set slot (name.map shorten) :=
  List.map_set

theorem keepsNames_start : KeepsNames namedStart := ⟨rfl, rfl⟩

theorem KeepsNames.step (s : NamedProfiles) (op : WirelessOp) (h : KeepsNames s) :
    KeepsNames (namedStep s op) := by
  cases op with
  | addWifi name password =>
    refine ⟨?_, h.bluetooth⟩
    simp only [namedStep, wirelessStep, wifiStep, bluetoothStep]
    split
    · exact h.wifi
    · cases wifiSlot s.profiles.wifi name.bytes with
      | none => exact h.wifi
      | some slot =>
        simp only [renameSlot, rowNames_set, keptNames_set, h.wifi]
        rfl
  | connectWifi selected password =>
    refine ⟨?_, h.bluetooth⟩
    simp only [namedStep, wirelessStep, wifiStep, bluetoothStep]
    cases hslot : selectedSlot WifiProfile.used s.profiles.wifi selected with
    | none => exact h.wifi
    | some slot =>
      dsimp only
      rw [rowNames_modify slot fun profile => ?_]
      · exact h.wifi
      · split <;> exact ⟨rfl, rfl⟩
  | forgetWifi selected =>
    refine ⟨?_, h.bluetooth⟩
    simp only [namedStep, wirelessStep, wifiStep, bluetoothStep]
    cases selectedSlot WifiProfile.used s.profiles.wifi selected with
    | none => exact h.wifi
    | some slot =>
      simp only [renameSlot, rowNames_set, keptNames_set, h.wifi]
      rfl
  | pairBluetooth name kind =>
    refine ⟨h.wifi, ?_⟩
    simp only [namedStep, wirelessStep, wifiStep, bluetoothStep]
    split
    · exact h.bluetooth
    · cases bluetoothSlot s.profiles.bluetooth name.bytes with
      | none => exact h.bluetooth
      | some slot =>
        simp only [renameSlot, rowNames_set, keptNames_set, h.bluetooth]
        rfl
  | unpairBluetooth selected =>
    refine ⟨h.wifi, ?_⟩
    simp only [namedStep, wirelessStep, wifiStep, bluetoothStep]
    cases selectedSlot BluetoothDevice.used s.profiles.bluetooth selected with
    | none => exact h.bluetooth
    | some slot =>
      simp only [renameSlot, rowNames_set, keptNames_set, h.bluetooth]
      rfl

theorem namesApart_iff {s : NamedProfiles} (h : KeepsNames s) :
    NamesApart s ↔ Apart shortName s.wifiNames ∧ Apart shortName s.bluetoothNames := by
  rw [← slotsApart_iff h.wifi, ← slotsApart_iff h.bluetooth]
  exact ⟨fun hapart => ⟨hapart.wifi, hapart.bluetooth⟩, fun hapart => ⟨hapart.1, hapart.2⟩⟩

/-- The names of the dashboards as names of slots. -/
theorem renameSlot_pick (given : List (Option Bytes)) (name : Bytes) :
    renameSlot given (pickSlot (keptNames shortName given) name) (some name) =
      addName shortName given name := by
  cases hpick : pickSlot (keptNames shortName given) name <;> simp only [renameSlot, addName, hpick]

theorem apart_renameSlot_none {given : List (Option Bytes)} (h : Apart shortName given)
    (slot : Option Nat) : Apart shortName (renameSlot given slot none) := by
  cases slot with
  | none => exact h
  | some slot => exact h.forget slot

/-- A stored name that is shortened is all that ends this. -/
theorem namesApart_step (s : NamedProfiles) (op : WirelessOp) (hkeeps : KeepsNames s)
    (h : NamesApart s) : NamesApart (namedStep s op) ↔ NameFits s op := by
  obtain ⟨hwifi, hbluetooth⟩ := (namesApart_iff hkeeps).mp h
  rw [namesApart_iff (hkeeps.step s op)]
  cases op with
  | addWifi name password =>
    simp only [namedStep, NameFits, hbluetooth, and_true]
    split
    · rename_i hempty
      simp [hwifi, hempty]
    · rw [wifiSlot, searchSlot_pick, hkeeps.wifi, renameSlot_pick, hwifi.add_iff,
        shortName_eq_self_iff, none_mem_given_iff hkeeps.wifi]
  | connectWifi selected password => simp [namedStep, NameFits, hwifi, hbluetooth]
  | forgetWifi selected =>
    simp only [namedStep, NameFits, hbluetooth, and_true, iff_true]
    exact apart_renameSlot_none hwifi _
  | pairBluetooth name kind =>
    simp only [namedStep, NameFits, hwifi, true_and]
    by_cases hkind : kind.bytes = []
    · simp [hkind, hbluetooth]
    by_cases hempty : name.bytes = []
    · simp [hempty, hbluetooth]
    · rw [if_neg (by tauto), bluetoothSlot, searchSlot_pick, hkeeps.bluetooth, renameSlot_pick,
        hbluetooth.add_iff, shortName_eq_self_iff, none_mem_given_iff hkeeps.bluetooth]
      tauto
  | unpairBluetooth selected =>
    simp only [namedStep, NameFits, hwifi, true_and, iff_true]
    exact apart_renameSlot_none hbluetooth _

/-- In exactly the runs that store no name with more than 31 characters, every table that is
reached has distinct names and every name finds the slot it was given. -/
theorem namesApart_iff_guarded (ops : List WirelessOp) :
    (∀ before after, ops = before ++ after → NamesApart (run namedStep namedStart before)) ↔
      Guarded namedStep NameFits namedStart ops := by
  refine run_prefixes_iff_guarded (fun s op hkeeps _ => hkeeps.step s op) namesApart_step
    keepsNames_start ((namesApart_iff keepsNames_start).mpr ?_) ops
  exact ⟨apart_replicate shortName _, apart_replicate shortName _⟩

/-- A name of 32 characters. -/
def longName : Prompted where
  bytes := List.replicate 32 97
  printable := List.all_eq_true.mp rfl
  fits := by decide

/-- The long name is added twice and takes two slots. -/
theorem not_namesApart :
    (∃ profile other : WifiProfile,
      (run wirelessStep wirelessStart
        [.addWifi longName longName, .addWifi longName longName]).wifi.take 2 = [profile, other] ∧
        profile.used = true ∧ other.used = true ∧ profile.ssid = other.ssid) ∧
    ¬ NamesApart
      (run namedStep namedStart [.addWifi longName longName, .addWifi longName longName]) := by
  refine ⟨⟨.add longName.bytes longName.bytes, .add longName.bytes longName.bytes, by decide, rfl,
    rfl, rfl⟩, fun h => ?_⟩
  have hsame := h.wifi.unique 0 1 (.add longName.bytes longName.bytes)
    (.add longName.bytes longName.bytes) (by decide) (by decide) rfl rfl rfl
  cases hsame

end SnsxOS.Arm64
