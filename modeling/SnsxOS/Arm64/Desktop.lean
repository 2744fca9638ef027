import SnsxOS.Arm64.FileSystem
import SnsxOS.Framework.Lines
import SnsxOS.Lib.Decimal

/-!
# Preferences and profiles

`desktop_load_config` reads the preferences of the desktop from a text of keyed lines, counts the
launch and writes the text again; `wireless_profiles_load` reads the profiles of networks and
devices. The line shown as status is left out.
-/

namespace SnsxOS.Arm64

open Framework

/-- The text that a loader copies into its buffer, if the file is there. -/
def stateText (fs : ArmFs) (path : Bytes) (bufferSize : Nat) : Option Bytes :=
  match fsEntry fs path with
  | none => none
  | some entry =>
      if entry.type = .text then some (cString (entry.bytes.take (bufferSize - 1))) else none

/-- The values of a line behind its key; the first key that the line starts with counts. -/
def keyedLine {α : Type*} (keys : List (Bytes × (Bytes → α → α))) (state : α) (line : Bytes) : α :=
  match keys.find? fun key => key.1.isPrefixOf line with
  | some key => key.2 (line.drop key.1.length) state
  | none => state

def flagText (flag : Bool) : Bytes := if flag then ascii "1" else ascii "0"

section Preferences

def desktopTextMax : Nat := 32

/-- The number of names in `g_theme_names`. -/
def themeCount : Nat := 4

structure Desktop where
  theme : UInt32
  welcomeSeen : Bool
  autosave : Bool
  pointerTrail : Bool
  wifiEnabled : Bool
  bluetoothEnabled : Bool
  networkAutoconnect : Bool
  launchCount : UInt32
  pointerSpeed : UInt32
  networkPreference : UInt32
  lastApp : Bytes
  hostname : Bytes
  wifiSsid : Bytes
  hotspotName : Bytes
  deriving DecidableEq

def desktopDefault : Desktop where
  theme := 0
  welcomeSeen := false
  autosave := true
  pointerTrail := true
  wifiEnabled := true
  bluetoothEnabled := true
  networkAutoconnect := true
  launchCount := 0
  pointerSpeed := 2
  networkPreference := 0
  lastApp := ascii "WELCOME"
  hostname := ascii "SNSX"
  wifiSsid := ascii "SNSX-LAB"
  hotspotName := ascii "SNSX-HOTSPOT"

def desktopPath : Bytes := ascii "/home/.SNSX_DESKTOP.TXT"

/-- A number between two bounds, else the old one. -/
def boundedNumber (low high : Int32) (text : Bytes) (old : UInt32) : UInt32 :=
  if low ≤ atoi text ∧ atoi text ≤ high then (atoi text).toUInt32 else old

def desktopKeys : List (Bytes × (Bytes → Desktop → Desktop)) := [
  (ascii "THEME=", fun text d =>
    { d with theme := boundedNumber 0 (Int32.ofNat (themeCount - 1)) text d.theme }),
  (ascii "WELCOME=", fun text d => { d with welcomeSeen := atoi text != 0 }),
  (ascii "AUTOSAVE=", fun text d => { d with autosave := atoi text != 0 }),
  (ascii "POINTERTRAIL=", fun text d => { d with pointerTrail := atoi text != 0 }),
  (ascii "WIFIEN=", fun text d => { d with wifiEnabled := atoi text != 0 }),
  (ascii "BTEN=", fun text d => { d with bluetoothEnabled := atoi text != 0 }),
  (ascii "NETAUTOCONNECT=", fun text d => { d with networkAutoconnect := atoi text != 0 }),
  (ascii "LAUNCHES=", fun text d => { d with launchCount := (atoi text).toUInt32 }),
  (ascii "POINTERSPEED=", fun text d =>
    { d with pointerSpeed := boundedNumber 1 5 text d.pointerSpeed }),
  (ascii "NETMODE=", fun text d =>
    { d with networkPreference := boundedNumber 0 3 text d.networkPreference }),
  (ascii "LASTAPP=", fun text d => { d with lastApp := strcopyLimit text desktopTextMax }),
  (ascii "HOSTNAME=", fun text d => { d with hostname := strcopyLimit text desktopTextMax }),
  (ascii "WIFISSID=", fun text d => { d with wifiSsid := strcopyLimit text desktopTextMax }),
  (ascii "HOTSPOT=", fun text d => { d with hotspotName := strcopyLimit text desktopTextMax })]

/-- The string that `desktop_save_config` builds. -/
def desktopText (d : Desktop) : Bytes := unlines newline [
  ascii "THEME=" ++ u32ToDec d.theme,
  ascii "WELCOME=" ++ flagText d.welcomeSeen,
  ascii "AUTOSAVE=" ++ flagText d.autosave,
  ascii "POINTERTRAIL=" ++ flagText d.pointerTrail,
  ascii "WIFIEN=" ++ flagText d.wifiEnabled,
  ascii "BTEN=" ++ flagText d.bluetoothEnabled,
  ascii "NETAUTOCONNECT=" ++ flagText d.networkAutoconnect,
  ascii "LAUNCHES=" ++ u32ToDec d.launchCount,
  ascii "POINTERSPEED=" ++ u32ToDec d.pointerSpeed,
  ascii "NETMODE=" ++ u32ToDec d.networkPreference,
  ascii "LASTAPP=" ++ d.lastApp,
  ascii "HOSTNAME=" ++ d.hostname,
  ascii "WIFISSID=" ++ d.wifiSsid,
  ascii "HOTSPOT=" ++ d.hotspotName]

def desktopSaveConfig (d : Desktop) (fs : ArmFs) : ArmFs :=
  (fsWrite fs desktopPath (desktopText d) .text).2

def desktopLoadConfig (fs : ArmFs) : Desktop × ArmFs :=
  let d := match stateText fs desktopPath 768 with
    | none => desktopDefault
    | some text => (linesOf newline text).foldl (keyedLine desktopKeys) desktopDefault
  let d := { d with launchCount := d.launchCount + 1 }
  (d, desktopSaveConfig d fs)

end Preferences

section Wireless

def wifiProfileMax : Nat := 8

def bluetoothDeviceMax : Nat := 8

structure WifiProfile where
  used : Bool
  autoConnect : Bool
  remembered : Bool
  ssid : Bytes
  password : Bytes
  deriving DecidableEq

structure BluetoothDevice where
  used : Bool
  paired : Bool
  name : Bytes
  kind : Bytes
  deriving DecidableEq

def WifiProfile.zero : WifiProfile := ⟨false, false, false, [], []⟩

def BluetoothDevice.zero : BluetoothDevice := ⟨false, false, [], []⟩

def wifiPath : Bytes := ascii "/home/.SNSX_WIFI.TXT"

def bluetoothPath : Bytes := ascii "/home/.SNSX_BT.TXT"

/-- A text up to a bar and from behind it. -/
def cutAtBar (text : Bytes) : Option (Bytes × Bytes) :=
  match strchr text 124 with
  | some (_ :: rest) => some (text.takeWhile (· != 124), rest)
  | _ => none

/-- A line with too few bars leaves its row as it was. -/
def wifiProfileOfLine (line : Bytes) : WifiProfile :=
  ((cutAtBar line).bind fun (ssid, rest) =>
    (cutAtBar rest).bind fun (password, rest) =>
      (cutAtBar rest).map fun (autoConnect, remembered) =>
        { used := ssid != []
          autoConnect := atoi autoConnect != 0
          remembered := atoi remembered != 0
          ssid := strcopyLimit ssid 32
          password := strcopyLimit password 64 }).getD .zero

def bluetoothDeviceOfLine (line : Bytes) : BluetoothDevice :=
  ((cutAtBar line).bind fun (name, rest) =>
    (cutAtBar rest).map fun (kind, paired) =>
      { used := name != []
        paired := atoi paired != 0
        name := strcopyLimit name 32
        kind := strcopyLimit kind 24 }).getD .zero

/-- The rows of an array, one for each line of a file as far as they go. -/
def rowsOfLines {α : Type*} (rowMax : Nat) (ofLine : Bytes → α) (zero : α) (text : Option Bytes) :
    List α :=
  let rows := (((text.map (linesOf newline)).getD []).take rowMax).map ofLine
  rows ++ List.replicate (rowMax - rows.length) zero

structure WirelessProfiles where
  wifi : List WifiProfile
  bluetooth : List BluetoothDevice

def wirelessProfilesLoad (fs : ArmFs) : WirelessProfiles where
  wifi := rowsOfLines wifiProfileMax wifiProfileOfLine .zero (stateText fs wifiPath 1024)
  bluetooth := rowsOfLines bluetoothDeviceMax bluetoothDeviceOfLine .zero
    (stateText fs bluetoothPath 1024)

end Wireless

end SnsxOS.Arm64
