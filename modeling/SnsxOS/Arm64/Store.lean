import SnsxOS.Arm64.Desktop
import SnsxOS.Arm64.Seed

/-!
# The package store

`store_load_state` reads which packages are installed and brings their files in line: the file
of an installed package is written, that of another one removed.
-/

namespace SnsxOS.Arm64

open Framework

/-- What the store reads of a row of `g_store_catalog`. -/
structure StorePackage where
  id : Bytes
  assetPath : Bytes
  essential : Bool
  installedByDefault : Bool
  /-- `store_asset_body` -/
  body : Bytes

def storeCatalog : List StorePackage := [
  { id := ascii "browser-suite"
    assetPath := ascii "/apps/BROWSER-SUITE.TXT"
    essential := true
    installedByDefault := true
    body := textLines [
      "SNSX Browser Suite",
      "==================",
      "This package represents the built-in SNSX Browser app.",
      "Routes: snsx://home, snsx://network, snsx://store, snsx://baremetal,",
      "snsxdiag://network, and plain http:// URLs over the current SNSX stack."] },
  { id := ascii "snake-arcade"
    assetPath := ascii "/games/SNAKE-ARCADE.TXT"
    essential := true
    installedByDefault := true
    body := textLines [
      "SNSX Snake Arcade",
      "=================",
      "Run snake from the desktop or shell.",
      "Controls: Arrow keys or WASD, Space pause, R restart, ESC back."] },
  { id := ascii "intel-82540em"
    assetPath := ascii "/drivers/INTEL-82540EM.TXT"
    essential := true
    installedByDefault := true
    body := textLines [
      "SNSX Intel 82540EM Driver",
      "=========================",
      "This is the native Ethernet driver path for the VirtualBox 82540EM NIC.",
      "It backs the DHCP, IPv4, DNS, and plain HTTP foundation when firmware",
      "network protocols are not exposed to SNSX."] },
  { id := ascii "baremetal-kit"
    assetPath := ascii "/kits/PRIMARY-OS.TXT"
    essential := false
    installedByDefault := false
    body := textLines [
      "SNSX Bare-Metal Install Kit",
      "===========================",
      "Use /docs/BAREMETAL.TXT for the full USB and internal-disk procedure.",
      "This kit prepares the file layout and guidance for making SNSX the",
      "primary UEFI OS on supported ARM64 hardware."] },
  { id := ascii "wifi-driver-lab"
    assetPath := ascii "/drivers/WIFI-LAB.TXT"
    essential := false
    installedByDefault := false
    body := textLines [
      "SNSX Wi-Fi Driver Lab",
      "=====================",
      "This package seeds the development notes and layout for future real",
      "Wi-Fi drivers. Nearby SSID discovery still needs chipset-specific code."] },
  { id := ascii "bluetooth-driver-lab"
    assetPath := ascii "/drivers/BLUETOOTH-LAB.TXT"
    essential := false
    installedByDefault := false
    body := textLines [
      "SNSX Bluetooth Driver Lab",
      "=========================",
      "This package seeds the development notes and layout for future real",
      "Bluetooth controller support, pairing, and nearby device discovery."] },
  { id := ascii "printer-driver-kit"
    assetPath := ascii "/drivers/PRINTER-KIT.TXT"
    essential := false
    installedByDefault := false
    body := textLines [
      "SNSX Printer Driver Kit",
      "=======================",
      "This package outlines the SNSX spooler and driver hooks for USB and",
      "network printers on future hardware-backed builds."] },
  { id := ascii "dev-starter"
    assetPath := ascii "/apps/DEV-STARTER.TXT"
    essential := false
    installedByDefault := false
    body := textLines [
      "SNSX Developer Starter",
      "======================",
      "This package seeds SNSX Code Studio, the host-backed dev bridge, and",
      "example workspaces for SNSX, Python, JavaScript, C, C++, HTML, and CSS."] }]

def storePath : Bytes := ascii "/home/.SNSX_STORE.TXT"

/-- `store_find_package_index`; no id is empty. -/
def storeFindPackage (id : Bytes) : Option Nat := storeCatalog.findIdx? fun pkg => pkg.id == id

/-- The row of a package that a line of the file names. -/
def storeSetInstalled (installed : List Bool) (id value : Bytes) : List Bool :=
  match storeFindPackage id with
  | none => installed
  | some index =>
      if (storeCatalog[index]?.map StorePackage.essential) = some false then
        installed.set index (atoi value != 0)
      else installed

/-- The loop over the lines. The bar of a line is looked for before the line is cut off, so a line
without one takes the first bar behind it, and the zero written there ends the text. -/
def storeLoadLines (installed : List Bool) (text : Bytes) : List Bool :=
  if text = [] then installed
  else
    let line := text.takeWhile (· != newline)
    let next := (text.dropWhile (· != newline)).drop 1
    match strchr text 124 with
    | some (_ :: value) =>
        if 124 ∈ line then
          storeLoadLines (storeSetInstalled installed (line.takeWhile (· != 124))
            (value.takeWhile (· != newline))) next
        else
          storeLoadLines (storeSetInstalled installed line value)
            (next.takeWhile (· != 124))
    | _ => storeLoadLines installed next
termination_by text.length
decreasing_by
  all_goals
    have hdrop := (List.dropWhile_suffix (· != newline) (l := text)).length_le
    have hpos : 0 < text.length := List.length_pos_iff.mpr ‹_›
    have hcut := (List.takeWhile_prefix (· != 124)
      (l := (text.dropWhile (· != newline)).drop 1)).length_le
    simp only [List.length_drop] at hcut ⊢
    omega

def storeInstall (fs : ArmFs) (pkg : StorePackage) : ArmFs :=
  (fsWriteIfChanged fs pkg.assetPath pkg.body .text).2

/-- Bring the file of a package in line. -/
def storeSyncPackage (fs : ArmFs) (entry : StorePackage × Bool) : ArmFs :=
  if entry.2 then storeInstall fs entry.1
  else if (fsFind fs entry.1.assetPath).isSome then (fsRemove fs entry.1.assetPath).2
  else fs

def storeSyncFiles (installed : List Bool) (fs : ArmFs) : ArmFs :=
  let fs := [ascii "/apps", ascii "/drivers", ascii "/games", ascii "/kits"].foldl
    (fun fs path => (fsMkdir fs path).2) fs
  (storeCatalog.zip installed).foldl storeSyncPackage fs

/-- The string that `store_save_state` builds. -/
def storeText (installed : List Bool) : Bytes :=
  unlines newline ((storeCatalog.zip installed).map fun entry =>
    entry.1.id ++ ascii "|" ++ flagText entry.2)

def storeSaveState (installed : List Bool) (fs : ArmFs) : ArmFs :=
  (fsWriteIfChanged fs storePath (storeText installed) .text).2

def storeLoadState (fs : ArmFs) : List Bool × ArmFs :=
  let defaults := storeCatalog.map StorePackage.installedByDefault
  let text := stateText fs storePath 1024
  let loaded := match text with
    | some text => storeLoadLines defaults text
    | none => defaults
  let installed := (storeCatalog.zip loaded).map fun entry => entry.1.essential || entry.2
  let fs := storeSyncFiles installed fs
  (installed, if text.isNone then storeSaveState installed fs else fs)

end SnsxOS.Arm64
