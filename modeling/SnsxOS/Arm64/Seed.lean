import SnsxOS.Arm64.Load

/-!
# The file system of a fresh session

`fs_seed` empties the table and creates eight directories and the bundled texts. All of them fit,
so the table it leaves is the listing itself.
-/

namespace SnsxOS.Arm64

open Framework

/-- A text of lines, each ended by a newline. -/
def textLines (lines : List String) : Bytes := lines.flatMap fun line => ascii line ++ [newline]

namespace Seed

def welcome : Bytes := textLines [
  "Welcome to SNSX ARM64 for VirtualBox.",
  "This is the Apple Silicon compatible live OS image.",
  "The VirtualBox build now starts with input diagnostics and a first-run setup screen.",
  "After setup you land in the graphical desktop, then use Install and Save to persist your work."]

def readme : Bytes := textLines [
  "SNSX ARM64 VirtualBox edition",
  "Built as a UEFI AArch64 live operating system for Apple Silicon hosts.",
  "Core features: desktop home screen, shell, writable RAM filesystem,",
  "persistence, installer, settings, network center, disk manager,",
  "system center, calculator, snake, app store, text editor, journal, file manager, and guides."]

def vbox : Bytes := textLines [
  "SNSX VirtualBox quick guide",
  "1. Build SNSX-VBox-ARM64.iso.",
  "2. Create a new ARM64 VM in VirtualBox or run make virtualbox-vm VM_NAME=SNS.",
  "3. Leave EFI enabled.",
  "4. Attach the ISO as the optical disk.",
  "5. Attach the auto-created persistence disk if you want an installed, writable session.",
  "6. Start the VM and choose the optical boot entry if firmware asks."]

def quickstart : Bytes := textLines [
  "SNSX quick start",
  "================",
  "help                 list shell commands",
  "setup                reopen the first-run setup app",
  "desktop              return to the desktop home screen",
  "files                open the file manager",
  "journal              open the journal editor",
  "calc 7*(8+1)         run the calculator",
  "edit /home/NOTES.TXT open the editor",
  "theme sunrise        switch the desktop theme",
  "pointer 3            set mouse speed",
  "netmode ethernet     prefer the VirtualBox wired LAN path",
  "dhcp                 renew a wired DHCP lease",
  "dns example.com      resolve a host name",
  "http http://example.com/ fetch a remote page",
  "hostname SNSX-LAB    rename the SNSX network profile",
  "snsxaddr             show SNSX protocol identities",
  "snake                open the Snake arcade app",
  "store                open the SNSX App Store",
  "installer            open the Installer app",
  "system               open the System Center",
  "open /docs/INSTALL.TXT  read bundled guides"]

def install : Bytes := textLines [
  "SNSX on VirtualBox (Apple Silicon)",
  "==================================",
  "1. Run: make vbox-arm64",
  "2. Optional one-command setup: make virtualbox-vm VM_NAME=SNSX",
  "3. In VirtualBox, use an ARM64 guest. Old x86 VMs will not boot on Apple Silicon.",
  "4. EFI must stay enabled.",
  "5. Attach SNSX-VBox-ARM64.iso and start the VM.",
  "6. The VM opens diagnostics and a first-run setup screen before the desktop.",
  "7. At the desktop press Enter for the shell, then run install and save.",
  "8. Remove the ISO and boot from the installed disk if desired.",
  "",
  "For USB sticks and real laptops, read /docs/BAREMETAL.TXT."]

def desktop : Bytes := textLines [
  "SNSX desktop guide",
  "==================",
  "SNSX boots through diagnostics, then enters the graphical desktop in VirtualBox.",
  "Choose apps such as Files, Notes, Calc, Snake, Guide, Installer, Network, Browser, and Store.",
  "Press Enter for the shell from Terminal, or type desktop later to come back.",
  "Use install and save to place SNSX onto the writable VM disk."]

def commands : Bytes := textLines [
  "SNSX command groups",
  "===================",
  "Navigation: pwd, ls, tree, cd, open, find, stat",
  "Files: touch, new, write, append, mkdir, rm, cp, mv",
  "Desktop: desktop, launcher, theme, pointer, trail, save, install, net, devices, snsxaddr",
  "Network: network, netmode, autonet, hostname, wifi, hotspot, netconnect, netrefresh, netdiag, ip, dhcp, dns, http",
  "Store: store, pkglist, installpkg ID, removepkg ID, baremetal",
  "Apps: files, notes, journal, calc, snake, store, installer, settings, system, guide, quickstart, browser, about"]

def devices : Bytes := textLines [
  "SNSX device diagnostics",
  "=======================",
  "devices               show firmware and desktop device state",
  "about                 show overall system summary",
  "network / net         show network adapter visibility",
  "pointer 1..5          tune relative mouse speed for VirtualBox capture",
  "If keyboard input does not respond in VirtualBox, verify the VM uses",
  "ARM64, EFI, xHCI, USB Keyboard, and USB Tablet in the SNSX VM helper."]

def networkDoc : Bytes := textLines [
  "SNSX Network Center",
  "===================",
  "SNSX first tries to use a firmware network adapter from UEFI.",
  "If firmware transport is missing, SNSX can also target the VirtualBox Intel 82540EM NIC directly.",
  "On this Apple Silicon VirtualBox target, host Wi-Fi is presented to the guest as virtual Ethernet.",
  "That means nearby hotspot names do not appear inside SNSX unless the guest receives a real Wi-Fi device.",
  "The Network Center can refresh, inspect firmware handles, and report PCI NIC hardware while also",
  "storing preferred profiles for Auto, Ethernet, Wi-Fi, and Hotspot modes.",
  "SNSX now also exposes its own identity strings: snsx://device/HOSTNAME, snsxnet://HOSTNAME@IP,",
  "and snsx-id://HOSTNAME-MACSUFFIX for browser pages and dashboard routing.",
  "Wi-Fi and hotspot controls are part of Settings and the Network Center UI,",
  "and the wired path now supports DHCP, IPv4, DNS, plain HTTP, and HTTPS through the optional host bridge.",
  "Use netconnect, netdiag, dhcp, ip, dns, http, netmode, autonet, hostname, wifi, and hotspot from the shell."]

def bluetoothDoc : Bytes := textLines [
  "SNSX Bluetooth Center",
  "=====================",
  "SNSX now includes a Bluetooth pairing dashboard and saved-device store.",
  "On the current Apple Silicon VirtualBox target there is no Bluetooth controller",
  "exposed to the guest firmware, so nearby device discovery and live pairing stay unavailable.",
  "Saved pairings are kept so the UI and settings model are ready for future hardware-backed builds."]

def browserDoc : Bytes := textLines [
  "SNSX Browser",
  "============",
  "SNSX Browser is the OS browsing shell for local docs, bookmarks, SNSX protocols, diagnostics, and wired web access.",
  "Use snsx://... pages for local system routes, snsxnet://... pages for live network state,",
  "snsxdiag://network for firmware and PCI diagnostics, snsx://store for the package catalog,",
  "and plain http:// URLs for remote text and HTML pages over the current SNSX network stack.",
  "The browser keeps tabs, history, bookmarks, and page snapshots in /downloads.",
  "On VirtualBox, https:// URLs can also flow through the optional SNSX host bridge started with make https-bridge."]

def storeDoc : Bytes := textLines [
  "SNSX App Store",
  "==============",
  "The SNSX App Store manages built-in apps, games, driver packs, and install kits.",
  "Core packages stay installed. Optional kits can be installed or removed from the Store app or shell.",
  "Installed package assets appear under /apps, /games, /drivers, or /kits.",
  "Useful commands: store, pkglist, installpkg ID, removepkg ID."]

def studioDoc : Bytes := textLines [
  "SNSX Code Studio",
  "================",
  "Code Studio manages live project files under /projects.",
  "Use EDIT to change a file, RUN to execute it, and BUILD to compile it.",
  "Execution flows through the optional host bridge started with make dev-bridge.",
  "",
  "Languages available in this build:",
  "- SNSX (.snsx)",
  "- Python (.py)",
  "- JavaScript (.js)",
  "- C (.c)",
  "- C++ (.cpp)",
  "- HTML / CSS source workspaces"]

def devbridgeDoc : Bytes := textLines [
  "SNSX Dev Bridge",
  "===============",
  "The dev bridge lets the SNSX VM call host toolchains over the wired guest link.",
  "",
  "Host commands:",
  "make dev-bridge",
  "make dev-bridge-stop",
  "make dev-bridge-status",
  "",
  "Guest commands:",
  "studio",
  "run [FILE]",
  "build [FILE]"]

def baremetalDoc : Bytes := textLines [
  "SNSX Bare-Metal Install",
  "=======================",
  "SNSX boots as an ARM64 UEFI application. For a real laptop or development board:",
  "1. Prepare a FAT32 USB stick or EFI System Partition.",
  "2. Copy BOOTAA64.EFI to /EFI/BOOT/BOOTAA64.EFI, or write the SNSX ARM64 ISO to removable media.",
  "3. Boot the target in UEFI mode. Disable Secure Boot if the platform rejects unsigned EFI apps.",
  "4. Inside the live SNSX session, open Disk Manager or Installer.",
  "5. Select the writable FAT volume that should carry SNSX boot files.",
  "6. Run INSTALL to place BOOTAA64.EFI, then SAVE to write /SNSX/STATE.BIN.",
  "7. Set that disk first in the firmware boot order if you want SNSX to become the primary OS.",
  "",
  "Current limits:",
  "- SNSX does not yet partition disks automatically.",
  "- Nearby Wi-Fi and Bluetooth discovery still need chipset-specific drivers.",
  "- The App Store now carries the driver-pack framework for those future builds."]

def driversDoc : Bytes := textLines [
  "SNSX Drivers",
  "============",
  "Built-in today:",
  "- Intel 82540EM Ethernet path for VirtualBox-style wired networking work.",
  "",
  "Driver-pack framework available through the SNSX App Store:",
  "- Wi-Fi Driver Lab",
  "- Bluetooth Driver Lab",
  "- Printer Driver Kit",
  "",
  "Real nearby SSID or Bluetooth scanning on bare metal requires actual adapter-specific drivers."]

def protocolsDoc : Bytes := textLines [
  "SNSX Protocols",
  "==============",
  "snsx://device/HOSTNAME      local SNSX node identity",
  "snsx://home                 browser home and bookmarks",
  "snsx://tabs                 browser tab overview",
  "snsx://bookmarks            saved browser bookmarks",
  "snsx://history              recent browser history",
  "snsx://downloads            saved browser snapshots",
  "snsx://studio               Code Studio overview",
  "snsx://preview              text preview of /projects/index.html",
  "snsx://store                local SNSX App Store summary page",
  "snsx://baremetal            bare-metal install guide page",
  "snsx://network              local Network Center summary page",
  "snsx://wireless             Wi-Fi and Bluetooth summary page",
  "snsx://apps                 local app catalog page",
  "snsx://snake                Snake app landing page",
  "snsxdiag://network          firmware and PCI network diagnostics",
  "snsxnet://HOST@IP           live network route identity",
  "snsxnet://status            network status summary page",
  "snsx-id://HOST-MAC          short hardware-linked identity string"]

def snakeDoc : Bytes := textLines [
  "SNSX Snake",
  "==========",
  "Use Arrow keys or WASD to steer.",
  "Press Space to pause.",
  "Press R to restart.",
  "Press ESC to leave the arcade."]

def disksDoc : Bytes := textLines [
  "SNSX Disk Manager",
  "=================",
  "Use the Disk Manager to inspect writable FAT volumes found by UEFI.",
  "It shows whether a volume contains BOOTAA64.EFI and STATE.BIN.",
  "USE selects the active SNSX target volume.",
  "Install writes BOOTAA64.EFI to the selected writable disk.",
  "Save writes the live SNSX filesystem snapshot to STATE.BIN."]

def notes : Bytes := textLines [
  "SNSX Notes",
  "==========",
  "This text file can be edited from the live shell."]

def journal : Bytes := textLines [
  "SNSX Journal",
  "============",
  "Use append /home/JOURNAL.TXT your text here",
  "to keep a running boot-session log."]

def demo : Bytes := textLines [
  "SNSX Project Notes",
  "==================",
  "This workspace is bundled to demonstrate directories,",
  "text editing, and file management inside SNSX."]

end Seed

def seedDirectories : List Bytes :=
  [ascii "/docs", ascii "/home", ascii "/projects", ascii "/tmp",
    ascii "/apps", ascii "/games", ascii "/drivers", ascii "/kits"]

def seedFiles : List (Bytes × Bytes) := [
  (ascii "/README.TXT", Seed.readme),
  (ascii "/docs/VBOX.TXT", Seed.vbox),
  (ascii "/docs/QUICKSTART.TXT", Seed.quickstart),
  (ascii "/docs/INSTALL.TXT", Seed.install),
  (ascii "/docs/DESKTOP.TXT", Seed.desktop),
  (ascii "/docs/COMMANDS.TXT", Seed.commands),
  (ascii "/docs/DEVICES.TXT", Seed.devices),
  (ascii "/docs/NETWORK.TXT", Seed.networkDoc),
  (ascii "/docs/BLUETOOTH.TXT", Seed.bluetoothDoc),
  (ascii "/docs/BROWSER.TXT", Seed.browserDoc),
  (ascii "/docs/STORE.TXT", Seed.storeDoc),
  (ascii "/docs/STUDIO.TXT", Seed.studioDoc),
  (ascii "/docs/DEVBRIDGE.TXT", Seed.devbridgeDoc),
  (ascii "/docs/BAREMETAL.TXT", Seed.baremetalDoc),
  (ascii "/docs/DRIVERS.TXT", Seed.driversDoc),
  (ascii "/docs/PROTOCOLS.TXT", Seed.protocolsDoc),
  (ascii "/docs/SNAKE.TXT", Seed.snakeDoc),
  (ascii "/docs/DISKS.TXT", Seed.disksDoc),
  (ascii "/home/WELCOME.TXT", Seed.welcome),
  (ascii "/home/NOTES.TXT", Seed.notes),
  (ascii "/home/JOURNAL.TXT", Seed.journal),
  (ascii "/projects/DEMO.TXT", Seed.demo)]

/-- The calls of `fs_seed`, in order. -/
def seedCalls : List FsOp :=
  seedDirectories.map FsOp.mkdir ++ seedFiles.map fun file => FsOp.write file.1 file.2 .text

def fsSeed (fs : ArmFs) : ArmFs := run fsStep (ArmFs.empty fs.persist) seedCalls

/-- The listing of the seeded table. -/
def seedTable : Table :=
  (seedDirectories.map fun path => ⟨path, .dir, []⟩) ++
    seedFiles.map fun file => ⟨file.1, .text, file.2⟩

section Sizes

theorem length_textLines_cons {l : List Char} {lines : List String} {n : Nat}
    (hline : l.length + 1 ≤ n) (h : (textLines lines).length ≤ n - (l.length + 1)) :
    (textLines (String.ofList l :: lines)).length ≤ n := by
  have hlen : (textLines (String.ofList l :: lines)).length =
      l.length + 1 + (textLines lines).length := by
    simp only [textLines, List.flatMap_cons, List.length_append, ascii, String.toList_ofList,
      List.length_map, List.length_singleton]
  rw [hlen]
  exact (Nat.add_le_add_left h _).trans (le_of_eq (Nat.add_sub_cancel' hline))

theorem seedFiles_fit : ∀ file ∈ seedFiles, file.2.length ≤ fsMaxFileSize := by
  intro file hfile
  simp only [seedFiles, List.mem_cons, List.not_mem_nil, or_false] at hfile
  rcases hfile with rfl | rfl | rfl | rfl | rfl | rfl | rfl | rfl | rfl | rfl | rfl | rfl | rfl | rfl | rfl | rfl | rfl | rfl | rfl | rfl | rfl | rfl
  all_goals
    repeat (apply length_textLines_cons; decide)
    exact Nat.zero_le _

end Sizes

section Table

/-- The call that stores a node. -/
def loadCall (node : FileNode ArmFsType) : FsOp :=
  if node.type = .dir then .mkdir node.path else .write node.path node.bytes .text

theorem tableStep_loadCall (table : Table) (node : FileNode ArmFsType) :
    tableStep table (loadCall node) = loadNode table node := by
  rw [loadCall, loadNode]
  split <;> rfl

theorem run_loadCall (table nodes : Table) :
    run tableStep table (nodes.map loadCall) = nodes.foldl loadNode table := by
  induction nodes generalizing table with
  | nil => rfl
  | cons node nodes ih =>
    rw [List.map_cons, run_cons, tableStep_loadCall, List.foldl_cons]
    exact ih _

theorem loadCall_fits {nodes : Table} (hpaths : ∀ node ∈ nodes, NulFree node.path)
    (table : Table) : Guarded tableStep OpFits table (nodes.map loadCall) := by
  induction nodes generalizing table with
  | nil => exact trivial
  | cons node nodes ih =>
    refine ⟨?_, ih (fun n hn => hpaths n (by simp [hn])) _⟩
    rw [loadCall]
    split
    · exact hpaths node (by simp)
    · exact hpaths node (by simp)

theorem seedCalls_eq : seedCalls = seedTable.map loadCall := by
  rw [seedTable, List.map_append, List.map_map, List.map_map]
  rfl

theorem seedTable_paths :
    (seedTable.map FileNode.path).Nodup ∧ (∀ node ∈ seedTable, NulFree node.path) ∧
      (∀ node ∈ seedTable, node.path.length < fsPathMax) ∧
      (∀ node ∈ seedTable, node.path.head? = some slash) ∧
      (∀ node ∈ seedTable, node.path ≠ [slash]) := by
  decide +kernel

theorem seedTable_parentsFirst : ParentsFirst seedTable := by decide +kernel

theorem seedTable_loadable : ∀ node ∈ seedTable, Loadable node := by
  intro node hnode
  obtain ⟨-, -, hfits, habs, hroot⟩ := seedTable_paths
  refine ⟨habs node hnode, hfits node hnode, ?_, fun hdir => ⟨?_, hroot node hnode⟩⟩
  · rcases List.mem_append.mp hnode with hnode | hnode
    · obtain ⟨path, -, rfl⟩ := List.mem_map.mp hnode
      exact Nat.zero_le _
    · obtain ⟨file, hfile, rfl⟩ := List.mem_map.mp hnode
      exact seedFiles_fit file hfile
  · rcases List.mem_append.mp hnode with hnode | hnode
    · obtain ⟨path, -, rfl⟩ := List.mem_map.mp hnode
      rfl
    · obtain ⟨file, -, rfl⟩ := List.mem_map.mp hnode
      cases hdir

/-- Nothing of the seed is refused. -/
theorem run_seedCalls : run tableStep [] seedCalls = seedTable := by
  have hnodup := seedTable_paths.1
  have hcons : Consistent FileNode.path ([] ++ seedTable) := Consistent.of_nodup hnodup
  rw [seedCalls_eq, run_loadCall,
    foldl_loadNode_eq hcons (by decide) seedTable_loadable]
  exact acceptAll_of_orderReady [] seedTable hnodup seedTable_parentsFirst

theorem fsSeed_nodes (fs : ArmFs) : (fsSeed fs).nodes = seedTable ∧ EntriesOk (fsSeed fs) := by
  have hempty : EntriesOk (ArmFs.empty fs.persist) := fun _ hm => absurd hm List.not_mem_nil
  have hfits : Guarded tableStep OpFits (ArmFs.empty fs.persist).nodes seedCalls := by
    rw [seedCalls_eq]
    exact loadCall_fits seedTable_paths.2.1 _
  obtain ⟨hnodes, hok⟩ := run_refines hempty hfits
  exact ⟨hnodes.trans run_seedCalls, hok⟩

end Table

end SnsxOS.Arm64
