import SnsxOS.Arm64.StateFiles
import SnsxOS.Arm64.Wireless
import SnsxOS.Framework.Writer

/-!
# The profile files

`wireless_profiles_save` writes one line for each used profile, its fields separated by bars, and
`wireless_profiles_load` cuts each line at its first bars. A field that holds a bar itself is cut
there and what is behind it moves into the next field; without such a field the used profiles come
back in their order.
-/

namespace SnsxOS.Arm64

open Framework

def bar : UInt8 := 124

def wirelessBufferMax : Nat := 1024

/-- The texts that are appended for a used Wi-Fi profile. -/
def wifiTexts (profile : WifiProfile) : List Bytes :=
  [profile.ssid, [bar], profile.password, [bar], flagText profile.autoConnect, [bar],
    flagText profile.remembered, [newline]]

/-- The texts that are appended for a used Bluetooth device. -/
def bluetoothTexts (device : BluetoothDevice) : List Bytes :=
  [device.name, [bar], device.kind, [bar], flagText device.paired, [newline]]

/-- A loop of `wireless_profiles_save` on its buffer. -/
def profileBuffer {ν : Type*} (used : ν → Bool) (texts : ν → List Bytes)
    (buffer : Buffer wirelessBufferMax) (rows : List ν) : Option (Buffer wirelessBufferMax) :=
  buffer.empty.strcatAll ((rows.filter used).flatMap texts)

/-- The string in the buffer behind the loop. -/
def profileText {ν : Type*} (used : ν → Bool) (texts : ν → List Bytes) (rows : List ν) : Bytes :=
  ((rows.filter used).flatMap texts).flatten

def wifiText (wifi : List WifiProfile) : Bytes := profileText WifiProfile.used wifiTexts wifi

def bluetoothText (bluetooth : List BluetoothDevice) : Bytes :=
  profileText BluetoothDevice.used bluetoothTexts bluetooth

/-- The files that `wireless_profiles_save` writes, each with the answer of `fs_write`. -/
def saveWifi (s : WirelessProfiles) (fs : ArmFs) : Bool × ArmFs :=
  fsWrite fs wifiPath (wifiText s.wifi) .text

def saveBluetooth (s : WirelessProfiles) (fs : ArmFs) : Bool × ArmFs :=
  fsWrite fs bluetoothPath (bluetoothText s.bluetooth) .text

/-- `wireless_profiles_save` -/
def wirelessProfilesSave (s : WirelessProfiles) (fs : ArmFs) : ArmFs :=
  (saveBluetooth s (saveWifi s fs).2).2

/-! ## Fields -/

/-- Printable characters that fit a field of `n`. -/
structure FieldText (n : Nat) (text : Bytes) : Prop where
  printable : ∀ ch ∈ text, isprint ch = true
  fits : text.length < n

theorem FieldText.of_prompted (prompted : Prompted) {n : Nat} (hn : 0 < n) :
    FieldText n (strcopyLimit prompted.bytes n) :=
  ⟨fun ch hch => prompted.printable ch (List.mem_of_mem_take hch),
    length_strcopyLimit_lt prompted.bytes hn⟩

theorem not_mem_of_printable {c : UInt8} (hc : isprint c = false) {text : Bytes}
    (h : ∀ ch ∈ text, isprint ch = true) : c ∉ text := by
  intro hmem
  rw [h c hmem] at hc
  cases hc

theorem strcopyLimit_ne_nil {text : Bytes} (h : text ≠ []) : strcopyLimit text 32 ≠ [] := by
  rw [strcopyLimit, Ne, List.take_eq_nil_iff, not_or]
  exact ⟨by decide, h⟩

structure ProfileOk (profile : WifiProfile) : Prop where
  ssid_ne : profile.ssid ≠ []
  ssid : FieldText 32 profile.ssid
  password : FieldText 64 profile.password

structure DeviceOk (device : BluetoothDevice) : Prop where
  name_ne : device.name ≠ []
  name : FieldText 32 device.name
  kind : FieldText 24 device.kind

/-- The tables of the dashboards. -/
structure WirelessOk (s : WirelessProfiles) : Prop where
  wifi_length : s.wifi.length = wifiProfileMax
  wifi : ∀ profile ∈ s.wifi, profile.used = true → ProfileOk profile
  bluetooth_length : s.bluetooth.length = bluetoothDeviceMax
  bluetooth : ∀ device ∈ s.bluetooth, device.used = true → DeviceOk device

theorem forall_mem_set {ν : Type*} {P : ν → Prop} {rows : List ν} (h : ∀ row ∈ rows, P row)
    (slot : Nat) {row : ν} (hrow : P row) : ∀ other ∈ rows.set slot row, P other := by
  intro other hother
  rcases List.mem_or_eq_of_mem_set hother with hmem | rfl
  · exact h other hmem
  · exact hrow

theorem forall_mem_modify {ν : Type*} {P : ν → Prop} {rows : List ν} (h : ∀ row ∈ rows, P row)
    (slot : Nat) {f : ν → ν} (hf : ∀ row, P row → P (f row)) :
    ∀ other ∈ rows.modify slot f, P other := by
  intro other hother
  obtain ⟨i, hi⟩ := List.mem_iff_getElem?.mp hother
  rw [List.getElem?_modify] at hi
  obtain ⟨row, hrow, rfl⟩ := Option.map_eq_some_iff.mp hi
  have hold := h row (List.mem_of_getElem? hrow)
  split
  · exact hf row hold
  · exact hold

theorem wirelessOk_start : WirelessOk wirelessStart := by
  refine ⟨rfl, fun profile hprofile hused => ?_, rfl, fun device hdevice hused => ?_⟩
  · rw [List.eq_of_mem_replicate hprofile] at hused
    cases hused
  · rw [List.eq_of_mem_replicate hdevice] at hused
    cases hused

theorem length_wifiStep (wifi : List WifiProfile) (op : WirelessOp) :
    (wifiStep wifi op).length = wifi.length := by
  cases op with
  | addWifi name password =>
    rw [wifiStep]
    split
    · rfl
    · split
      · exact List.length_set
      · rfl
  | connectWifi selected password =>
    rw [wifiStep]
    split
    · exact List.length_modify ..
    · rfl
  | forgetWifi selected =>
    rw [wifiStep]
    split
    · exact List.length_set
    · rfl
  | pairBluetooth name kind => rfl
  | unpairBluetooth selected => rfl

theorem wifiStep_ok {wifi : List WifiProfile}
    (h : ∀ profile ∈ wifi, profile.used = true → ProfileOk profile) (op : WirelessOp) :
    ∀ profile ∈ wifiStep wifi op, profile.used = true → ProfileOk profile := by
  cases op with
  | addWifi name password =>
    rw [wifiStep]
    split
    · exact h
    · rename_i hname
      split
      · exact forall_mem_set h _ fun _ => ⟨strcopyLimit_ne_nil hname,
          .of_prompted name (by decide), .of_prompted password (by decide)⟩
      · exact h
  | connectWifi selected password =>
    rw [wifiStep]
    split
    · refine forall_mem_modify h _ fun profile hok => ?_
      split
      · exact fun hused => ⟨(hok hused).ssid_ne, (hok hused).ssid,
          .of_prompted password (by decide)⟩
      · exact hok
    · exact h
  | forgetWifi selected =>
    rw [wifiStep]
    split
    · exact forall_mem_set h _ fun hused => by cases hused
    · exact h
  | pairBluetooth name kind => exact h
  | unpairBluetooth selected => exact h

theorem length_bluetoothStep (bluetooth : List BluetoothDevice) (op : WirelessOp) :
    (bluetoothStep bluetooth op).length = bluetooth.length := by
  cases op with
  | pairBluetooth name kind =>
    rw [bluetoothStep]
    split
    · rfl
    · split
      · exact List.length_set
      · rfl
  | unpairBluetooth selected =>
    rw [bluetoothStep]
    split
    · exact List.length_set
    · rfl
  | addWifi name password => rfl
  | connectWifi selected password => rfl
  | forgetWifi selected => rfl

theorem bluetoothStep_ok {bluetooth : List BluetoothDevice}
    (h : ∀ device ∈ bluetooth, device.used = true → DeviceOk device) (op : WirelessOp) :
    ∀ device ∈ bluetoothStep bluetooth op, device.used = true → DeviceOk device := by
  cases op with
  | pairBluetooth name kind =>
    rw [bluetoothStep]
    split
    · exact h
    · rename_i hboth
      split
      · exact forall_mem_set h _ fun _ => ⟨strcopyLimit_ne_nil fun hname => hboth (.inl hname),
          .of_prompted name (by decide), .of_prompted kind (by decide)⟩
      · exact h
  | unpairBluetooth selected =>
    rw [bluetoothStep]
    split
    · exact forall_mem_set h _ fun hused => by cases hused
    · exact h
  | addWifi name password => exact h
  | connectWifi selected password => exact h
  | forgetWifi selected => exact h

theorem WirelessOk.step (s : WirelessProfiles) (op : WirelessOp) (h : WirelessOk s) :
    WirelessOk (wirelessStep s op) where
  wifi_length := (length_wifiStep s.wifi op).trans h.wifi_length
  wifi := wifiStep_ok h.wifi op
  bluetooth_length := (length_bluetoothStep s.bluetooth op).trans h.bluetooth_length
  bluetooth := bluetoothStep_ok h.bluetooth op

theorem wirelessOk_run (ops : List WirelessOp) : WirelessOk (run wirelessStep wirelessStart ops) :=
  run_invariant WirelessOk.step wirelessOk_start ops

/-! ## Lines -/

theorem cutAtBar_append {front : Bytes} (h : bar ∉ front) (rest : Bytes) :
    cutAtBar (front ++ bar :: rest) = some (front, rest) := by
  have hscan : (front ++ bar :: rest).dropWhile (· != 124) = bar :: rest :=
    dropWhile_append_sep h rest
  have hdrop : strchr (front ++ bar :: rest) 124 = some (bar :: rest) := by rw [strchr, hscan]
  have htake : (front ++ bar :: rest).takeWhile (· != 124) = front := takeWhile_append_sep h rest
  rw [cutAtBar, hdrop, htake]

/-- No field in front of a bar holds one. -/
theorem not_mem_of_cutAtBar {text front rest : Bytes} (h : cutAtBar text = some (front, rest)) :
    bar ∉ front := by
  rw [cutAtBar] at h
  split at h
  · obtain ⟨rfl, -⟩ := Prod.mk.inj (Option.some.inj h)
    intro hmem
    have hne := List.mem_takeWhile_imp hmem
    simp [bar] at hne
  · cases h

/-- The line of a profile in the file. -/
def wifiLine (profile : WifiProfile) : Bytes :=
  profile.ssid ++ bar :: (profile.password ++ bar :: (flagText profile.autoConnect ++
    bar :: flagText profile.remembered))

def bluetoothLine (device : BluetoothDevice) : Bytes :=
  device.name ++ bar :: (device.kind ++ bar :: flagText device.paired)

section Rows

variable {ν : Type*} {used : ν → Bool} {texts : ν → List Bytes} {line : ν → Bytes}
  {ofLine : Bytes → ν} {zero : ν} {rows : List ν} {rowMax m : Nat}

theorem profileText_eq (hline : ∀ row, (texts row).flatten = line row ++ [newline])
    (rows : List ν) :
    profileText used texts rows = unlines newline ((rows.filter used).map line) := by
  rw [profileText, unlines]
  generalize rows.filter used = saved
  induction saved with
  | nil => rfl
  | cons row saved ih =>
    rw [List.flatMap_cons, List.flatten_append, hline, ih, List.map_cons, List.flatMap_cons]

/-- The lines of the used rows give them back, one after another. -/
theorem filter_rowsOfLines (hzero : used zero = false) (hlength : rows.length ≤ rowMax)
    (hlines : ∀ row ∈ rows, used row = true → newline ∉ line row ∧ ofLine (line row) = row) :
    (rowsOfLines rowMax ofLine zero
      (some (unlines newline ((rows.filter used).map line)))).filter used = rows.filter used := by
  have hsaved : ∀ row ∈ rows.filter used, newline ∉ line row ∧ ofLine (line row) = row :=
    fun row hrow => hlines row (List.mem_of_mem_filter hrow) (List.of_mem_filter hrow)
  have hread : linesOf newline (unlines newline ((rows.filter used).map line)) =
      (rows.filter used).map line := by
    apply linesOf_unlines
    intro text htext
    obtain ⟨row, hrow, rfl⟩ := List.mem_map.mp htext
    exact (hsaved row hrow).1
  have hshort : ((rows.filter used).map line).length ≤ rowMax := by
    rw [List.length_map]
    exact (List.length_filter_le used rows).trans hlength
  have hsame : ((rows.filter used).map line).map ofLine = rows.filter used := by
    rw [List.map_map]
    exact (List.map_congr_left fun row hrow => (hsaved row hrow).2).trans (List.map_id' _)
  have hblank : ∀ n, (List.replicate n zero).filter used = [] := by
    intro n
    rw [List.filter_replicate_of_neg (by simp [hzero])]
  simp only [rowsOfLines, Option.map_some, Option.getD_some, hread,
    List.take_of_length_le hshort, hsame, List.filter_append, hblank, List.append_nil,
    List.filter_filter, Bool.and_self]

theorem forall_rowsOfLines {P : ν → Prop} (hline : ∀ text, P (ofLine text)) (hzero : P zero)
    (text : Option Bytes) : ∀ row ∈ rowsOfLines rowMax ofLine zero text, P row := by
  intro row hrow
  rw [rowsOfLines] at hrow
  rcases List.mem_append.mp hrow with hrow | hrow
  · obtain ⟨read, -, rfl⟩ := List.mem_map.mp hrow
    exact hline read
  · rw [List.eq_of_mem_replicate hrow]
    exact hzero

theorem length_profileText_le
    (hlength : ∀ row ∈ rows, used row = true → (texts row).flatten.length ≤ m) :
    (profileText used texts rows).length ≤ rows.length * m := by
  rw [profileText]
  induction rows with
  | nil => simp
  | cons row rows ih =>
    have hrest := ih fun other h => hlength other (List.mem_cons_of_mem _ h)
    rw [List.length_cons, Nat.succ_mul, List.filter_cons]
    split
    · rename_i hused
      have hrow := hlength row List.mem_cons_self hused
      rw [List.flatMap_cons, List.flatten_append, List.length_append]
      omega
    · omega

theorem profileText_nulFree
    (hnul : ∀ row ∈ rows, used row = true → ∀ text ∈ texts row, NulFree text) :
    NulFree (profileText used texts rows) := by
  intro hzero
  obtain ⟨text, htext, hmem⟩ := List.mem_flatten.mp hzero
  obtain ⟨row, hrow, htext⟩ := List.mem_flatMap.mp htext
  exact hnul row (List.mem_of_mem_filter hrow) (List.of_mem_filter hrow) text htext hmem

/-- All texts of the used rows fit the buffer. -/
theorem profileBuffer_str
    (hnul : ∀ row ∈ rows, used row = true → ∀ text ∈ texts row, NulFree text)
    (hfit : (profileText used texts rows).length + 1 ≤ wirelessBufferMax)
    (buffer : Buffer wirelessBufferMax) :
    ∃ b, profileBuffer used texts buffer rows = some b ∧ b.str = profileText used texts rows := by
  have hempty := buffer.str_empty (by decide)
  have hplain : ∀ text ∈ (rows.filter used).flatMap texts, NulFree text := by
    intro text htext
    obtain ⟨row, hrow, htext⟩ := List.mem_flatMap.mp htext
    exact hnul row (List.mem_of_mem_filter hrow) (List.of_mem_filter hrow) text htext
  have hroom : buffer.empty.str.length + ((rows.filter used).flatMap texts).flatten.length + 1 ≤
      wirelessBufferMax := by
    rw [hempty, List.length_nil, Nat.zero_add]
    exact hfit
  obtain ⟨b, hrun, hb⟩ := buffer.empty.strcatAll_str hplain hroom
  refine ⟨b, hrun, ?_⟩
  rw [hb, hempty, List.nil_append, profileText]

end Rows

section Profile

variable {profile : WifiProfile} {device : BluetoothDevice}

theorem flatten_wifiTexts (profile : WifiProfile) :
    (wifiTexts profile).flatten = wifiLine profile ++ [newline] := by
  simp [wifiTexts, wifiLine]

theorem flatten_bluetoothTexts (device : BluetoothDevice) :
    (bluetoothTexts device).flatten = bluetoothLine device ++ [newline] := by
  simp [bluetoothTexts, bluetoothLine]

theorem flagText_plain (flag : Bool) :
    NulFree (flagText flag) ∧ newline ∉ flagText flag ∧ bar ∉ flagText flag ∧
      (flagText flag).length = 1 ∧ (atoi (flagText flag) != 0) = flag := by
  cases flag <;> decide

theorem wifiTexts_nulFree (h : ProfileOk profile) : ∀ text ∈ wifiTexts profile, NulFree text := by
  have hbar : NulFree [bar] := by decide
  have hnewline : NulFree [newline] := by decide
  simp only [wifiTexts, List.forall_mem_cons]
  exact ⟨not_mem_of_printable rfl h.ssid.printable, hbar,
    not_mem_of_printable rfl h.password.printable, hbar, (flagText_plain _).1, hbar,
    (flagText_plain _).1, hnewline, List.forall_mem_nil _⟩

theorem bluetoothTexts_nulFree (h : DeviceOk device) :
    ∀ text ∈ bluetoothTexts device, NulFree text := by
  have hbar : NulFree [bar] := by decide
  have hnewline : NulFree [newline] := by decide
  simp only [bluetoothTexts, List.forall_mem_cons]
  exact ⟨not_mem_of_printable rfl h.name.printable, hbar,
    not_mem_of_printable rfl h.kind.printable, hbar, (flagText_plain _).1, hnewline,
    List.forall_mem_nil _⟩

theorem length_wifiTexts (h : ProfileOk profile) : (wifiTexts profile).flatten.length ≤ 100 := by
  have hssid := h.ssid.fits
  have hpassword := h.password.fits
  have hflag := fun flag => (flagText_plain flag).2.2.2.1
  simp only [flatten_wifiTexts, wifiLine, List.length_append, List.length_cons, List.length_nil,
    hflag]
  omega

theorem length_bluetoothTexts (h : DeviceOk device) :
    (bluetoothTexts device).flatten.length ≤ 58 := by
  have hname := h.name.fits
  have hkind := h.kind.fits
  have hflag := fun flag => (flagText_plain flag).2.2.2.1
  simp only [flatten_bluetoothTexts, bluetoothLine, List.length_append, List.length_cons,
    List.length_nil, hflag]
  omega

theorem newline_not_mem_wifiLine (h : ProfileOk profile) : newline ∉ wifiLine profile := by
  have hssid : newline ∉ profile.ssid := not_mem_of_printable rfl h.ssid.printable
  have hpassword : newline ∉ profile.password := not_mem_of_printable rfl h.password.printable
  have hflag := fun flag => (flagText_plain flag).2.1
  have hbar : newline ≠ bar := by decide
  simp only [wifiLine, List.mem_append, List.mem_cons, not_or]
  exact ⟨hssid, hbar, hpassword, hbar, hflag _, hbar, hflag _⟩

theorem newline_not_mem_bluetoothLine (h : DeviceOk device) : newline ∉ bluetoothLine device := by
  have hname : newline ∉ device.name := not_mem_of_printable rfl h.name.printable
  have hkind : newline ∉ device.kind := not_mem_of_printable rfl h.kind.printable
  have hflag := fun flag => (flagText_plain flag).2.1
  have hbar : newline ≠ bar := by decide
  simp only [bluetoothLine, List.mem_append, List.mem_cons, not_or]
  exact ⟨hname, hbar, hkind, hbar, hflag _⟩

/-- A profile without bars in its fields is read back from its line. -/
theorem wifiProfileOfLine_line (h : ProfileOk profile) (hused : profile.used = true)
    (hssid : bar ∉ profile.ssid) (hpassword : bar ∉ profile.password) :
    wifiProfileOfLine (wifiLine profile) = profile := by
  have hflag := fun flag => (flagText_plain flag).2.2.2.2
  rw [wifiProfileOfLine, wifiLine, cutAtBar_append hssid, Option.bind_some]
  dsimp only
  rw [cutAtBar_append hpassword, Option.bind_some]
  dsimp only
  rw [cutAtBar_append (flagText_plain _).2.2.1, Option.map_some, Option.getD_some]
  have hnamed : (profile.ssid != []) = profile.used := by
    rw [hused]
    exact bne_iff_ne.mpr h.ssid_ne
  simp only [hflag, strcopyLimit_of_lt h.ssid.fits, strcopyLimit_of_lt h.password.fits, hnamed]

theorem bluetoothDeviceOfLine_line (h : DeviceOk device) (hused : device.used = true)
    (hname : bar ∉ device.name) (hkind : bar ∉ device.kind) :
    bluetoothDeviceOfLine (bluetoothLine device) = device := by
  have hflag := fun flag => (flagText_plain flag).2.2.2.2
  rw [bluetoothDeviceOfLine, bluetoothLine, cutAtBar_append hname, Option.bind_some]
  dsimp only
  rw [cutAtBar_append hkind, Option.map_some, Option.getD_some]
  have hnamed : (device.name != []) = device.used := by
    rw [hused]
    exact bne_iff_ne.mpr h.name_ne
  simp only [hflag, strcopyLimit_of_lt h.name.fits, strcopyLimit_of_lt h.kind.fits, hnamed]

/-- Whatever a line says, no bar gets into the fields. -/
theorem bar_not_mem_wifiProfileOfLine (line : Bytes) :
    bar ∉ (wifiProfileOfLine line).ssid ∧ bar ∉ (wifiProfileOfLine line).password := by
  rw [wifiProfileOfLine]
  cases hfirst : cutAtBar line with
  | none => exact ⟨List.not_mem_nil, List.not_mem_nil⟩
  | some first =>
    rw [Option.bind_some]
    cases hsecond : cutAtBar first.2 with
    | none => simp only [hsecond]; exact ⟨List.not_mem_nil, List.not_mem_nil⟩
    | some second =>
      simp only [hsecond, Option.bind_some]
      cases hthird : cutAtBar second.2 with
      | none => exact ⟨List.not_mem_nil, List.not_mem_nil⟩
      | some third =>
        have hssid : bar ∉ first.1 := not_mem_of_cutAtBar hfirst
        have hpassword : bar ∉ second.1 := not_mem_of_cutAtBar hsecond
        exact ⟨fun h => hssid (List.mem_of_mem_take h), fun h => hpassword (List.mem_of_mem_take h)⟩

theorem bar_not_mem_bluetoothDeviceOfLine (line : Bytes) :
    bar ∉ (bluetoothDeviceOfLine line).name ∧ bar ∉ (bluetoothDeviceOfLine line).kind := by
  rw [bluetoothDeviceOfLine]
  cases hfirst : cutAtBar line with
  | none => exact ⟨List.not_mem_nil, List.not_mem_nil⟩
  | some first =>
    rw [Option.bind_some]
    cases hsecond : cutAtBar first.2 with
    | none => simp only [hsecond]; exact ⟨List.not_mem_nil, List.not_mem_nil⟩
    | some second =>
      have hname : bar ∉ first.1 := not_mem_of_cutAtBar hfirst
      have hkind : bar ∉ second.1 := not_mem_of_cutAtBar hsecond
      simp only [hsecond]
      exact ⟨fun h => hname (List.mem_of_mem_take h), fun h => hkind (List.mem_of_mem_take h)⟩

end Profile

/-! ## The files -/

/-- Both loops stay within their buffers and leave the texts there that are written. -/
def StaysWithin (s : WirelessProfiles) : Prop :=
  ∀ buffer,
    (∃ b, profileBuffer WifiProfile.used wifiTexts buffer s.wifi = some b ∧
      b.str = wifiText s.wifi) ∧
    ∃ b, profileBuffer BluetoothDevice.used bluetoothTexts buffer s.bluetooth = some b ∧
      b.str = bluetoothText s.bluetooth

/-- The used profiles are the same, in the same order. -/
structure SameProfiles (s s' : WirelessProfiles) : Prop where
  wifi : s.wifi.filter WifiProfile.used = s'.wifi.filter WifiProfile.used
  bluetooth : s.bluetooth.filter BluetoothDevice.used = s'.bluetooth.filter BluetoothDevice.used

/-- No field of a used profile holds a bar. -/
structure BarFree (s : WirelessProfiles) : Prop where
  wifi : ∀ profile ∈ s.wifi, profile.used = true →
    bar ∉ profile.ssid ∧ bar ∉ profile.password
  bluetooth : ∀ device ∈ s.bluetooth, device.used = true → bar ∉ device.name ∧ bar ∉ device.kind

section Files

variable {s : WirelessProfiles}

theorem length_wifiText (h : WirelessOk s) : (wifiText s.wifi).length ≤ 800 := by
  have hlength := length_profileText_le fun profile hprofile hused =>
    length_wifiTexts (h.wifi profile hprofile hused)
  rw [h.wifi_length] at hlength
  exact hlength

theorem length_bluetoothText (h : WirelessOk s) : (bluetoothText s.bluetooth).length ≤ 464 := by
  have hlength := length_profileText_le fun device hdevice hused =>
    length_bluetoothTexts (h.bluetooth device hdevice hused)
  rw [h.bluetooth_length] at hlength
  exact hlength

theorem staysWithin (h : WirelessOk s) : StaysWithin s := by
  intro buffer
  have hwifi := length_wifiText h
  have hbluetooth := length_bluetoothText h
  refine ⟨profileBuffer_str (fun profile hprofile hused =>
    wifiTexts_nulFree (h.wifi profile hprofile hused)) ?_ buffer,
    profileBuffer_str (fun device hdevice hused =>
      bluetoothTexts_nulFree (h.bluetooth device hdevice hused)) ?_ buffer⟩
  · exact (Nat.add_le_add_right hwifi 1).trans (by decide)
  · exact (Nat.add_le_add_right hbluetooth 1).trans (by decide)

/-- What the loader makes of the two files. -/
theorem wirelessProfilesLoad_save (h : WirelessOk s) {fs : ArmFs}
    (hwifi : (saveWifi s fs).1 = true)
    (hbluetooth : (saveBluetooth s (saveWifi s fs).2).1 = true) :
    wirelessProfilesLoad (wirelessProfilesSave s fs) =
      ⟨rowsOfLines wifiProfileMax wifiProfileOfLine .zero (some (wifiText s.wifi)),
        rowsOfLines bluetoothDeviceMax bluetoothDeviceOfLine .zero
          (some (bluetoothText s.bluetooth))⟩ := by
  have hwifiNul : NulFree (wifiText s.wifi) := profileText_nulFree fun profile hprofile hused =>
    wifiTexts_nulFree (h.wifi profile hprofile hused)
  have hbluetoothNul : NulFree (bluetoothText s.bluetooth) :=
    profileText_nulFree fun device hdevice hused =>
      bluetoothTexts_nulFree (h.bluetooth device hdevice hused)
  -- the second file does not touch the first one
  obtain ⟨first, hfirst, hfirstNode⟩ := fsEntry_fsWrite (by decide) (by decide) hwifi
  have hkept : (fsEntry (saveBluetooth s (saveWifi s fs).2).2 wifiPath).map ArmFsEntry.node =
      (fsEntry (saveWifi s fs).2 wifiPath).map ArmFsEntry.node :=
    fsEntry_fsWrite_of_ne (by decide) (by decide) (by decide)
  rw [show fsEntry (saveWifi s fs).2 wifiPath = some first from hfirst, Option.map_some,
    Option.map_eq_some_iff] at hkept
  obtain ⟨entry, hentry, hnode⟩ := hkept
  obtain ⟨other, hother, hotherNode⟩ := fsEntry_fsWrite (by decide) (by decide) hbluetooth
  have hwifiFile : stateText (wirelessProfilesSave s fs) wifiPath 1024 = some (wifiText s.wifi) :=
    stateText_of_node hentry (hnode.trans hfirstNode) hwifiNul
      ((length_wifiText h).trans_lt (by decide))
  have hbluetoothFile : stateText (wirelessProfilesSave s fs) bluetoothPath 1024 =
      some (bluetoothText s.bluetooth) :=
    stateText_of_node hother hotherNode hbluetoothNul
      ((length_bluetoothText h).trans_lt (by decide))
  rw [wirelessProfilesLoad, hwifiFile, hbluetoothFile]

theorem sameProfiles_of_barFree (h : WirelessOk s) (hbar : BarFree s) {fs : ArmFs}
    (hwifi : (saveWifi s fs).1 = true)
    (hbluetooth : (saveBluetooth s (saveWifi s fs).2).1 = true) :
    SameProfiles (wirelessProfilesLoad (wirelessProfilesSave s fs)) s := by
  rw [wirelessProfilesLoad_save h hwifi hbluetooth]
  constructor
  · rw [wifiText, profileText_eq flatten_wifiTexts]
    apply filter_rowsOfLines rfl h.wifi_length.le
    intro profile hprofile hused
    have hok := h.wifi profile hprofile hused
    obtain ⟨hssid, hpassword⟩ := hbar.wifi profile hprofile hused
    exact ⟨newline_not_mem_wifiLine hok, wifiProfileOfLine_line hok hused hssid hpassword⟩
  · rw [bluetoothText, profileText_eq flatten_bluetoothTexts]
    apply filter_rowsOfLines rfl h.bluetooth_length.le
    intro device hdevice hused
    have hok := h.bluetooth device hdevice hused
    obtain ⟨hname, hkind⟩ := hbar.bluetooth device hdevice hused
    exact ⟨newline_not_mem_bluetoothLine hok, bluetoothDeviceOfLine_line hok hused hname hkind⟩

theorem barFree_of_sameProfiles (h : WirelessOk s) {fs : ArmFs}
    (hwifi : (saveWifi s fs).1 = true)
    (hbluetooth : (saveBluetooth s (saveWifi s fs).2).1 = true)
    (hsame : SameProfiles (wirelessProfilesLoad (wirelessProfilesSave s fs)) s) : BarFree s := by
  rw [wirelessProfilesLoad_save h hwifi hbluetooth] at hsame
  constructor
  · intro profile hprofile hused
    have hmem : profile ∈ s.wifi.filter WifiProfile.used :=
      List.mem_filter.mpr ⟨hprofile, hused⟩
    rw [← hsame.wifi] at hmem
    exact forall_rowsOfLines (P := fun profile : WifiProfile =>
      bar ∉ profile.ssid ∧ bar ∉ profile.password) bar_not_mem_wifiProfileOfLine
      ⟨List.not_mem_nil, List.not_mem_nil⟩ _ profile (List.mem_of_mem_filter hmem)
  · intro device hdevice hused
    have hmem : device ∈ s.bluetooth.filter BluetoothDevice.used :=
      List.mem_filter.mpr ⟨hdevice, hused⟩
    rw [← hsame.bluetooth] at hmem
    exact forall_rowsOfLines (P := fun device : BluetoothDevice =>
      bar ∉ device.name ∧ bar ∉ device.kind) bar_not_mem_bluetoothDeviceOfLine
      ⟨List.not_mem_nil, List.not_mem_nil⟩ _ device (List.mem_of_mem_filter hmem)

end Files

/-- The profiles that any use of the dashboards leaves stay within the buffers, and the files that
were written give them back if and only if no field of a used profile holds a bar. -/
theorem wirelessProfiles_survive_iff (ops : List WirelessOp) (fs : ArmFs)
    (hwifi : (saveWifi (run wirelessStep wirelessStart ops) fs).1 = true)
    (hbluetooth : (saveBluetooth (run wirelessStep wirelessStart ops)
      (saveWifi (run wirelessStep wirelessStart ops) fs).2).1 = true) :
    (StaysWithin (run wirelessStep wirelessStart ops) ∧
      SameProfiles (wirelessProfilesLoad
        (wirelessProfilesSave (run wirelessStep wirelessStart ops) fs))
        (run wirelessStep wirelessStart ops)) ↔
      BarFree (run wirelessStep wirelessStart ops) := by
  have hok := wirelessOk_run ops
  constructor
  · exact fun hsame => barFree_of_sameProfiles hok hwifi hbluetooth hsame.2
  · exact fun hbar => ⟨staysWithin hok, sameProfiles_of_barFree hok hbar hwifi hbluetooth⟩

/-- A network is added whose name is printable. -/
def addNetwork (name : String) (hprintable : (ascii name).all isprint = true)
    (hfits : (ascii name).length < fsPathMax) : WirelessOp :=
  .addWifi ⟨ascii name, List.all_eq_true.mp hprintable, hfits⟩
    ⟨ascii "pass", List.all_eq_true.mp rfl, by decide⟩

/-- In a session with a home directory both files are written. -/
theorem homeSession_writes (s : WirelessProfiles) (h : WirelessOk s) :
    (saveWifi s homeSession).1 = true ∧
      (saveBluetooth s (saveWifi s homeSession).2).1 = true := by
  have hwifi : (wifiText s.wifi).length ≤ fsMaxFileSize := (length_wifiText h).trans (by decide)
  have hbluetooth : (bluetoothText s.bluetooth).length ≤ fsMaxFileSize :=
    (length_bluetoothText h).trans (by decide)
  have hfirst : tableWrite [⟨ascii "/home", .dir, []⟩] wifiPath (wifiText s.wifi) .text =
      (true, [⟨ascii "/home", .dir, []⟩, ⟨wifiPath, .text, wifiText s.wifi⟩]) := by
    rw [tableWrite, if_neg]
    · rfl
    · simpa [wifiPath, slash, ascii] using hwifi
  have hsecond : (tableWrite [⟨ascii "/home", .dir, []⟩, ⟨wifiPath, .text, wifiText s.wifi⟩]
      bluetoothPath (bluetoothText s.bluetooth) .text).1 = true := by
    rw [tableWrite, if_neg]
    · rfl
    · simpa [bluetoothPath, slash, ascii] using hbluetooth
  rw [saveBluetooth, fsWrite_answer, saveWifi, fsWrite_nodes (by decide) (by decide),
    fsWrite_answer, homeSession_nodes, hfirst]
  exact ⟨rfl, hsecond⟩

theorem wirelessProfiles_survive_iff_plain :
    (StaysWithin (run wirelessStep wirelessStart [addNetwork "plain" rfl (by decide)]) ∧
      SameProfiles (wirelessProfilesLoad (wirelessProfilesSave
        (run wirelessStep wirelessStart [addNetwork "plain" rfl (by decide)]) homeSession))
        (run wirelessStep wirelessStart [addNetwork "plain" rfl (by decide)])) ↔
      BarFree (run wirelessStep wirelessStart [addNetwork "plain" rfl (by decide)]) :=
  wirelessProfiles_survive_iff _ homeSession (homeSession_writes _ (wirelessOk_run _)).1
    (homeSession_writes _ (wirelessOk_run _)).2

/-- The name "a|b" comes back as "a". -/
theorem not_wirelessProfiles_survive :
    (saveWifi (run wirelessStep wirelessStart [addNetwork "a|b" rfl (by decide)])
      homeSession).1 = true ∧
    (saveBluetooth (run wirelessStep wirelessStart [addNetwork "a|b" rfl (by decide)])
      (saveWifi (run wirelessStep wirelessStart [addNetwork "a|b" rfl (by decide)])
        homeSession).2).1 = true ∧
    ¬ SameProfiles (wirelessProfilesLoad (wirelessProfilesSave
        (run wirelessStep wirelessStart [addNetwork "a|b" rfl (by decide)]) homeSession))
        (run wirelessStep wirelessStart [addNetwork "a|b" rfl (by decide)]) := by
  have hok := wirelessOk_run [addNetwork "a|b" rfl (by decide)]
  obtain ⟨hwifi, hbluetooth⟩ := homeSession_writes _ hok
  refine ⟨hwifi, hbluetooth, fun h => ?_⟩
  have hsame := h.wifi
  rw [wirelessProfilesLoad_save hok hwifi hbluetooth] at hsame
  revert hsame
  decide +kernel

end SnsxOS.Arm64
