import SnsxOS.Arm64.StateFiles
import SnsxOS.Framework.Writer

/-!
# The preferences file

`desktop_save_config` prints fourteen keyed lines into a buffer, and `desktop_load_config` finds the
key that a line starts with. A key ends with its only equals sign, so a line starts with no key but
its own, whatever its value says.
-/

namespace SnsxOS.Arm64

open Framework

section Keys

variable {σ : Type*}

/-- The values of keyed lines are stored one after another, each by its own key. -/
def storeValues (keys : List (Bytes × (Bytes → σ → σ))) (values : List Bytes) (state : σ) : σ :=
  (keys.zip values).foldl (fun state setting => setting.1.2 setting.2 state) state

/-- The lines of the keys with their values. -/
def keyedLines (keys : List (Bytes × (Bytes → σ → σ))) (values : List Bytes) : List Bytes :=
  (keys.zip values).map fun setting => setting.1.1 ++ setting.2

/-- A key is a name with an equals sign behind it. -/
def IsKey (key : Bytes) : Prop := ∃ name : Bytes, key = name ++ [61] ∧ (61 : UInt8) ∉ name

/-- Of two keys that start one line each is the other. -/
theorem IsKey.eq_of_starts {key key' : Bytes} (h : IsKey key) (h' : IsKey key') {value : Bytes}
    (hstarts : key <+: key' ++ value) : key = key' := by
  obtain ⟨name, rfl, hname⟩ := h
  obtain ⟨name', rfl, hname'⟩ := h'
  obtain ⟨rest, hrest⟩ := hstarts
  have hsame : name ++ 61 :: rest = name' ++ 61 :: value := by simpa using hrest
  have htake := congrArg (List.takeWhile (· != 61)) hsame
  rw [takeWhile_append_sep hname rest, takeWhile_append_sep hname' value] at htake
  rw [htake]

/-- The line of a key sets its value alone. -/
theorem keyedLine_key {keys : List (Bytes × (Bytes → σ → σ))} (hkeys : ∀ key ∈ keys, IsKey key.1)
    (hnodup : (keys.map Prod.fst).Nodup) {key : Bytes × (Bytes → σ → σ)} (hmem : key ∈ keys)
    (value : Bytes) (state : σ) : keyedLine keys state (key.1 ++ value) = key.2 value state := by
  have hfind : keys.find? (fun other => other.1.isPrefixOf (key.1 ++ value)) = some key := by
    cases h : keys.find? (fun other => other.1.isPrefixOf (key.1 ++ value)) with
    | none =>
      have hself := List.find?_eq_none.mp h key hmem
      simp at hself
    | some other =>
      have hother := List.mem_of_find?_eq_some h
      have hstart : other.1 <+: key.1 ++ value := by
        have hfound := List.find?_some h
        exact List.isPrefixOf_iff_prefix.mp hfound
      have hsame := (hkeys other hother).eq_of_starts (hkeys key hmem) hstart
      rw [List.inj_on_of_nodup_map hnodup hother hmem hsame]
  rw [keyedLine, hfind]
  dsimp only
  rw [List.drop_left]

/-- Loading the lines of all keys stores all values. -/
theorem foldl_keyedLines {keys : List (Bytes × (Bytes → σ → σ))}
    (hkeys : ∀ key ∈ keys, IsKey key.1) (hnodup : (keys.map Prod.fst).Nodup)
    (values : List Bytes) (state : σ) :
    (keyedLines keys values).foldl (keyedLine keys) state = storeValues keys values state := by
  have hzip : ∀ setting ∈ keys.zip values, setting.1 ∈ keys :=
    fun setting h => (List.of_mem_zip h).1
  rw [keyedLines, storeValues, List.foldl_map]
  generalize keys.zip values = settings at hzip
  induction settings generalizing state with
  | nil => rfl
  | cons setting settings ih =>
    have hfirst := hzip setting List.mem_cons_self
    rw [List.foldl_cons, List.foldl_cons, keyedLine_key hkeys hnodup hfirst]
    exact ih _ fun other h => hzip other (List.mem_cons_of_mem _ h)

theorem not_mem_keyedLines {keys : List (Bytes × (Bytes → σ → σ))} {values : List Bytes}
    {c : UInt8} (hkeys : ∀ key ∈ keys, c ∉ key.1) (hvalues : ∀ value ∈ values, c ∉ value) :
    ∀ line ∈ keyedLines keys values, c ∉ line := by
  intro line hline
  obtain ⟨setting, hsetting, rfl⟩ := List.mem_map.mp hline
  have hmem := List.of_mem_zip hsetting
  rw [List.mem_append, not_or]
  exact ⟨hkeys _ hmem.1, hvalues _ hmem.2⟩

theorem length_keyedLines_le (keys : List (Bytes × (Bytes → σ → σ))) {values : List Bytes}
    {m : Nat} (hvalues : ∀ value ∈ values, value.length ≤ m) (sep : UInt8) :
    (unlines sep (keyedLines keys values)).length ≤
      (keys.map fun key => key.1.length + 1 + m).sum := by
  rw [length_unlines]
  induction keys generalizing values with
  | nil => simp [keyedLines]
  | cons key keys ih =>
    cases values with
    | nil => simp [keyedLines]
    | cons value values =>
      have hvalue := hvalues value List.mem_cons_self
      have hrest := ih fun value h => hvalues value (List.mem_cons_of_mem _ h)
      simp only [keyedLines, List.zip_cons_cons, List.map_cons, List.sum_cons,
        List.length_append] at hrest ⊢
      omega

end Keys

/-- The values of the lines that `desktop_save_config` prints. -/
def desktopValues (d : Desktop) : List Bytes :=
  [u32ToDec d.theme, flagText d.welcomeSeen, flagText d.autosave, flagText d.pointerTrail,
    flagText d.wifiEnabled, flagText d.bluetoothEnabled, flagText d.networkAutoconnect,
    u32ToDec d.launchCount, u32ToDec d.pointerSpeed, u32ToDec d.networkPreference,
    d.lastApp, d.hostname, d.wifiSsid, d.hotspotName]

theorem desktopText_eq (d : Desktop) :
    desktopText d = unlines newline (keyedLines desktopKeys (desktopValues d)) := rfl

theorem desktopKeys_isKey : ∀ key ∈ desktopKeys, IsKey key.1 := by
  have hkeys : ∀ key ∈ desktopKeys.map Prod.fst,
      key = key.dropLast ++ [61] ∧ (61 : UInt8) ∉ key.dropLast := by
    decide
  intro key hkey
  exact ⟨key.1.dropLast, hkeys key.1 (List.mem_map_of_mem hkey)⟩

theorem desktopKeys_nodup : (desktopKeys.map Prod.fst).Nodup := by
  decide

/-- The texts that `desktop_save_config` appends to its buffer. -/
def desktopTexts (d : Desktop) : List Bytes :=
  [ascii "THEME=", u32ToDec d.theme,
    newline :: ascii "WELCOME=", flagText d.welcomeSeen,
    newline :: ascii "AUTOSAVE=", flagText d.autosave,
    newline :: ascii "POINTERTRAIL=", flagText d.pointerTrail,
    newline :: ascii "WIFIEN=", flagText d.wifiEnabled,
    newline :: ascii "BTEN=", flagText d.bluetoothEnabled,
    newline :: ascii "NETAUTOCONNECT=", flagText d.networkAutoconnect,
    newline :: ascii "LAUNCHES=", u32ToDec d.launchCount,
    newline :: ascii "POINTERSPEED=", u32ToDec d.pointerSpeed,
    newline :: ascii "NETMODE=", u32ToDec d.networkPreference,
    newline :: ascii "LASTAPP=", d.lastApp,
    newline :: ascii "HOSTNAME=", d.hostname,
    newline :: ascii "WIFISSID=", d.wifiSsid,
    newline :: ascii "HOTSPOT=", d.hotspotName,
    [newline]]

def desktopBufferMax : Nat := 640

/-- `char buffer[640]` at the end of `desktop_save_config`. -/
def desktopBuffer (buffer : Buffer desktopBufferMax) (d : Desktop) :
    Option (Buffer desktopBufferMax) :=
  buffer.empty.strcatAll (desktopTexts d)

theorem flatten_desktopTexts (d : Desktop) : (desktopTexts d).flatten = desktopText d := by
  simp [desktopTexts, desktopText, unlines]

/-- A text field that a line of the file can hold. -/
structure SavedText (text : Bytes) : Prop where
  nulFree : NulFree text
  oneLine : newline ∉ text
  fits : text.length < desktopTextMax

/-- The preferences that the program sets. -/
structure Savable (d : Desktop) : Prop where
  theme : d.theme < 4
  speedLow : 1 ≤ d.pointerSpeed
  speedHigh : d.pointerSpeed ≤ 5
  preference : d.networkPreference ≤ 3
  launches : d.launchCount < 0x7FFFFFFF
  lastApp : SavedText d.lastApp
  hostname : SavedText d.hostname
  wifiSsid : SavedText d.wifiSsid
  hotspotName : SavedText d.hotspotName

theorem atoi_flagText (flag : Bool) : (atoi (flagText flag) != 0) = flag := by
  cases flag <;> decide

theorem boundedNumber_u32ToDec {low high : Int32} {value : UInt32}
    (hvalue : 2 * value.toNat < 2 ^ 32) (hlow : low.toInt ≤ value.toNat)
    (hhigh : (value.toNat : Int) ≤ high.toInt) (old : UInt32) :
    boundedNumber low high (u32ToDec value) old = value := by
  have hint : value.toInt32.toInt = value.toNat := BitVec.toInt_eq_toNat_of_lt hvalue
  have hbounds : low ≤ value.toInt32 ∧ value.toInt32 ≤ high := by
    rw [Int32.le_iff_toInt_le, Int32.le_iff_toInt_le, hint]
    exact ⟨hlow, hhigh⟩
  rw [boundedNumber, atoi_u32ToDec, if_pos hbounds]
  simp

theorem flagText_saved (flag : Bool) : SavedText (flagText flag) := by
  cases flag <;> exact ⟨by decide, by decide, by decide⟩

theorem not_mem_of_digits {c : UInt8} {text : Bytes} (htext : ∀ ch ∈ text, isdigit ch = true)
    (hc : isdigit c = false) : c ∉ text := by
  intro hmem
  rw [htext c hmem] at hc
  cases hc

theorem u32ToDec_saved (value : UInt32) : SavedText (u32ToDec value) where
  nulFree := not_mem_of_digits (u32ToDec_digits value) rfl
  oneLine := not_mem_of_digits (u32ToDec_digits value) rfl
  fits := (length_u32ToDec_le (k := 10) (by decide)
    (value.toNat_lt.trans (by decide))).trans_lt (by decide)

section Load

variable {d : Desktop}

theorem desktopValues_saved (hd : Savable d) : ∀ value ∈ desktopValues d, SavedText value := by
  simp only [desktopValues, List.forall_mem_cons]
  exact ⟨u32ToDec_saved _, flagText_saved _, flagText_saved _, flagText_saved _, flagText_saved _,
    flagText_saved _, flagText_saved _, u32ToDec_saved _, u32ToDec_saved _, u32ToDec_saved _,
    hd.lastApp, hd.hostname, hd.wifiSsid, hd.hotspotName, List.forall_mem_nil _⟩

/-- The lines of the file are the ones that were printed. -/
theorem linesOf_desktopText (hd : Savable d) :
    linesOf newline (desktopText d) = keyedLines desktopKeys (desktopValues d) := by
  have hkeys : ∀ key ∈ desktopKeys.map Prod.fst, newline ∉ key := by decide
  rw [desktopText_eq]
  apply linesOf_unlines
  exact not_mem_keyedLines (fun key hkey => hkeys _ (List.mem_map_of_mem hkey))
    fun value hvalue => (desktopValues_saved hd value hvalue).oneLine

theorem desktopText_nulFree (hd : Savable d) : NulFree (desktopText d) := by
  have hkeys : ∀ key ∈ desktopKeys.map Prod.fst, (0 : UInt8) ∉ key := by decide
  have hlines := not_mem_keyedLines (fun key hkey => hkeys _ (List.mem_map_of_mem hkey))
    fun value hvalue => (desktopValues_saved hd value hvalue).nulFree
  rw [desktopText_eq]
  intro hzero
  obtain ⟨line, hline, hmem⟩ := List.mem_flatMap.mp hzero
  rcases List.mem_append.mp hmem with hmem | hmem
  · exact hlines line hline hmem
  · exact absurd (List.mem_singleton.mp hmem) (by decide)

theorem storeValues_desktop (hd : Savable d) (old : Desktop) :
    storeValues desktopKeys (desktopValues d) old = d := by
  have htheme : d.theme.toNat < 4 := UInt32.lt_iff_toNat_lt.mp hd.theme
  have hlow : 1 ≤ d.pointerSpeed.toNat := UInt32.le_iff_toNat_le.mp hd.speedLow
  have hhigh : d.pointerSpeed.toNat ≤ 5 := UInt32.le_iff_toNat_le.mp hd.speedHigh
  have hpreference : d.networkPreference.toNat ≤ 3 := UInt32.le_iff_toNat_le.mp hd.preference
  have htext : ∀ {text : Bytes}, SavedText text → strcopyLimit text desktopTextMax = text :=
    fun h => strcopyLimit_of_lt h.fits
  have hthemeValue : ∀ old, boundedNumber 0 3 (u32ToDec d.theme) old = d.theme :=
    boundedNumber_u32ToDec (by omega) (Int.natCast_nonneg _)
      (Int.ofNat_le.mpr (Nat.le_of_lt_succ htheme))
  have hspeedValue : ∀ old, boundedNumber 1 5 (u32ToDec d.pointerSpeed) old = d.pointerSpeed :=
    boundedNumber_u32ToDec (by omega) (Int.ofNat_le.mpr hlow) (Int.ofNat_le.mpr hhigh)
  have hpreferenceValue : ∀ old,
      boundedNumber 0 3 (u32ToDec d.networkPreference) old = d.networkPreference :=
    boundedNumber_u32ToDec (by omega) (Int.natCast_nonneg _) (Int.ofNat_le.mpr hpreference)
  have hmax : Int32.ofNat (themeCount - 1) = 3 := rfl
  simp only [storeValues, desktopKeys, desktopValues, List.zip_cons_cons, List.zip_nil_left,
    List.foldl_cons, List.foldl_nil, hmax, hthemeValue, hspeedValue, hpreferenceValue,
    atoi_flagText, atoi_u32ToDec, UInt32.toUInt32_toInt32, htext hd.lastApp, htext hd.hostname,
    htext hd.wifiSsid, htext hd.hotspotName]

/-- The buffer has room for every text that the program sets, and to spare. -/
theorem length_desktopText (hd : Savable d) : (desktopText d).length + 1 ≤ desktopBufferMax := by
  have hvalues : ∀ value ∈ desktopValues d, value.length ≤ 31 :=
    fun value hvalue => Nat.le_of_lt_succ (desktopValues_saved hd value hvalue).fits
  have hbound := length_keyedLines_le desktopKeys hvalues newline
  have htotal : (desktopKeys.map fun key => key.1.length + 1 + 31).sum = 575 := rfl
  rw [desktopText_eq, desktopBufferMax]
  omega

theorem desktopBuffer_str (hd : Savable d) (buffer : Buffer desktopBufferMax) :
    ∃ b, desktopBuffer buffer d = some b ∧ b.str = desktopText d := by
  have hempty := buffer.str_empty (by decide)
  have hnul : ∀ text ∈ desktopTexts d, NulFree text := by
    intro text htext
    apply (desktopText_nulFree hd).mono
    rw [← flatten_desktopTexts]
    exact fun c hc => List.mem_flatten_of_mem htext hc
  have hfit : buffer.empty.str.length + (desktopTexts d).flatten.length + 1 ≤ desktopBufferMax := by
    rw [hempty, flatten_desktopTexts, List.length_nil, Nat.zero_add]
    exact length_desktopText hd
  obtain ⟨b, hrun, hb⟩ := buffer.empty.strcatAll_str hnul hfit
  refine ⟨b, hrun, ?_⟩
  rw [hb, hempty, flatten_desktopTexts, List.nil_append]

/-- Loading the file of saved preferences. -/
theorem desktopLoadConfig_file (hd : Savable d) {fs : ArmFs} {entry : ArmFsEntry}
    (hentry : fsEntry fs desktopPath = some entry)
    (hnode : entry.node = ⟨desktopPath, .text, desktopText d⟩) :
    (desktopLoadConfig fs).1 = { d with launchCount := d.launchCount + 1 } := by
  have hlength := length_desktopText hd
  have hfits : (desktopText d).length < 768 := by
    rw [desktopBufferMax] at hlength
    omega
  have htext := stateText_of_node hentry hnode (desktopText_nulFree hd) hfits
  rw [desktopLoadConfig, htext]
  dsimp only
  rw [linesOf_desktopText hd, foldl_keyedLines desktopKeys_isKey desktopKeys_nodup,
    storeValues_desktop hd]

/-- Saving stays within its buffer, and the file that it writes loads as it was, with the launch
counted: at once or from wherever the file has come back. -/
theorem desktopLoadConfig_saveConfig (hd : Savable d) :
    (∀ buffer, ∃ b, desktopBuffer buffer d = some b ∧ b.str = desktopText d) ∧
      (desktopText d).length + 1 ≤ desktopBufferMax ∧
      (∀ fs, (fsWrite fs desktopPath (desktopText d) .text).1 = true →
        (desktopLoadConfig (desktopSaveConfig d fs)).1 =
          { d with launchCount := d.launchCount + 1 }) ∧
      ∀ fs entry, fsEntry fs desktopPath = some entry →
        entry.node = ⟨desktopPath, .text, desktopText d⟩ →
        (desktopLoadConfig fs).1 = { d with launchCount := d.launchCount + 1 } := by
  refine ⟨desktopBuffer_str hd, length_desktopText hd, fun fs hwrite => ?_, fun fs entry =>
    desktopLoadConfig_file hd⟩
  obtain ⟨entry, hentry, hnode⟩ := fsEntry_fsWrite (by decide) (by decide) hwrite
  exact desktopLoadConfig_file hd hentry hnode

end Load

/-- Preferences with fields that look like lines of the file. -/
def keyLikeDesktop : Desktop :=
  { desktopDefault with
    launchCount := 41, lastApp := ascii "THEME=3", hostname := [], wifiSsid := ascii "HOTSPOT=a=b" }

theorem keyLikeDesktop_savable : Savable keyLikeDesktop where
  theme := by decide
  speedLow := by decide
  speedHigh := by decide
  preference := by decide
  launches := by decide
  lastApp := ⟨by decide, by decide, by decide⟩
  hostname := ⟨by decide, by decide, by decide⟩
  wifiSsid := ⟨by decide, by decide, by decide⟩
  hotspotName := ⟨by decide, by decide, by decide⟩

theorem desktopLoadConfig_saveConfig_keyLike :
    (∀ buffer, ∃ b, desktopBuffer buffer keyLikeDesktop = some b ∧
        b.str = desktopText keyLikeDesktop) ∧
      (desktopText keyLikeDesktop).length + 1 ≤ desktopBufferMax ∧
      (∀ fs, (fsWrite fs desktopPath (desktopText keyLikeDesktop) .text).1 = true →
        (desktopLoadConfig (desktopSaveConfig keyLikeDesktop fs)).1 =
          { keyLikeDesktop with launchCount := keyLikeDesktop.launchCount + 1 }) ∧
      ∀ fs entry, fsEntry fs desktopPath = some entry →
        entry.node = ⟨desktopPath, .text, desktopText keyLikeDesktop⟩ →
        (desktopLoadConfig fs).1 =
          { keyLikeDesktop with launchCount := keyLikeDesktop.launchCount + 1 } :=
  desktopLoadConfig_saveConfig keyLikeDesktop_savable

end SnsxOS.Arm64
