import SnsxOS.Arm64.Volumes
import SnsxOS.Framework.Lines
import SnsxOS.Lib.Decimal
import Mathlib.Data.List.Perm.Subperm

/-!
# The state of the browser

Tabs, bookmarks, history and downloads live in `g_browser` and, as a text of keyed lines, in a
file. `browser_state_save` puts the text together in a stack buffer with unchecked `strcat`
calls; `browser_state_load` reads as much of the file as fits its own buffer.
-/

namespace SnsxOS.Arm64

open Framework

def browserAddressMax : Nat := 192

def browserTabMax : Nat := 4

def browserBookmarkMax : Nat := 12

def browserHistoryMax : Nat := 16

def browserDownloadMax : Nat := 12

/-- The size of `buffer` in `browser_state_save` and in `browser_state_load`. -/
def browserBufferSize : Nat := 4096

/-- The used rows of the arrays of `g_browser`. -/
structure BrowserState where
  activeTab : Nat
  tabs : List Bytes
  bookmarks : List Bytes
  history : List Bytes
  downloads : List Bytes
  deriving DecidableEq

structure BrowserSystem where
  browser : BrowserState
  /-- `g_browser_address` -/
  address : Bytes
  fs : ArmFs
  volumes : List Volume
  /-- the states `browser_state_save` was called on, the last one first -/
  saved : List BrowserState

def browserStatePath : Bytes := ascii "/home/.SNSX_BROWSER.TXT"

def browserDefault : BrowserState where
  activeTab := 0
  tabs := [ascii "snsx://home", ascii "snsxnet://status", ascii "snsx://store",
    ascii "https://example.com/"]
  bookmarks := [ascii "snsx://home", ascii "snsxnet://status", ascii "snsx://store",
    ascii "snsx://browser", ascii "http://example.com/", ascii "https://example.com/"]
  history := []
  downloads := []

def browserSetDefaultState (s : BrowserSystem) : BrowserSystem :=
  { s with browser := browserDefault, address := ascii "snsx://home" }

/-- The lines of the file. -/
def browserLines (b : BrowserState) : List Bytes :=
  (ascii "ACTIVE=" ++ u32ToDec (UInt32.ofNat b.activeTab)) ::
    (b.tabs.map (ascii "TAB=" ++ ·) ++ b.bookmarks.map (ascii "BOOKMARK=" ++ ·) ++
      b.history.map (ascii "HISTORY=" ++ ·) ++ b.downloads.map (ascii "DOWNLOAD=" ++ ·))

/-- The string that `browser_state_save` builds. -/
def browserStateText (b : BrowserState) : Bytes := unlines newline (browserLines b)

def browserStateSave (s : BrowserSystem) : BrowserSystem :=
  { s with
    fs := (fsWriteIfChanged s.fs browserStatePath (browserStateText s.browser) .text).2
    saved := s.browser :: s.saved }

/-- A row of an array with `rowMax` rows of `limit` bytes, if there is one left. -/
def appendRow (rowMax limit : Nat) (rows : List Bytes) (row : Bytes) : List Bytes :=
  if rows.length < rowMax then rows ++ [strcopyLimit row limit] else rows

/-- The body of the loop of `browser_state_load`. -/
def browserLoadLine (b : BrowserState) (line : Bytes) : BrowserState :=
  if (ascii "ACTIVE=").isPrefixOf line then
    { b with activeTab := (atoi (line.drop 7)).toInt64.toUInt64.toNat }
  else if (ascii "TAB=").isPrefixOf line then
    { b with tabs := appendRow browserTabMax browserAddressMax b.tabs (line.drop 4) }
  else if (ascii "BOOKMARK=").isPrefixOf line then
    { b with
      bookmarks := appendRow browserBookmarkMax browserAddressMax b.bookmarks (line.drop 9) }
  else if (ascii "HISTORY=").isPrefixOf line then
    { b with history := appendRow browserHistoryMax browserAddressMax b.history (line.drop 8) }
  else if (ascii "DOWNLOAD=").isPrefixOf line then
    { b with downloads := appendRow browserDownloadMax fsPathMax b.downloads (line.drop 9) }
  else b

/-- The loop of `browser_state_load` over a file. -/
def browserParse (content : Bytes) : BrowserState :=
  (linesOf newline (cString (content.take (browserBufferSize - 1)))).foldl browserLoadLine
    ⟨0, [], [], [], []⟩

/-- The last checks of `browser_state_load`. -/
def browserSettle (loaded : BrowserState) : BrowserState :=
  let b := if loaded.tabs.length = 0 then browserDefault else loaded
  if b.tabs.length ≤ b.activeTab then { b with activeTab := 0 } else b

def browserStateLoad (s : BrowserSystem) : BrowserSystem :=
  let s := browserSetDefaultState s
  match fsEntry s.fs browserStatePath with
  | none => browserStateSave s
  | some entry =>
      if entry.type ≠ .text then browserStateSave s
      else
        let loaded := browserParse entry.bytes
        let b := browserSettle loaded
        let s := { s with
          browser := b, address := strcopyLimit (b.tabs.getD b.activeTab []) browserAddressMax }
        if loaded.tabs.length = 0 then browserStateSave s else s

/-- A new first row; the last one is lost when all are in use. -/
def insertRow (rowMax : Nat) (rows : List Bytes) (row : Bytes) : List Bytes :=
  (strcopyLimit row browserAddressMax :: rows).take rowMax

def browserRecordVisit (s : BrowserSystem) (address : Bytes) : BrowserSystem :=
  if address = [] ∨ s.browser.history.head? = some address then s
  else browserStateSave { s with browser := { s.browser with
    history := insertRow browserHistoryMax s.browser.history address } }

/-- The answers are the result and `*added`. -/
def browserToggleBookmark (s : BrowserSystem) (address : Bytes) :
    (Bool × Bool) × BrowserSystem :=
  if address = [] then ((false, false), s)
  else match s.browser.bookmarks.findIdx? (· == address) with
    | some i => ((true, false), browserStateSave { s with browser := { s.browser with
        bookmarks := s.browser.bookmarks.eraseIdx i } })
    | none => ((true, true), browserStateSave { s with browser := { s.browser with
        bookmarks := insertRow browserBookmarkMax s.browser.bookmarks address } })

def snapshotPath (index : Nat) : Bytes :=
  strcopyLimit (ascii "/downloads/PAGE-") fsPathMax ++ u32ToDec (UInt32.ofNat index) ++
    ascii ".TXT"

/-- The loop of `browser_save_page_snapshot` that looks for an unused number. -/
def snapshotIndex (fs : ArmFs) : Nat → Nat → Option Nat
  | 0, _ => none
  | turns + 1, index =>
      if fsFind fs (snapshotPath index) = none then some index
      else snapshotIndex fs turns (index + 1)

/-- The path of the file when the page could be written. `accepted` is the answer of the
firmware to the save that follows. -/
def browserSavePageSnapshot (s : BrowserSystem) (page : Bytes) (accepted : Bool) :
    Option Bytes × BrowserSystem :=
  let fs := (fsMkdir s.fs (ascii "/downloads")).2
  match snapshotIndex fs (fs.entries.length + 1) (s.browser.downloads.length + 1) with
  | none => (none, { s with fs := fs })
  | some index =>
      let path := snapshotPath index
      match fsWrite fs path page .text with
      | (false, fs) => (none, { s with fs := fs })
      | (true, fs) =>
          let downloads := s.browser.downloads
          let s := browserStateSave { s with
            fs := fs
            browser := { s.browser with
              downloads := (if downloads.length < browserDownloadMax then downloads
                else downloads.drop 1) ++ [strcopyLimit path fsPathMax] } }
          let flushed := persistFlushState s.fs s.volumes accepted
          (some path, { s with fs := flushed.1, volumes := flushed.2 })

def browserSyncActiveTab (s : BrowserSystem) : BrowserSystem :=
  let s := if s.browser.tabs.length = 0 then browserSetDefaultState s else s
  let b := if s.browser.tabs.length ≤ s.browser.activeTab then
    { s.browser with activeTab := 0 } else s.browser
  browserStateSave { s with browser := { b with
    tabs := b.tabs.set b.activeTab (strcopyLimit s.address browserAddressMax) } }

def browserActivateTab (s : BrowserSystem) (index : Nat) : BrowserSystem :=
  match s.browser.tabs[index]? with
  | none => s
  | some tab =>
      let s := { s with
        browser := { s.browser with activeTab := index }
        address := strcopyLimit tab browserAddressMax }
      browserStateSave (browserRecordVisit s s.address)

def browserNavigateTo (s : BrowserSystem) (address : Bytes) : BrowserSystem :=
  if address = [] then s
  else
    let s := browserSyncActiveTab { s with address := strcopyLimit address browserAddressMax }
    browserRecordVisit s s.address

def browserOpenTab (s : BrowserSystem) (address : Bytes) : BrowserSystem :=
  if address = [] then s
  else if s.browser.tabs.length < browserTabMax then
    let s := { s with
      browser := { s.browser with
        tabs := s.browser.tabs ++ [strcopyLimit address browserAddressMax]
        activeTab := s.browser.tabs.length }
      address := strcopyLimit address browserAddressMax }
    browserStateSave (browserRecordVisit s s.address)
  else browserNavigateTo s address

/-- What the user does in the browser, and the file operations of other applications. -/
inductive BrowserOp where
  | navigateTo (address : Bytes)
  | openTab (address : Bytes)
  | activateTab (index : Nat)
  | toggleBookmark (address : Bytes)
  | recordVisit (address : Bytes)
  | savePageSnapshot (page : Bytes) (accepted : Bool)
  | fileSystem (op : FsOp)

def browserStep (s : BrowserSystem) : BrowserOp → BrowserSystem
  | .navigateTo address => browserNavigateTo s address
  | .openTab address => browserOpenTab s address
  | .activateTab index => browserActivateTab s index
  | .toggleBookmark address => (browserToggleBookmark s address).2
  | .recordVisit address => browserRecordVisit s address
  | .savePageSnapshot page accepted => (browserSavePageSnapshot s page accepted).2
  | .fileSystem op => { s with fs := fsStep s.fs op }

/-- The browser after `browser_state_load` at boot. -/
def browserBoot (fs : ArmFs) (volumes : List Volume) : BrowserSystem :=
  browserStateLoad ⟨browserDefault, [], fs, volumes, []⟩

section Rows

/-- The text makes one line of the file. -/
def Line (text : Bytes) : Prop := NulFree text ∧ newline ∉ text

instance : DecidablePred Line := fun text =>
  inferInstanceAs (Decidable (NulFree text ∧ newline ∉ text))

/-- The content of a row of `limit` bytes. -/
structure Row (limit : Nat) (row : Bytes) : Prop where
  length_lt : row.length < limit
  line : Line row

variable {limit rowMax : Nat} {row : Bytes} {rows : List Bytes}

theorem Line.mono {text text' : Bytes} (h : Line text) (hsub : text' ⊆ text) : Line text' :=
  ⟨h.1.mono hsub, fun hmem => h.2 (hsub hmem)⟩

theorem Line.append {text text' : Bytes} (h : Line text) (h' : Line text') : Line (text ++ text') := by
  refine ⟨h.1.append h'.1, fun hmem => ?_⟩
  rcases List.mem_append.mp hmem with hmem | hmem
  · exact h.2 hmem
  · exact h'.2 hmem

theorem Line.truncate (h : Line row) (hlimit : 0 < limit) : Row limit (strcopyLimit row limit) :=
  ⟨length_strcopyLimit_lt row hlimit, h.mono (List.take_subset _ _)⟩

end Rows

/-- Every array holds its rows. -/
structure BrowserState.Bounded (b : BrowserState) : Prop where
  tabs_le : b.tabs.length ≤ browserTabMax
  bookmarks_le : b.bookmarks.length ≤ browserBookmarkMax
  history_le : b.history.length ≤ browserHistoryMax
  downloads_le : b.downloads.length ≤ browserDownloadMax
  tabs_row : ∀ row ∈ b.tabs, Row browserAddressMax row
  bookmarks_row : ∀ row ∈ b.bookmarks, Row browserAddressMax row
  history_row : ∀ row ∈ b.history, Row browserAddressMax row
  downloads_row : ∀ row ∈ b.downloads, Row fsPathMax row

/-- What holds of `g_browser` at all times. -/
structure BrowserState.Valid (b : BrowserState) : Prop extends BrowserState.Bounded b where
  activeTab_lt : b.activeTab < b.tabs.length

section RoundTrip

variable {b : BrowserState}

/-- The bytes of the file without its terminator. -/
def browserTextSize (b : BrowserState) : Nat :=
  9 + (b.tabs.map fun row => row.length + 5).sum + (b.bookmarks.map fun row => row.length + 10).sum +
    (b.history.map fun row => row.length + 9).sum + (b.downloads.map fun row => row.length + 10).sum

theorem length_keyed (key : Bytes) (n : Nat) (hkey : key.length + 1 = n) (rows : List Bytes) :
    (unlines newline (rows.map (key ++ ·))).length =
      (rows.map fun row => row.length + n).sum := by
  rw [length_unlines, List.map_map]
  congr 1
  apply List.map_congr_left
  intro row _
  simp only [Function.comp_apply, List.length_append]
  omega

theorem u32ToDec_activeTab (h : b.Valid) : (u32ToDec (UInt32.ofNat b.activeTab)).length = 1 := by
  have hlt := h.activeTab_lt.trans_le h.tabs_le
  rw [browserTabMax] at hlt
  interval_cases b.activeTab <;> rfl

theorem length_browserStateText (h : b.Valid) :
    (browserStateText b).length = browserTextSize b := by
  have htabs := length_keyed (ascii "TAB=") 5 rfl b.tabs
  have hbookmarks := length_keyed (ascii "BOOKMARK=") 10 rfl b.bookmarks
  have hhistory := length_keyed (ascii "HISTORY=") 9 rfl b.history
  have hdownloads := length_keyed (ascii "DOWNLOAD=") 10 rfl b.downloads
  have hactive : (ascii "ACTIVE=" ++ u32ToDec (UInt32.ofNat b.activeTab)).length = 8 := by
    rw [List.length_append, u32ToDec_activeTab h]
    rfl
  rw [browserStateText, browserLines, browserTextSize]
  simp only [unlines_cons, unlines_append, List.length_append, List.length_cons, hactive, htabs,
    hbookmarks, hhistory, hdownloads]
  omega

theorem mem_browserLines {line : Bytes} (h : b.Valid) (hline : line ∈ browserLines b) :
    Line line := by
  simp only [browserLines, List.mem_cons, List.mem_append, List.mem_map] at hline
  rcases hline with rfl | ((⟨row, hrow, rfl⟩ | ⟨row, hrow, rfl⟩) | ⟨row, hrow, rfl⟩) | ⟨row, hrow, rfl⟩
  · have hlt := h.activeTab_lt.trans_le h.tabs_le
    rw [browserTabMax] at hlt
    interval_cases b.activeTab <;> decide
  · exact Line.append (by decide) (h.tabs_row row hrow).line
  · exact Line.append (by decide) (h.bookmarks_row row hrow).line
  · exact Line.append (by decide) (h.history_row row hrow).line
  · exact Line.append (by decide) (h.downloads_row row hrow).line

theorem browserStateText_nulFree (h : b.Valid) : NulFree (browserStateText b) := by
  intro hmem
  obtain ⟨line, hline, hmem⟩ := List.mem_flatMap.mp hmem
  rcases List.mem_append.mp hmem with hmem | hmem
  · exact (mem_browserLines h hline).1 hmem
  · exact absurd (List.mem_singleton.mp hmem) (by decide)

/-- Lines with one key add their rows to one array. -/
theorem foldl_appendRow {rowMax limit : Nat} {rows rows' : List Bytes}
    (hroom : rows.length + rows'.length ≤ rowMax) (hlimit : ∀ row ∈ rows', row.length < limit) :
    rows'.foldl (appendRow rowMax limit) rows = rows ++ rows' := by
  induction rows' generalizing rows with
  | nil => simp
  | cons row rows' ih =>
    rw [List.length_cons] at hroom
    have hrow := hlimit row List.mem_cons_self
    have hrest : rows'.foldl (appendRow rowMax limit) (rows ++ [row]) = rows ++ [row] ++ rows' := by
      apply ih _ fun r hr => hlimit r (List.mem_cons_of_mem row hr)
      rw [List.length_append, List.length_singleton]
      omega
    rw [List.foldl_cons, appendRow, if_pos (by omega), strcopyLimit_of_lt hrow, hrest]
    simp

/-- The lines under one key fill the array that the key stands for. -/
theorem foldl_keyed (key : Bytes) (set : List Bytes → BrowserState) {rowMax limit : Nat}
    (hset : ∀ rows row, browserLoadLine (set rows) (key ++ row) =
      set (appendRow rowMax limit rows row))
    {rows : List Bytes} (hroom : rows.length ≤ rowMax)
    (hlimit : ∀ row ∈ rows, row.length < limit) :
    (rows.map (key ++ ·)).foldl browserLoadLine (set []) = set rows := by
  have hfold : ∀ front, (rows.map (key ++ ·)).foldl browserLoadLine (set front) =
      set (rows.foldl (appendRow rowMax limit) front) := by
    intro front
    rw [List.foldl_map]
    exact List.foldl_hom set hset
  rw [hfold, foldl_appendRow (by simpa using hroom) hlimit, List.nil_append]

theorem browserLoadLine_active (h : b.Valid) :
    browserLoadLine ⟨0, [], [], [], []⟩ (ascii "ACTIVE=" ++ u32ToDec (UInt32.ofNat b.activeTab)) =
      ⟨b.activeTab, [], [], [], []⟩ := by
  have hlt := h.activeTab_lt.trans_le h.tabs_le
  rw [browserTabMax] at hlt
  interval_cases b.activeTab <;> rfl

/-- A text that fits the buffer of the reader gives back the state it was made from. -/
theorem browserParse_text (h : b.Valid) (hfit : browserTextSize b ≤ browserBufferSize - 1) :
    browserParse (browserStateText b) = b := by
  have hlines : linesOf newline (browserStateText b) = browserLines b :=
    linesOf_unlines fun line hline => (mem_browserLines h hline).2
  have htabs := foldl_keyed (ascii "TAB=") (fun rows => ⟨b.activeTab, rows, [], [], []⟩)
    (fun _ _ => rfl) h.tabs_le fun row hrow => (h.tabs_row row hrow).length_lt
  have hbookmarks := foldl_keyed (ascii "BOOKMARK=")
    (fun rows => ⟨b.activeTab, b.tabs, rows, [], []⟩) (fun _ _ => rfl) h.bookmarks_le
    fun row hrow => (h.bookmarks_row row hrow).length_lt
  have hhistory := foldl_keyed (ascii "HISTORY=")
    (fun rows => ⟨b.activeTab, b.tabs, b.bookmarks, rows, []⟩) (fun _ _ => rfl) h.history_le
    fun row hrow => (h.history_row row hrow).length_lt
  have hdownloads := foldl_keyed (ascii "DOWNLOAD=")
    (fun rows => ⟨b.activeTab, b.tabs, b.bookmarks, b.history, rows⟩) (fun _ _ => rfl)
    h.downloads_le fun row hrow => (h.downloads_row row hrow).length_lt
  rw [browserParse, List.take_of_length_le (by rw [length_browserStateText h]; exact hfit),
    cString_of_nulFree (browserStateText_nulFree h), hlines, browserLines, List.foldl_cons,
    browserLoadLine_active h, List.foldl_append, List.foldl_append, List.foldl_append, htabs,
    hbookmarks, hhistory, hdownloads]

/-- A valid state passes the last checks unchanged. -/
theorem BrowserState.Valid.settle (h : b.Valid) : browserSettle b = b := by
  have htabs : ¬ b.tabs.length = 0 := by
    have hlt := h.activeTab_lt
    omega
  rw [browserSettle, if_neg htabs]
  exact if_neg (not_le.mpr h.activeTab_lt)

/-- The save stays in its buffer, and a load of the file that holds its text restores the
state. -/
def SavesAndLoads (b : BrowserState) : Prop :=
  (browserStateText b).length + 1 ≤ browserBufferSize ∧
    ∀ (s : BrowserSystem) (entry : ArmFsEntry), fsEntry s.fs browserStatePath = some entry →
      entry.type = .text → entry.bytes = browserStateText b → (browserStateLoad s).browser = b

theorem savesAndLoads_iff (h : b.Valid) :
    SavesAndLoads b ↔ browserTextSize b < browserBufferSize := by
  have hlength := length_browserStateText h
  constructor
  · rintro ⟨hfit, -⟩
    omega
  · intro hfit
    refine ⟨by omega, fun s entry hentry htype hbytes => ?_⟩
    have hparse : browserParse entry.bytes = b := by
      rw [hbytes]
      exact browserParse_text h (by omega)
    have htabs : ¬ b.tabs.length = 0 := by
      have hlt := h.activeTab_lt
      omega
    rw [browserStateLoad]
    simp only [browserSetDefaultState, hentry, htype, hparse, htabs, ne_eq, not_true_eq_false,
      if_false, h.settle]

end RoundTrip

section Invariant

variable {s : BrowserSystem}

/-- The state is valid, and so was every state that was saved. -/
structure BrowserSystem.Valid (s : BrowserSystem) : Prop where
  browser : s.browser.Valid
  address : Row browserAddressMax s.address
  saved : ∀ b ∈ s.saved, b.Valid

theorem BrowserSystem.Valid.files (h : s.Valid) (fs : ArmFs) (volumes : List Volume) :
    BrowserSystem.Valid { s with fs := fs, volumes := volumes } := ⟨h.browser, h.address, h.saved⟩

theorem insertRow_le (rowMax : Nat) (rows : List Bytes) (row : Bytes) :
    (insertRow rowMax rows row).length ≤ rowMax := by
  rw [insertRow, List.length_take]
  exact min_le_left _ _

theorem mem_insertRow {rowMax : Nat} {rows : List Bytes} {row row' : Bytes} (hrow : Line row)
    (hrows : ∀ r ∈ rows, Row browserAddressMax r) (h : row' ∈ insertRow rowMax rows row) :
    Row browserAddressMax row' := by
  rcases List.mem_cons.mp (List.mem_of_mem_take h) with rfl | h
  · exact hrow.truncate (by decide)
  · exact hrows row' h

theorem browserStateSave_valid (h : s.Valid) : (browserStateSave s).Valid := by
  refine ⟨h.browser, h.address, fun b hb => ?_⟩
  rcases List.mem_cons.mp hb with rfl | hb
  · exact h.browser
  · exact h.saved b hb

theorem browserRecordVisit_valid (h : s.Valid) {address : Bytes} (haddress : Line address) :
    (browserRecordVisit s address).Valid := by
  rw [browserRecordVisit]
  split
  · exact h
  · apply browserStateSave_valid
    exact ⟨{ h.browser with
      history_le := insertRow_le _ _ _
      history_row := fun row => mem_insertRow haddress h.browser.history_row }, h.address, h.saved⟩

theorem browserToggleBookmark_valid (h : s.Valid) {address : Bytes} (haddress : Line address) :
    (browserToggleBookmark s address).2.Valid := by
  rw [browserToggleBookmark]
  split
  · exact h
  · cases s.browser.bookmarks.findIdx? (· == address) with
    | some i =>
      apply browserStateSave_valid
      exact ⟨{ h.browser with
        bookmarks_le := (List.eraseIdx_sublist _ _).length_le.trans h.browser.bookmarks_le
        bookmarks_row := fun row hrow =>
          h.browser.bookmarks_row row (List.mem_of_mem_eraseIdx hrow) }, h.address, h.saved⟩
    | none =>
      apply browserStateSave_valid
      exact ⟨{ h.browser with
        bookmarks_le := insertRow_le _ _ _
        bookmarks_row := fun row => mem_insertRow haddress h.browser.bookmarks_row },
        h.address, h.saved⟩

theorem browserActivateTab_valid (h : s.Valid) (index : Nat) :
    (browserActivateTab s index).Valid := by
  rw [browserActivateTab]
  cases htab : s.browser.tabs[index]? with
  | none => exact h
  | some tab =>
    have hmem := List.mem_of_getElem? htab
    have hrow := h.browser.tabs_row tab hmem
    have hlt : index < s.browser.tabs.length := (List.getElem?_eq_some_iff.mp htab).1
    have haddress : Row browserAddressMax (strcopyLimit tab browserAddressMax) :=
      hrow.line.truncate (by decide)
    apply browserStateSave_valid
    refine browserRecordVisit_valid ?_ haddress.line
    exact ⟨{ h.browser with activeTab_lt := hlt }, haddress, h.saved⟩

theorem browserSyncActiveTab_valid (h : s.Valid) : (browserSyncActiveTab s).Valid := by
  have hactive := h.browser.activeTab_lt
  have htabs : ¬ s.browser.tabs.length = 0 := by omega
  simp only [browserSyncActiveTab, if_neg htabs, if_neg (not_le.mpr hactive)]
  apply browserStateSave_valid
  refine ⟨{ h.browser with
    activeTab_lt := by simpa using hactive
    tabs_le := by simpa using h.browser.tabs_le
    tabs_row := fun row hrow => ?_ }, h.address, h.saved⟩
  rcases List.mem_or_eq_of_mem_set hrow with hrow | rfl
  · exact h.browser.tabs_row row hrow
  · exact h.address.line.truncate (by decide)

theorem browserNavigateTo_valid (h : s.Valid) {address : Bytes} (haddress : Line address) :
    (browserNavigateTo s address).Valid := by
  rw [browserNavigateTo]
  split
  · exact h
  · have hsync := browserSyncActiveTab_valid
      (s := { s with address := strcopyLimit address browserAddressMax })
      ⟨h.browser, haddress.truncate (by decide), h.saved⟩
    exact browserRecordVisit_valid hsync hsync.address.line

theorem browserOpenTab_valid (h : s.Valid) {address : Bytes} (haddress : Line address) :
    (browserOpenTab s address).Valid := by
  rw [browserOpenTab]
  split
  · exact h
  · split
    · rename_i hroom
      have hrow : Row browserAddressMax (strcopyLimit address browserAddressMax) :=
        haddress.truncate (by decide)
      apply browserStateSave_valid
      refine browserRecordVisit_valid ?_ hrow.line
      refine ⟨{ h.browser with
        activeTab_lt := by simp
        tabs_le := by simpa using hroom
        tabs_row := fun row hmem => ?_ }, hrow, h.saved⟩
      rcases List.mem_append.mp hmem with hmem | hmem
      · exact h.browser.tabs_row row hmem
      · rw [List.mem_singleton.mp hmem]
        exact hrow
    · exact browserNavigateTo_valid h haddress

theorem u32ToDec_line (value : UInt32) : Line (u32ToDec value) := by
  constructor
  · intro hmem
    exact absurd (u32ToDec_digits value 0 hmem) (by decide)
  · intro hmem
    exact absurd (u32ToDec_digits value newline hmem) (by decide)

theorem snapshotPath_line (index : Nat) : Line (snapshotPath index) :=
  (Line.append (by decide) (u32ToDec_line _)).append (by decide)

theorem snapshotPath_inj {i j : Nat} (hi : i < 2 ^ 32) (hj : j < 2 ^ 32)
    (h : snapshotPath i = snapshotPath j) : i = j := by
  have hdec := u32ToDec_injective (List.append_cancel_left (List.append_cancel_right h))
  have hnat := congrArg UInt32.toNat hdec
  rwa [UInt32.toNat_ofNat_of_lt' hi, UInt32.toNat_ofNat_of_lt' hj] at hnat

theorem snapshotIndex_none {fs : ArmFs} {turns index : Nat} (h : snapshotIndex fs turns index = none)
    {i : Nat} (hi : i < turns) : snapshotPath (index + i) ∈ fs.entries.map ArmFsEntry.path := by
  induction turns generalizing index i with
  | zero => exact absurd hi (Nat.not_lt_zero i)
  | succ turns ih =>
    rw [snapshotIndex] at h
    split at h
    · cases h
    · rename_i hfound
      cases i with
      | zero =>
        rw [fsFind, slotOf_eq_none, not_not] at hfound
        exact hfound
      | succ i =>
        have hrest := ih h (Nat.lt_of_succ_lt_succ hi)
        rwa [Nat.add_assoc, Nat.add_comm 1 i] at hrest

/-- More numbers than the table has entries cannot all be in use, so the search ends. -/
theorem snapshotIndex_isSome (fs : ArmFs) {index : Nat}
    (hindex : index + (fs.entries.length + 1) ≤ 2 ^ 32) :
    (snapshotIndex fs (fs.entries.length + 1) index).isSome = true := by
  by_contra hnone
  rw [Bool.not_eq_true, Option.isSome_eq_false_iff, Option.isNone_iff_eq_none] at hnone
  have hnodup : ((List.range (fs.entries.length + 1)).map
      fun i => snapshotPath (index + i)).Nodup := by
    apply List.Nodup.map_on _ List.nodup_range
    intro i hi j hj hij
    rw [List.mem_range] at hi hj
    have heq := snapshotPath_inj (by omega) (by omega) hij
    omega
  have hsub : (List.range (fs.entries.length + 1)).map (fun i => snapshotPath (index + i)) ⊆
      fs.entries.map ArmFsEntry.path := by
    intro path hpath
    obtain ⟨i, hi, rfl⟩ := List.mem_map.mp hpath
    exact snapshotIndex_none hnone (List.mem_range.mp hi)
  have hle := (List.subperm_of_subset hnodup hsub).length_le
  simp only [List.length_map, List.length_range] at hle
  omega

theorem browserSavePageSnapshot_valid (h : s.Valid) (page : Bytes) (accepted : Bool) :
    (browserSavePageSnapshot s page accepted).2.Valid := by
  rw [browserSavePageSnapshot]
  dsimp only
  cases snapshotIndex (fsMkdir s.fs (ascii "/downloads")).2
    ((fsMkdir s.fs (ascii "/downloads")).2.entries.length + 1)
    (s.browser.downloads.length + 1) with
  | none => exact ⟨h.browser, h.address, h.saved⟩
  | some index =>
    dsimp only
    rcases fsWrite (fsMkdir s.fs (ascii "/downloads")).2 (snapshotPath index) page .text
      with ⟨written, fs⟩
    cases written with
    | false => exact ⟨h.browser, h.address, h.saved⟩
    | true =>
      apply BrowserSystem.Valid.files
      apply browserStateSave_valid
      refine ⟨{ h.browser with downloads_le := ?_, downloads_row := fun row hrow => ?_ },
        h.address, h.saved⟩
      · have hle := h.browser.downloads_le
        rw [List.length_append, List.length_singleton]
        split
        · rename_i hroom
          exact hroom
        · rw [List.length_drop]
          rw [browserDownloadMax] at *
          omega
      · rcases List.mem_append.mp hrow with hrow | hrow
        · apply h.browser.downloads_row row
          split at hrow
          · exact hrow
          · exact List.mem_of_mem_drop hrow
        · rw [List.mem_singleton.mp hrow]
          exact (snapshotPath_line index).truncate (by decide)

/-- The addresses that the user types or a page links to are printable. -/
def BrowserOp.Printable : BrowserOp → Prop
  | .navigateTo address | .openTab address | .toggleBookmark address | .recordVisit address =>
      ∀ ch ∈ address, isprint ch = true
  | .activateTab _ | .savePageSnapshot .. | .fileSystem _ => True

instance : DecidablePred BrowserOp.Printable
  | .navigateTo address | .openTab address | .toggleBookmark address | .recordVisit address =>
      List.decidableBAll (fun ch => isprint ch = true) address
  | .activateTab _ | .savePageSnapshot .. | .fileSystem _ => .isTrue trivial

theorem line_of_isprint {text : Bytes} (h : ∀ ch ∈ text, isprint ch = true) : Line text := by
  constructor
  · intro hmem
    exact absurd (h 0 hmem) (by decide)
  · intro hmem
    exact absurd (h newline hmem) (by decide)

theorem browserStep_valid (h : s.Valid) {op : BrowserOp} (hop : op.Printable) :
    (browserStep s op).Valid := by
  cases op with
  | navigateTo address => exact browserNavigateTo_valid h (line_of_isprint hop)
  | openTab address => exact browserOpenTab_valid h (line_of_isprint hop)
  | activateTab index => exact browserActivateTab_valid h index
  | toggleBookmark address => exact browserToggleBookmark_valid h (line_of_isprint hop)
  | recordVisit address => exact browserRecordVisit_valid h (line_of_isprint hop)
  | savePageSnapshot page accepted => exact browserSavePageSnapshot_valid h page accepted
  | fileSystem op => exact h.files _ _

theorem appendRow_le {rowMax limit : Nat} {rows : List Bytes} (row : Bytes)
    (h : rows.length ≤ rowMax) : (appendRow rowMax limit rows row).length ≤ rowMax := by
  rw [appendRow]
  split
  · simpa
  · exact h

theorem mem_appendRow {rowMax limit : Nat} {rows : List Bytes} {row row' : Bytes}
    (hlimit : 0 < limit) (hrow : Line row) (hrows : ∀ r ∈ rows, Row limit r)
    (h : row' ∈ appendRow rowMax limit rows row) : Row limit row' := by
  rw [appendRow] at h
  split at h
  · rcases List.mem_append.mp h with h | h
    · exact hrows row' h
    · rw [List.mem_singleton.mp h]
      exact hrow.truncate hlimit
  · exact hrows row' h

theorem browserLoadLine_bounded {b : BrowserState} (h : b.Bounded) {line : Bytes}
    (hline : Line line) : (browserLoadLine b line).Bounded := by
  have hdrop : ∀ n, Line (line.drop n) := fun n => hline.mono (List.drop_subset n line)
  rw [browserLoadLine]
  split
  · exact { h with }
  split
  · exact { h with
      tabs_le := appendRow_le _ h.tabs_le
      tabs_row := fun row => mem_appendRow (by decide) (hdrop 4) h.tabs_row }
  split
  · exact { h with
      bookmarks_le := appendRow_le _ h.bookmarks_le
      bookmarks_row := fun row => mem_appendRow (by decide) (hdrop 9) h.bookmarks_row }
  split
  · exact { h with
      history_le := appendRow_le _ h.history_le
      history_row := fun row => mem_appendRow (by decide) (hdrop 8) h.history_row }
  split
  · exact { h with
      downloads_le := appendRow_le _ h.downloads_le
      downloads_row := fun row => mem_appendRow (by decide) (hdrop 9) h.downloads_row }
  · exact h

/-- Whatever the file holds, loading it stays within the arrays. -/
theorem browserParse_bounded (content : Bytes) : (browserParse content).Bounded := by
  have hlines : ∀ line ∈ linesOf newline (cString (content.take (browserBufferSize - 1))),
      Line line := by
    intro line hline
    exact ⟨(cString_nulFree _).mono (mem_of_mem_linesOf hline), not_mem_of_mem_linesOf hline⟩
  have hempty : BrowserState.Bounded ⟨0, [], [], [], []⟩ := by
    constructor <;> simp
  rw [browserParse]
  generalize linesOf newline (cString (content.take (browserBufferSize - 1))) = lines at hlines
  generalize BrowserState.mk 0 [] [] [] [] = b at hempty
  induction lines generalizing b with
  | nil => exact hempty
  | cons line lines ih =>
    exact ih (fun l hl => hlines l (List.mem_cons_of_mem line hl)) _
      (browserLoadLine_bounded hempty (hlines line List.mem_cons_self))

theorem browserDefault_valid : browserDefault.Valid := by
  have hrow : ∀ row ∈ browserDefault.tabs ++ browserDefault.bookmarks,
      row.length < browserAddressMax ∧ Line row := by decide
  constructor
  · constructor
    · decide
    · decide
    · decide
    · decide
    · intro row hmem
      exact ⟨(hrow row (by simp [hmem])).1, (hrow row (by simp [hmem])).2⟩
    · intro row hmem
      exact ⟨(hrow row (by simp [hmem])).1, (hrow row (by simp [hmem])).2⟩
    · exact fun row hmem => absurd hmem List.not_mem_nil
    · exact fun row hmem => absurd hmem List.not_mem_nil
  · decide

theorem browserSettle_valid {b : BrowserState} (h : b.Bounded) : (browserSettle b).Valid := by
  obtain ⟨c, hc, hbounded, htabs⟩ : ∃ c, (if b.tabs.length = 0 then browserDefault else b) = c ∧
      c.Bounded ∧ 0 < c.tabs.length := by
    split
    · exact ⟨_, rfl, browserDefault_valid.toBounded, by decide⟩
    · rename_i htabs
      exact ⟨_, rfl, h, Nat.pos_of_ne_zero htabs⟩
  rw [browserSettle, hc]
  split
  · exact { hbounded with activeTab_lt := htabs }
  · rename_i hactive
    exact { hbounded with activeTab_lt := not_le.mp hactive }

theorem browserBoot_valid (fs : ArmFs) (volumes : List Volume) :
    (browserBoot fs volumes).Valid := by
  have hhome : Row browserAddressMax (ascii "snsx://home") := ⟨by decide, by decide⟩
  have hdefault : BrowserSystem.Valid
      ⟨browserDefault, ascii "snsx://home", fs, volumes, []⟩ :=
    ⟨browserDefault_valid, hhome, by simp⟩
  rw [browserBoot, browserStateLoad]
  simp only [browserSetDefaultState]
  cases fsEntry fs browserStatePath with
  | none => exact browserStateSave_valid hdefault
  | some entry =>
    dsimp only
    split
    · exact browserStateSave_valid hdefault
    · have hsettled := browserSettle_valid (browserParse_bounded entry.bytes)
      have htab := hsettled.tabs_row _ (List.getElem_mem hsettled.activeTab_lt)
      have hloaded : BrowserSystem.Valid ⟨browserSettle (browserParse entry.bytes),
          strcopyLimit ((browserSettle (browserParse entry.bytes)).tabs.getD
            (browserSettle (browserParse entry.bytes)).activeTab []) browserAddressMax,
          fs, volumes, []⟩ := by
        refine ⟨hsettled, ?_, by simp⟩
        apply Line.truncate _ (by decide)
        rw [List.getD_eq_getElem?_getD, List.getElem?_eq_getElem hsettled.activeTab_lt]
        exact htab.line
      split
      · exact browserStateSave_valid hloaded
      · exact hloaded

/-- Every state of a session and every state saved in it is valid. -/
theorem browserRun_valid (fs : ArmFs) (volumes : List Volume) {ops : List BrowserOp}
    (hops : ∀ op ∈ ops, op.Printable) : (run browserStep (browserBoot fs volumes) ops).Valid := by
  have hstart := browserBoot_valid fs volumes
  generalize browserBoot fs volumes = s at hstart ⊢
  induction ops generalizing s with
  | nil => exact hstart
  | cons op ops ih =>
    exact ih (fun o ho => hops o (List.mem_cons_of_mem op ho)) _
      (browserStep_valid hstart (hops op List.mem_cons_self))

end Invariant

/-- The states of `g_browser` that a session has reached or saved on the way. -/
def BrowserSystem.states (s : BrowserSystem) : List BrowserState := s.browser :: s.saved

/-- The saves of a session stay in their buffer and can be loaded again exactly when the rows
together leave room for the keys and the terminator. -/
theorem browser_savesAndLoads_iff (fs : ArmFs) (volumes : List Volume) (ops : List BrowserOp)
    (hops : ∀ op ∈ ops, op.Printable) :
    (∀ b ∈ (run browserStep (browserBoot fs volumes) ops).states, SavesAndLoads b) ↔
      ∀ b ∈ (run browserStep (browserBoot fs volumes) ops).states,
        browserTextSize b < browserBufferSize := by
  have hvalid := browserRun_valid fs volumes hops
  have hstates : ∀ b ∈ (run browserStep (browserBoot fs volumes) ops).states, b.Valid := by
    intro b hb
    rcases List.mem_cons.mp hb with rfl | hb
    · exact hvalid.browser
    · exact hvalid.saved b hb
  exact forall₂_congr fun b hb => savesAndLoads_iff (hstates b hb)

theorem browser_savesAndLoads_iff_visit :
    SavesAndLoads (run browserStep (browserBoot (.empty ⟨false, false, false, 0⟩) [])
      [.navigateTo (ascii "http://a/")]).browser := by
  apply (browser_savesAndLoads_iff (.empty ⟨false, false, false, 0⟩) []
    [.navigateTo (ascii "http://a/")] (by decide)).mpr
  · decide +kernel
  · exact List.mem_cons_self

/-- An address of 191 characters with the given last one. -/
def longAddress (last : UInt8) : Bytes := List.replicate 190 97 ++ [last]

/-- Sixteen long visits and six long bookmarks fill more than the buffer. -/
theorem not_browser_savesAndLoads :
    ¬ ∀ (fs : ArmFs) (volumes : List Volume) (ops : List BrowserOp),
      (∀ op ∈ ops, op.Printable) →
      ∀ b ∈ (run browserStep (browserBoot fs volumes) ops).states, SavesAndLoads b := by
  intro h
  let visits := (List.range 16).map fun i => BrowserOp.recordVisit (longAddress (UInt8.ofNat (97 + i)))
  let marks := (List.range 6).map fun i => BrowserOp.toggleBookmark (longAddress (UInt8.ofNat (97 + i)))
  have hops : ∀ op ∈ visits ++ marks, op.Printable := by decide +kernel
  have hsave := h (.empty ⟨false, false, false, 0⟩) [] (visits ++ marks) hops _ List.mem_cons_self
  have hlong : browserBufferSize < (browserStateText (run browserStep
      (browserBoot (.empty ⟨false, false, false, 0⟩) []) (visits ++ marks)).browser).length + 1 := by
    decide +kernel
  exact absurd hsave.1 (not_le.mpr hlong)

end SnsxOS.Arm64
