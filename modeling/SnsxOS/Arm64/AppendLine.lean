import SnsxOS.Arm64.Entries
import SnsxOS.Arm64.RoundTrip

/-!
# Appending a line

`fs_append_line` builds the new content in a buffer of the size of a file and hands it to
`fs_write`. Its two size checks together refuse exactly the lines that do not fit, and what
`fs_write` can still refuse after them is a path that no entry has.
-/

namespace SnsxOS.Arm64

open Framework

/-- The content with its last line ended, the text and a newline. -/
def appendedLine (content text : Bytes) : Bytes :=
  (if content = [] ∨ content.getLast? = some newline then content else content ++ [newline]) ++
    text ++ [newline]

/-- The bytes of the file, none if it is absent. -/
def contentAt (fs : ArmFs) (path : Bytes) : Bytes :=
  ((fsEntry fs path).map ArmFsEntry.bytes).getD []

/-- The entry of the path holds the text, and all other entries are the ones before. -/
structure Stored (fs fs' : ArmFs) (path text : Bytes) : Prop where
  entry : ∃ entry, fs'.entries[(fsFind fs path).getD fs.entries.length]? = some entry ∧
    entry.node = ⟨path, .text, text⟩
  others : fs'.entries.eraseIdx ((fsFind fs path).getD fs.entries.length) =
    fs.entries.eraseIdx ((fsFind fs path).getD fs.entries.length)

/-- Nothing happens, or the line is appended and nothing else. -/
def LineOutcome (fs : ArmFs) (path text : Bytes) : Prop :=
  fsAppendLine fs path text = (false, fs) ∨
    ((fsAppendLine fs path text).1 = true ∧
      Stored fs (fsAppendLine fs path text).2 path (appendedLine (contentAt fs path) text))

/-- The line fits, and its path is that of a file that is there or for which there is room. -/
structure LineFits (fs : ArmFs) (path text : Bytes) : Prop where
  size : (appendedLine (contentAt fs path) text).length ≤ fsMaxFileSize
  absolute : path.head? = some slash
  file : (fsEntry fs path).map ArmFsEntry.type ≠ some .dir
  parent : fsParentExists fs path = true
  room : fsFind fs path ≠ none ∨ fs.entries.length < fsMaxEntries

variable {fs : ArmFs} {path text content data : Bytes}

theorem length_appendedLine (content text : Bytes) : (appendedLine content text).length =
    (if content = [] ∨ content.getLast? = some newline then content.length
      else content.length + 1) + text.length + 1 := by
  rw [appendedLine]
  split
  · simp [Nat.add_assoc]
  · simp only [List.length_append, List.length_singleton]

theorem contentAt_of_entry {entry : ArmFsEntry} (h : fsEntry fs path = some entry) :
    contentAt fs path = entry.bytes := by
  rw [contentAt, h]
  rfl

theorem contentAt_of_absent (h : fsEntry fs path = none) : contentAt fs path = [] := by
  rw [contentAt, h]
  rfl

/-- The call writes the whole new content or is refused before it writes anything. -/
theorem fsAppendLine_eq (fs : ArmFs) (path text : Bytes) : fsAppendLine fs path text =
    if (fsEntry fs path).map ArmFsEntry.type = some .dir ∨
        (fsEntry fs path = none ∧ fsParentExists fs path = false) ∨
        fsMaxFileSize < (appendedLine (contentAt fs path) text).length then (false, fs)
    else fsWrite fs path (appendedLine (contentAt fs path) text) .text := by
  rw [length_appendedLine, fsAppendLine]
  cases hentry : fsEntry fs path with
  | some entry =>
    rw [contentAt_of_entry hentry, appendedLine]
    by_cases hdir : entry.type = .dir
    · simp [hdir]
    · by_cases hended : entry.bytes = [] ∨ entry.bytes.getLast? = some newline
      · simp [hdir, endLine, hended]
      · by_cases hfull : fsMaxFileSize ≤ entry.bytes.length + 1
        · have hlong : fsMaxFileSize < entry.bytes.length + 1 + text.length + 1 := by omega
          simp [hdir, endLine, hended, hfull, hlong]
        · simp [hdir, endLine, hended, hfull]
  | none =>
    rw [contentAt_of_absent hentry]
    by_cases hparent : fsParentExists fs path = true
    · simp [appendedLine, hparent]
    · simp [hparent]

/-- A file that is there holds what is written to it, wherever its path ends in its field. -/
theorem fsWrite_present {slot : Nat} {type : ArmFsType} (hfs : AllEntries Sized fs)
    (hpath : path.length < fsPathMax) (habs : path.head? = some slash)
    (hdata : data.length ≤ fsMaxFileSize) (htype : type ≠ .dir)
    (hfind : fsFind fs path = some slot)
    (hfile : (fs.entries[slot]?.map ArmFsEntry.type) ≠ some .dir) :
    (fsWrite fs path data type).1 = true ∧
      ∃ entry, (fsWrite fs path data type).2.entries = fs.entries.set slot entry ∧
        entry.node = ⟨path, type, data⟩ := by
  obtain ⟨hslot, hkey⟩ := slotOf_eq_some hfind
  have hbad : ¬ (path.head? ≠ some slash ∨ fsMaxFileSize < data.length ∨ type = .dir) := by
    rintro (h | h | h)
    · exact h habs
    · exact absurd hdata (not_le.mpr h)
    · exact htype h
  have hok : EntryOk fs.entries[slot] :=
    ⟨by rw [hkey]; exact hpath, (hfs _ (List.getElem_mem hslot)).size_le⟩
  obtain ⟨hclear, hkept⟩ := clearData_ok hok
  rw [fsWrite, if_neg hbad, hfind]
  dsimp only
  rw [if_neg hfile]
  refine ⟨rfl, { fs.entries[slot].clearData.setData data with type := type }, ?_, ?_⟩
  · rw [persistMarkDirty_entries]
    exact modify_eq_set hslot _
  · simp only [ArmFsEntry.node, ArmFsEntry.path, ArmFsEntry.bytes]
    congr 1
    · exact ((setData_path hclear hdata).trans hkept).trans hkey
    · exact setData_bytes _ hdata

/-- A file that is not there is added behind the others or refused. -/
theorem fsWrite_absent {type : ArmFsType} (hnul : NulFree path) (habs : path.head? = some slash)
    (hdata : data.length ≤ fsMaxFileSize) (htype : type ≠ .dir) (hfind : fsFind fs path = none) :
    if fsParentExists fs path = true ∧ fs.entries.length < fsMaxEntries ∧
        path.length < fsPathMax then
      (fsWrite fs path data type).1 = true ∧
        ∃ entry, (fsWrite fs path data type).2.entries = fs.entries ++ [entry] ∧
          entry.node = ⟨path, type, data⟩
    else fsWrite fs path data type = (false, fs) := by
  have hbad : ¬ (path.head? ≠ some slash ∨ fsMaxFileSize < data.length ∨ type = .dir) := by
    rintro (h | h | h)
    · exact h habs
    · exact absurd hdata (not_le.mpr h)
    · exact htype h
  rw [fsWrite, if_neg hbad, hfind]
  dsimp only
  rw [fsPush_eq]
  by_cases hparent : fsParentExists fs path = true
  · by_cases hroom : fs.entries.length < fsMaxEntries ∧ path.length + 1 ≤ fsPathMax
    · have hfresh := fresh_ok hnul hroom.2 type
      rw [if_pos ⟨hparent, hroom⟩, dif_pos hroom, hparent]
      refine ⟨rfl, (ArmFsEntry.fresh path type).setData data, ?_, ?_⟩
      · have hlast : fs.entries.length < (fs.entries ++ [ArmFsEntry.fresh path type]).length := by
          simp
        simp [ArmFs.push, ArmFs.modify, modify_eq_set hlast]
      · rw [ArmFsEntry.node, setData_path hfresh hdata, setData_bytes _ hdata,
          fresh_path hnul hroom.2]
        rfl
    · rw [if_neg fun h => hroom h.2, dif_neg hroom, hparent]
      rfl
  · rw [if_neg fun h => hparent h.1, if_pos (by simpa using hparent)]

/-- For a short path, and for any path that no entry has, a line is appended exactly or not at
all; a line that fits goes to every short path. -/
theorem fsAppendLine_exact (fs : ArmFs) (path text : Bytes) (hfs : AllEntries Sized fs)
    (hnul : NulFree path) (hpath : path.length < fsPathMax ∨ fsFind fs path = none) :
    LineOutcome fs path text ∧
      (path.length < fsPathMax → LineFits fs path text → (fsAppendLine fs path text).1 = true) := by
  rw [LineOutcome, fsAppendLine_eq]
  by_cases hrefused : (fsEntry fs path).map ArmFsEntry.type = some .dir ∨
      (fsEntry fs path = none ∧ fsParentExists fs path = false) ∨
      fsMaxFileSize < (appendedLine (contentAt fs path) text).length
  · rw [if_pos hrefused]
    refine ⟨Or.inl rfl, fun _ hfits => ?_⟩
    exfalso
    rcases hrefused with hdir | hparent | hlong
    · exact hfits.file hdir
    · rw [hfits.parent] at hparent
      cases hparent.2
    · exact absurd hfits.size (not_le.mpr hlong)
  · rw [if_neg hrefused]
    push Not at hrefused
    obtain ⟨hfile, hparent, hdata⟩ := hrefused
    by_cases habs : path.head? = some slash
    · cases hfind : fsFind fs path with
      | some slot =>
        obtain ⟨hslot, hkey⟩ := slotOf_eq_some hfind
        have hshort := hpath.resolve_right (by rw [hfind]; simp)
        have htype : (fs.entries[slot]?.map ArmFsEntry.type) ≠ some .dir := by
          rw [fsEntry, lookup_of_slotOf hfind hslot] at hfile
          rwa [List.getElem?_eq_getElem hslot]
        obtain ⟨htrue, entry, hentries, hnode⟩ :=
          fsWrite_present hfs hshort habs hdata (show ArmFsType.text ≠ .dir by decide) hfind htype
        refine ⟨Or.inr ⟨htrue, ?_, ?_⟩, fun _ _ => htrue⟩
        · exact ⟨entry, by simp [hfind, hentries, hslot], hnode⟩
        · rw [hfind, Option.getD_some, hentries, List.eraseIdx_set_eq]
      | none =>
        have hwrite := fsWrite_absent hnul habs hdata (show ArmFsType.text ≠ .dir by decide) hfind
        split at hwrite
        · obtain ⟨htrue, entry, hentries, hnode⟩ := hwrite
          refine ⟨Or.inr ⟨htrue, ?_, ?_⟩, fun _ _ => htrue⟩
          · exact ⟨entry, by simp [hfind, hentries], hnode⟩
          · rw [hfind, Option.getD_none, hentries, List.eraseIdx_append_of_length_le le_rfl,
              List.eraseIdx_of_length_le le_rfl]
            simp
        · rename_i hno
          rw [hwrite]
          refine ⟨Or.inl rfl, fun hshort hfits => ?_⟩
          exact absurd ⟨hfits.parent, hfits.room.resolve_left (by simp [hfind]), hshort⟩ hno
    · have hsame : fsWrite fs path (appendedLine (contentAt fs path) text) .text = (false, fs) := by
        rw [fsWrite, if_pos (Or.inl habs)]
      rw [hsame]
      exact ⟨Or.inl rfl, fun _ hfits => absurd hfits.absolute habs⟩

/-- A line goes into a new file of the empty table. -/
theorem fsAppendLine_exact_new :
    LineOutcome (ArmFs.empty offline) (ascii "/a") (ascii "x") ∧
      ((ascii "/a").length < fsPathMax →
        LineFits (ArmFs.empty offline) (ascii "/a") (ascii "x") →
        (fsAppendLine (ArmFs.empty offline) (ascii "/a") (ascii "x")).1 = true) :=
  fsAppendLine_exact _ _ _ (empty_allEntries offline) (by decide) (Or.inl (by decide))

/-- A path of 96 characters is refused although its parent is there and the table has room. -/
theorem not_fsAppendLine_exact : ¬ ∀ (fs : ArmFs) (path text : Bytes), AllEntries Sized fs →
    NulFree path → LineOutcome fs path text ∧
      (LineFits fs path text → (fsAppendLine fs path text).1 = true) := by
  intro h
  have htrue := (h (ArmFs.empty offline) (slash :: List.replicate 95 97) []
    (empty_allEntries offline) (by decide +kernel)).2
  have hfalse : (fsAppendLine (ArmFs.empty offline) (slash :: List.replicate 95 97) []).1 =
      false := by
    decide +kernel
  rw [hfalse] at htrue
  apply Bool.false_ne_true
  apply htrue
  constructor
  · decide +kernel
  · rfl
  · decide +kernel
  · decide +kernel
  · exact Or.inr (by decide)

end SnsxOS.Arm64
