import SnsxOS.Arm64.Rescan

/-!
# Restoring a damaged snapshot

`persist_deserialize` checks each header and each record before it reads them, so it never reads
past the snapshot. It stores a record as soon as it has read it, so a later bad record leaves
the table with the earlier ones, unless these change nothing.
-/

namespace SnsxOS.Arm64

open Framework

/-- A read that fails when it reaches past the buffer. -/
def readInside (buffer : Bytes) (offset length : Nat) : Option Bytes :=
  if offset + length ≤ buffer.length then some ((buffer.drop offset).take length) else none

/-- The loop of `persist_deserialize`; no outcome when it reads past the buffer. -/
def persistDeserializeLoopInside (buffer : Bytes) : Nat → Nat → ArmFs → Option (Bool × ArmFs)
  | 0, _, fs => some (true, fs)
  | remaining + 1, offset, fs =>
      if buffer.length < offset + persistEntryHeaderSize then some (false, fs)
      else (readInside buffer offset persistEntryHeaderSize).bind fun header =>
        let pathLength := (readLe16 header 0).toNat
        let type := readLe16 header 2
        let size := (readLe32 header 4).toNat
        let offset := offset + persistEntryHeaderSize
        if fsPathMax < pathLength + 1 ∨ buffer.length < offset + pathLength + size then
          some (false, fs)
        else (readInside buffer offset pathLength).bind fun path =>
          let offset := offset + pathLength
          if type = ArmFsType.dir.code then
            persistDeserializeLoopInside buffer remaining (offset + size)
              (fsMkdir fs (cString path)).2
          else (readInside buffer offset size).bind fun data =>
            persistDeserializeLoopInside buffer remaining (offset + size)
              (fsWrite fs (cString path) data .text).2

def persistDeserializeInside (fs : ArmFs) (buffer : Bytes) : Option (Bool × ArmFs) :=
  if buffer.length < persistHeaderSize then some (false, fs)
  else (readInside buffer 0 4).bind fun magic =>
    if readLe32 magic 0 ≠ snsxStateMagic then some (false, fs)
    else (readInside buffer 4 4).bind fun version =>
      if readLe32 version 0 ≠ snsxStateVersion then some (false, fs)
      else (readInside buffer 8 4).bind fun count =>
        persistDeserializeLoopInside buffer (readLe32 count 0).toNat persistHeaderSize fs

section Inside

variable {buffer : Bytes}

theorem readInside_of_le {offset length : Nat} (h : offset + length ≤ buffer.length) :
    readInside buffer offset length = some ((buffer.drop offset).take length) := if_pos h

/-- A byte of a part that was read is the byte of the buffer. -/
theorem byteAt_part {offset length i : Nat} (hi : i < length) :
    byteAt ((buffer.drop offset).take length) i = byteAt buffer (offset + i) := by
  simp [byteAt, hi]

theorem readLe16_part {offset length i : Nat} (hi : i + 1 < length) :
    readLe16 ((buffer.drop offset).take length) i = readLe16 buffer (offset + i) := by
  simp only [readLe16, byteAt_part hi, byteAt_part (Nat.lt_of_succ_lt hi), Nat.add_assoc]

theorem readLe32_part {offset length i : Nat} (hi : i + 3 < length) :
    readLe32 ((buffer.drop offset).take length) i = readLe32 buffer (offset + i) := by
  have h1 : i + 1 < length := by omega
  have h2 : i + 2 < length := by omega
  simp only [readLe32, byteAt_part hi, byteAt_part h1, byteAt_part h2,
    byteAt_part (show i < length by omega), Nat.add_assoc]

theorem persistDeserializeLoopInside_eq (remaining offset : Nat) (fs : ArmFs) :
    persistDeserializeLoopInside buffer remaining offset fs =
      some (persistDeserializeLoop buffer remaining offset fs) := by
  induction remaining generalizing offset fs with
  | zero => rfl
  | succ remaining ih =>
    rw [persistDeserializeLoopInside, persistDeserializeLoop]
    by_cases hheader : buffer.length < offset + persistEntryHeaderSize
    · rw [if_pos hheader, if_pos hheader]
    have hread := readInside_of_le (not_lt.mp hheader)
    rw [if_neg hheader, if_neg hheader, hread, Option.bind_some]
    dsimp only
    rw [readLe16_part (by decide), readLe16_part (by decide), readLe32_part (by decide)]
    simp only [Nat.add_zero]
    by_cases hrecord : fsPathMax < (readLe16 buffer offset).toNat + 1 ∨
        buffer.length < offset + persistEntryHeaderSize + (readLe16 buffer offset).toNat +
          (readLe32 buffer (offset + 4)).toNat
    · rw [if_pos hrecord, if_pos hrecord]
    have hpath : offset + persistEntryHeaderSize + (readLe16 buffer offset).toNat ≤
        buffer.length := by omega
    have hdata : offset + persistEntryHeaderSize + (readLe16 buffer offset).toNat +
        (readLe32 buffer (offset + 4)).toNat ≤ buffer.length := by omega
    rw [if_neg hrecord, if_neg hrecord, readInside_of_le hpath, Option.bind_some,
      readInside_of_le hdata, Option.bind_some, ih, ih]
    split
    · rfl
    · rfl

/-- Every read lies inside the buffer. -/
theorem persistDeserializeInside_eq (fs : ArmFs) (buffer : Bytes) :
    persistDeserializeInside fs buffer = some (persistDeserialize fs buffer) := by
  rw [persistDeserializeInside, persistDeserialize]
  by_cases hheader : buffer.length < persistHeaderSize
  · rw [if_pos hheader, if_pos hheader]
  have hsize : 16 ≤ buffer.length := not_lt.mp hheader
  rw [if_neg hheader, if_neg hheader, readInside_of_le (show 0 + 4 ≤ buffer.length by omega),
    Option.bind_some, readInside_of_le (show 4 + 4 ≤ buffer.length by omega), Option.bind_some,
    readInside_of_le (show 8 + 4 ≤ buffer.length by omega), Option.bind_some,
    readLe32_part (by decide), readLe32_part (by decide), readLe32_part (by decide),
    persistDeserializeLoopInside_eq]
  by_cases hmagic : readLe32 buffer 0 = snsxStateMagic
  · by_cases hversion : readLe32 buffer 4 = snsxStateVersion
    · simp [hmagic, hversion]
    · simp [hmagic, hversion]
  · simp [hmagic]

end Inside

section WellFormed

/-- The header is that of a snapshot and every record it counts lies inside the buffer with a
path that fits. -/
structure WellFormed (buffer : Bytes) : Prop where
  header_le : persistHeaderSize ≤ buffer.length
  magic : readLe32 buffer 0 = snsxStateMagic
  version : readLe32 buffer 4 = snsxStateVersion
  complete : (persistRecords fsPathMax buffer (readLe32 buffer 8).toNat
    persistHeaderSize).length = (readLe32 buffer 8).toNat

theorem persistDeserializeLoop_answer (buffer : Bytes) (remaining offset : Nat) (fs : ArmFs) :
    (persistDeserializeLoop buffer remaining offset fs).1 = true ↔
      (persistRecords fsPathMax buffer remaining offset).length = remaining := by
  induction remaining generalizing offset fs with
  | zero => simp [persistDeserializeLoop, persistRecords]
  | succ remaining ih =>
    rw [persistDeserializeLoop, persistRecords]
    split
    · simp
    · dsimp only
      split
      · simp
      · rw [ih, List.length_cons, Nat.add_right_cancel_iff]

theorem persistDeserialize_answer (fs : ArmFs) (buffer : Bytes) :
    (persistDeserialize fs buffer).1 = true ↔ WellFormed buffer := by
  rw [persistDeserialize]
  split
  · rename_i hshort
    constructor
    · intro h
      cases h
    · intro h
      exact absurd h.header_le (not_le.mpr hshort)
  · rename_i hlong
    split
    · rename_i hheader
      constructor
      · intro h
        cases h
      · intro h
        rcases hheader with hmagic | hversion
        · exact absurd h.magic hmagic
        · exact absurd h.version hversion
    · rename_i hheader
      rw [not_or, not_not, not_not] at hheader
      rw [persistDeserializeLoop_answer]
      exact ⟨fun h => ⟨not_lt.mp hlong, hheader.1, hheader.2, h⟩, WellFormed.complete⟩

end WellFormed

section Replay

variable {fs : ArmFs} {records : Table}

/-- An entry after `fs_write` stored content in it. -/
def ArmFsEntry.rewritten (entry : ArmFsEntry) (data : Bytes) : ArmFsEntry :=
  { entry.clearData.setData data with type := .text }

theorem rewritten_eq (entry : ArmFsEntry) (data : Bytes) : entry.rewritten data =
    ⟨entry.clearData.memory.write fsPathMax data, data.length, .text⟩ := rfl

theorem rewritten_path {entry : ArmFsEntry} {data : Bytes} (hpath : entry.path.length < fsPathMax)
    (hdata : data.length ≤ fsMaxFileSize) : (entry.rewritten data).path = entry.path := by
  have hclear : entry.clearData.path = entry.path :=
    Buffer.str_write_of_lt _ _ hpath (by rw [List.length_replicate])
  have hstored : (entry.clearData.setData data).path = entry.clearData.path :=
    Buffer.str_write_of_lt _ _ (by rw [← ArmFsEntry.path, hclear]; exact hpath) (by omega)
  exact hstored.trans hclear

/-- The content written last is the one that stays. -/
theorem rewritten_rewritten (entry : ArmFsEntry) {first second : Bytes}
    (hfirst : first.length ≤ fsMaxFileSize) :
    (entry.rewritten first).rewritten second = entry.rewritten second := by
  have hle : first.length ≤ (List.replicate fsMaxFileSize (0 : UInt8)).length := by
    rw [List.length_replicate]
    exact hfirst
  have hroom : fsPathMax + (List.replicate fsMaxFileSize (0 : UInt8)).length ≤
      fsPathMax + fsMaxFileSize := by rw [List.length_replicate]
  have hcleared : (entry.rewritten first).clearData.memory = entry.clearData.memory := by
    have hagain := Buffer.write_write entry.memory le_rfl hroom
    exact (Buffer.write_write entry.clearData.memory hle hroom).trans hagain
  rw [rewritten_eq, hcleared, ← rewritten_eq]

theorem fsMkdir_keeps {slot : Nat} {entry : ArmFsEntry} (h : fs.entries[slot]? = some entry)
    (path : Bytes) : (fsMkdir fs path).2.entries[slot]? = some entry := by
  obtain ⟨hslot, -⟩ := List.getElem?_eq_some_iff.mp h
  rw [fsMkdir, fsPush_eq]
  split
  · exact h
  · split
    · exact h
    · split
      · exact h
      · by_cases hroom : fs.entries.length < fsMaxEntries ∧ path.length + 1 ≤ fsPathMax
        · rw [dif_pos hroom]
          dsimp only
          rw [persistMarkDirty_entries]
          exact (List.getElem?_append_left hslot).trans h
        · rw [dif_neg hroom]
          exact h

/-- Storing content changes the file found at its path and no other entry. -/
theorem getElem?_fsWrite {slot : Nat} {entry : ArmFsEntry} (h : fs.entries[slot]? = some entry)
    (path data : Bytes) :
    (fsWrite fs path data .text).2.entries[slot]? =
      some (if fsFind fs path = some slot ∧ path.head? = some slash ∧
        data.length ≤ fsMaxFileSize ∧ entry.type = .text then entry.rewritten data else entry) := by
  obtain ⟨hslot, hentry⟩ := List.getElem?_eq_some_iff.mp h
  have htext : ¬ ArmFsType.text = .dir := by
    intro htype
    cases htype
  rw [fsWrite, fsPush_eq]
  by_cases hbad : path.head? ≠ some slash ∨ fsMaxFileSize < data.length ∨ ArmFsType.text = .dir
  · rw [if_pos hbad, if_neg, h]
    rintro ⟨-, hhead, hdata, -⟩
    rcases hbad with hbad | hbad | hbad
    · exact hbad hhead
    · exact absurd hdata (not_le.mpr hbad)
    · exact htext hbad
  have hgood := not_or.mp hbad
  rw [not_or, not_not, not_lt] at hgood
  rw [if_neg hbad]
  cases hfind : fsFind fs path with
  | some target =>
    obtain ⟨htarget, -⟩ := slotOf_eq_some hfind
    have htype : fs.entries[target]?.map ArmFsEntry.type = some fs.entries[target].type := by
      rw [List.getElem?_eq_getElem htarget, Option.map_some]
    dsimp only
    simp only [htype, Option.some.injEq]
    by_cases hdir : fs.entries[target].type = .dir
    · rw [if_pos hdir, if_neg, h]
      rintro ⟨rfl, -, -, hfile⟩
      rw [hentry, hfile] at hdir
      exact htext hdir
    · rw [if_neg hdir]
      dsimp only
      rw [persistMarkDirty_entries]
      by_cases hhit : target = slot
      · subst hhit
        rw [hentry] at hdir
        rw [if_pos ⟨rfl, hgood.1, hgood.2.1, ArmFsType.text_of_ne_dir hdir⟩]
        simp [ArmFs.modify, h, ArmFsEntry.rewritten]
      · rw [if_neg fun hc => hhit hc.1]
        simp [ArmFs.modify, hhit, h]
  | none =>
    simp only [reduceCtorEq, false_and, if_false]
    split
    · exact h
    · by_cases hroom : fs.entries.length < fsMaxEntries ∧ path.length + 1 ≤ fsPathMax
      · have hne : fs.entries.length ≠ slot := by omega
        rw [dif_pos hroom]
        dsimp only
        rw [persistMarkDirty_entries]
        simp [ArmFs.modify, ArmFs.push, hne, List.getElem?_append_left hslot, h]
      · rw [dif_neg hroom]
        exact h

/-- What replaying one record makes of an entry. -/
theorem getElem?_restoreNode {slot : Nat} {entry : ArmFsEntry} (h : fs.entries[slot]? = some entry)
    (record : FileNode ArmFsType) :
    (restoreNode fs record).entries[slot]? =
      some (if fsFind fs record.path = some slot ∧ record.type = .text ∧
        record.path.head? = some slash ∧ record.bytes.length ≤ fsMaxFileSize ∧
        entry.type = .text then entry.rewritten record.bytes else entry) := by
  rw [restoreNode]
  by_cases hdir : record.type = .dir
  · rw [if_pos hdir, if_neg, fsMkdir_keeps h]
    rintro ⟨-, htext, -⟩
    rw [hdir] at htext
    cases htext
  · have htext := ArmFsType.text_of_ne_dir hdir
    rw [if_neg hdir]
    simp only [htext, true_and]
    exact getElem?_fsWrite h record.path record.bytes

/-- What an entry of the table becomes when the records are replayed. -/
def mergedEntry (fs : ArmFs) (records : Table) (slot : Nat) (entry : ArmFsEntry) : ArmFsEntry :=
  if fsFind fs entry.path = some slot ∧ entry.type = .text ∧ entry.path.head? = some slash then
    match lastWritten records entry.path with
    | none => entry
    | some data => entry.rewritten data
  else entry

theorem mergedEntry_type (fs : ArmFs) (records : Table) (slot : Nat) (entry : ArmFsEntry) :
    (mergedEntry fs records slot entry).type = entry.type := by
  rw [mergedEntry]
  split
  · rename_i hfile
    split
    · rfl
    · exact hfile.2.1.symm
  · rfl

theorem lastWritten_length {path data : Bytes} (h : lastWritten records path = some data) :
    data.length ≤ fsMaxFileSize := by
  obtain ⟨record, hlast, rfl⟩ := Option.map_eq_some_iff.mp h
  obtain ⟨-, hstores⟩ := List.mem_filter.mp (List.mem_of_getLast? hlast)
  exact (of_decide_eq_true hstores).2.2

theorem mergedEntry_path (hrecords : ∀ record ∈ records, record.path.length < fsPathMax)
    (slot : Nat) (entry : ArmFsEntry) : (mergedEntry fs records slot entry).path = entry.path := by
  rw [mergedEntry]
  split
  · split
    · rfl
    · rename_i data hdata
      have hpath := hrecords _ (mem_of_lastWritten hdata)
      exact rewritten_path hpath (lastWritten_length hdata)
  · rfl

/-- A merged entry takes any further content like the entry itself. -/
theorem mergedEntry_rewritten (records : Table) (slot : Nat) (entry : ArmFsEntry) (data : Bytes) :
    (mergedEntry fs records slot entry).rewritten data = entry.rewritten data := by
  rw [mergedEntry]
  split
  · split
    · rfl
    · rename_i first hfirst
      exact rewritten_rewritten entry (lastWritten_length hfirst)
  · rfl

/-- Each entry of the table is merged with the records after the replay. -/
theorem getElem?_foldl_restoreNode
    (hrecords : ∀ record ∈ records, NulFree record.path ∧ record.path.length < fsPathMax)
    {slot : Nat} {entry : ArmFsEntry} (h : fs.entries[slot]? = some entry) :
    (records.foldl restoreNode fs).entries[slot]? =
      some (mergedEntry fs records slot entry) := by
  induction records using List.reverseRecOn with
  | nil => simpa [mergedEntry, lastWritten] using h
  | append_singleton records record ih =>
    have hinit : ∀ r ∈ records, NulFree r.path ∧ r.path.length < fsPathMax := fun r hr =>
      hrecords r (List.mem_append_left _ hr)
    have hprefix := paths_prefix_foldl fs.nodes records
    rw [← foldl_restoreNode_records hinit] at hprefix
    have hmerged := ih hinit
    have hpath := @mergedEntry_path fs records (fun r hr => (hinit r hr).2) slot entry
    rw [List.foldl_append, List.foldl_cons, List.foldl_nil]
    generalize records.foldl restoreNode fs = loaded at *
    obtain ⟨hslot, -⟩ := List.getElem?_eq_some_iff.mp h
    have hfind : ∀ path, fsFind loaded path = some slot ↔ fsFind fs path = some slot := by
      intro path
      rw [fsFind_nodes, fsFind_nodes]
      exact slotOf_prefix_iff hprefix (by rw [length_nodes]; exact hslot)
    rw [getElem?_restoreNode hmerged, mergedEntry_rewritten]
    simp only [hfind, mergedEntry_type]
    congr 1
    -- the record is the one found at this slot exactly when it has the path of the entry
    have hkey : fsFind loaded record.path = some slot → entry.path = record.path := by
      intro hfound
      obtain ⟨hlt, hkey⟩ := slotOf_eq_some hfound
      rw [List.getElem?_eq_getElem hlt, Option.some.injEq] at hmerged
      rw [← hkey, hmerged, hpath]
    rw [hfind] at hkey
    by_cases hstores : Stores entry.path record = true
    · obtain ⟨htext, hsame, hsize⟩ := of_decide_eq_true hstores
      rw [mergedEntry, mergedEntry, lastWritten_append, if_pos hstores, hsame]
      by_cases hfile : fsFind fs entry.path = some slot ∧ entry.type = .text ∧
          entry.path.head? = some slash
      · rw [if_pos ⟨hfile.1, htext, hfile.2.2, hsize, hfile.2.1⟩, if_pos hfile]
      · rw [if_neg fun hc => hfile ⟨hc.1, hc.2.2.2.2, hc.2.2.1⟩, if_neg hfile, if_neg hfile]
    · rw [if_neg, mergedEntry, mergedEntry, lastWritten_append, if_neg hstores]
      rintro ⟨hfound, htext, -, hsize, -⟩
      exact hstores (decide_eq_true ⟨htext, (hkey hfound).symm, hsize⟩)

end Replay

section Length

variable {table : Table}

/-- What the checks of a new path look at. -/
def outline (node : FileNode ArmFsType) : Bytes × ArmFsType := (node.path, node.type)

theorem canPush_outline {other : Table} (h : other.map outline = table.map outline)
    (path : Bytes) : canPush other path = canPush table path := by
  have hlen : other.length = table.length := by
    rw [← List.length_map outline, h, List.length_map]
  have htypes : ∀ path, (lookup FileNode.path other path).map outline =
      (lookup FileNode.path table path).map outline := by
    intro path
    have hother := lookup_map outline Prod.fst other path
    rw [h] at hother
    exact hother.symm.trans (lookup_map outline Prod.fst table path)
  have hparent : parentOk other path = parentOk table path := by
    simp only [parentOk]
    split
    · rfl
    · have htype := htypes (parentDirectory (strcopyLimit path fsPathMax))
      generalize lookup FileNode.path other _ = found at htype ⊢
      generalize lookup FileNode.path table _ = found' at htype ⊢
      cases found with
      | none =>
        cases found' with
        | none => rfl
        | some node => cases htype
      | some node =>
        cases found' with
        | none => cases htype
        | some node' =>
          simp only [Option.map_some, Option.some.injEq, outline, Prod.mk.injEq] at htype
          simp only [htype.2]
  rw [canPush, canPush, hparent, hlen]

/-- The replay appends nothing exactly when no record that could be stored under a new path has
room and a parent. -/
theorem length_foldl_loadNode_iff (records : Table) :
    (records.foldl loadNode table).length = table.length ↔
      ∀ record ∈ records, Storable record → record.path ∉ table.map FileNode.path →
        canPush table record.path = false := by
  induction records generalizing table with
  | nil => simp
  | cons record records ih =>
    rw [List.foldl_cons, List.forall_mem_cons]
    cases loadNode_effect table record with
    | skipped why same =>
      rw [same, ih]
      refine ⟨fun h => ⟨?_, h⟩, fun h => h.2⟩
      intro hgood habsent
      cases why with
      | unfit bad => exact absurd hgood bad
      | taken slot first =>
        rw [slotOf_eq_none.mpr habsent] at first
        cases first
      | refused _ full => exact full
    | pushed good absent room push =>
      have hlonger := (paths_prefix_foldl (loadNode table record) records).length_le
      rw [List.length_map, List.length_map] at hlonger
      constructor
      · intro hlen
        rw [hlen, push, List.length_append, List.length_singleton] at hlonger
        omega
      · intro h
        rw [h.1 good absent] at room
        cases room
    | stored good slot first hslot file text store =>
      have hpath := (slotOf_eq_some first).2
      have hpaths : (table.set slot record).map FileNode.path = table.map FileNode.path :=
        map_set hslot hpath.symm
      have houtline : (table.set slot record).map outline = table.map outline :=
        map_set hslot (by rw [outline, outline, hpath, file, text])
      have hfound : record.path ∈ table.map FileNode.path := by
        rw [← hpath]
        exact List.mem_map_of_mem (List.getElem_mem hslot)
      have hrest := @ih (table.set slot record)
      simp only [hpaths, canPush_outline houtline, List.length_set] at hrest
      rw [store, hrest]
      exact ⟨fun h => ⟨fun _ habsent => absurd hfound habsent, h⟩, fun h => h.2⟩

end Length

section Atomic

/-- Replaying the records changes nothing: none of them can be added, and every file they write
already holds the content written last. -/
structure Inert (fs : ArmFs) (records : Table) : Prop where
  added : ∀ record ∈ records, Storable record → record.path ∉ fs.nodes.map FileNode.path →
    canPush fs.nodes record.path = false
  written : ∀ entry, fsEntry fs entry.path = some entry → entry.type = .text →
    entry.path.head? = some slash →
    ∀ data, lastWritten records entry.path = some data → entry.rewritten data = entry

theorem foldl_restoreNode_entries_iff (fs : ArmFs) {records : Table}
    (hrecords : ∀ record ∈ records, NulFree record.path ∧ record.path.length < fsPathMax) :
    (records.foldl restoreNode fs).entries = fs.entries ↔ Inert fs records := by
  have hlength : (records.foldl restoreNode fs).entries.length = fs.entries.length ↔
      ∀ record ∈ records, Storable record → record.path ∉ fs.nodes.map FileNode.path →
        canPush fs.nodes record.path = false := by
    rw [← length_foldl_loadNode_iff, ← foldl_restoreNode_records hrecords, length_nodes,
      length_nodes]
  constructor
  · intro hsame
    refine ⟨hlength.mp (by rw [hsame]), ?_⟩
    intro entry hentry htext habsolute data hdata
    obtain ⟨slot, hfind, hslot⟩ := lookup_eq_some_iff.mp hentry
    have hmerged := getElem?_foldl_restoreNode hrecords hslot
    rw [hsame, hslot, mergedEntry, if_pos ⟨hfind, htext, habsolute⟩, hdata] at hmerged
    exact (Option.some.inj hmerged).symm
  · intro hinert
    have hlen := hlength.mpr hinert.added
    apply List.ext_getElem?
    intro slot
    cases hslot : fs.entries[slot]? with
    | none =>
      rw [List.getElem?_eq_none_iff] at hslot ⊢
      rw [hlen]
      exact hslot
    | some entry =>
      rw [getElem?_foldl_restoreNode hrecords hslot, mergedEntry]
      congr 1
      split
      · rename_i hfile
        obtain ⟨hfind, htext, habsolute⟩ := hfile
        split
        · rfl
        · rename_i data hdata
          exact hinert.written entry (lookup_eq_some_iff.mpr ⟨slot, hfind, hslot⟩) htext
            habsolute data hdata
      · rfl

/-- The call reads inside the buffer only, comes to an end, and leaves the table as it was when
it fails. -/
def RestoresSafely (fs : ArmFs) (buffer : Bytes) : Prop :=
  persistDeserializeInside fs buffer = some (persistDeserialize fs buffer) ∧
    ((persistDeserialize fs buffer).1 = false →
      (persistDeserialize fs buffer).2.entries = fs.entries)

/-- Restoring is atomic exactly for a snapshot that is complete or whose records in front of the
damage change nothing. -/
theorem restoresSafely_iff (fs : ArmFs) (buffer : Bytes) :
    RestoresSafely fs buffer ↔ WellFormed buffer ∨ Inert fs (stateRecords fsPathMax buffer) := by
  have hrecords : ∀ record ∈ stateRecords fsPathMax buffer,
      NulFree record.path ∧ record.path.length < fsPathMax := fun record h => mem_stateRecords h
  rw [RestoresSafely, persistDeserialize_records, foldl_restoreNode_entries_iff fs hrecords,
    ← persistDeserialize_answer fs, ← Bool.not_eq_true, ← or_iff_not_imp_left]
  exact and_iff_right (persistDeserializeInside_eq fs buffer)

/-- A snapshot of two records, cut off behind the first, a directory. -/
def cutSnapshot : Bytes :=
  persistHeader 2 ++ (writeLe16 2 ++ (writeLe16 ArmFsType.dir.code ++ (writeLe32 0 ++ ascii "/A")))

/-- The record in front of the cut. -/
def cutRecord : FileNode ArmFsType := ⟨ascii "/A", .dir, []⟩

theorem cutSnapshot_records : stateRecords fsPathMax cutSnapshot = [cutRecord] := by decide

theorem cutRecord_storable : Storable cutRecord := by
  refine ⟨by decide, fun _ => by decide, fun htext => ?_⟩
  cases htext

/-- The directory of a damaged snapshot is in the seeded table although restoring failed. -/
theorem not_restoresSafely : ¬ ∀ (fs : ArmFs) (buffer : Bytes), RestoresSafely fs buffer := by
  intro h
  obtain ⟨fs, hseed⟩ : ∃ fs : ArmFs, fs.nodes = seedTable :=
    ⟨_, (fsSeed_nodes (ArmFs.empty unsaved)).1⟩
  have hfails : (persistDeserialize fs cutSnapshot).1 = false := by
    rw [← Bool.not_eq_true, persistDeserialize_answer]
    intro hwell
    exact absurd hwell.complete (by decide)
  have hsame := (h fs cutSnapshot).2 hfails
  have hnodes := @foldl_restoreNode_records fs (stateRecords fsPathMax cutSnapshot)
    fun record hrecord => mem_stateRecords hrecord
  rw [persistDeserialize_records] at hsame
  rw [ArmFs.nodes, hsame, ← ArmFs.nodes, hseed, cutSnapshot_records] at hnodes
  have hfresh : cutRecord.path ∉ seedTable.map FileNode.path := by decide +kernel
  have hroom : canPush seedTable cutRecord.path = true := by decide +kernel
  have hfull := (length_foldl_loadNode_iff [cutRecord]).mp (congrArg List.length hnodes.symm)
    cutRecord (by simp) cutRecord_storable hfresh
  rw [hroom] at hfull
  cases hfull

end Atomic

end SnsxOS.Arm64
