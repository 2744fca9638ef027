import SnsxOS.Arm64.Reboot
import SnsxOS.Arm64.RoundTrip

/-!
# Applying a snapshot to a live table

RESCAN in the disk manager runs `persist_discover` over the table of the running session. The
records of the snapshot are replayed one after another: a record for an existing file replaces
its content, every other entry stays as it is.
-/

namespace SnsxOS.Arm64

open Framework

/-- The records of a snapshot up to the first that is cut off or whose path, with its
terminator, is longer than `limit`. -/
def persistRecords (limit : Nat) (buffer : Bytes) : Nat → Nat → Table
  | 0, _ => []
  | remaining + 1, offset =>
      if buffer.length < offset + persistEntryHeaderSize then []
      else
        let pathLength := (readLe16 buffer offset).toNat
        let type := readLe16 buffer (offset + 2)
        let size := (readLe32 buffer (offset + 4)).toNat
        let offset := offset + persistEntryHeaderSize
        if limit < pathLength + 1 ∨ buffer.length < offset + pathLength + size then []
        else
          ⟨cString ((buffer.drop offset).take pathLength),
            if type = ArmFsType.dir.code then .dir else .text,
            (buffer.drop (offset + pathLength)).take size⟩ ::
              persistRecords limit buffer remaining (offset + pathLength + size)

/-- The records behind the header of `STATE.BIN`. -/
def stateRecords (limit : Nat) (buffer : Bytes) : Table :=
  if buffer.length < persistHeaderSize ∨
      readLe32 buffer 0 ≠ snsxStateMagic ∨ readLe32 buffer 4 ≠ snsxStateVersion then []
  else persistRecords limit buffer (readLe32 buffer 8).toNat persistHeaderSize

section Records

theorem persistDeserializeLoop_records (buffer : Bytes) (remaining offset : Nat) (fs : ArmFs) :
    (persistDeserializeLoop buffer remaining offset fs).2 =
      (persistRecords fsPathMax buffer remaining offset).foldl restoreNode fs := by
  induction remaining generalizing offset fs with
  | zero => rfl
  | succ remaining ih =>
    rw [persistDeserializeLoop, persistRecords]
    split
    · rfl
    · dsimp only
      split
      · rfl
      · rw [ih, List.foldl_cons]
        congr 1
        rw [restoreNode]
        by_cases hdir : readLe16 buffer (offset + 2) = ArmFsType.dir.code
        · rw [if_pos hdir, if_pos hdir, if_pos rfl]
        · rw [if_neg hdir, if_neg hdir, if_neg fun h : ArmFsType.text = .dir => by cases h]

/-- Applying a snapshot replays its records. -/
theorem persistDeserialize_records (fs : ArmFs) (buffer : Bytes) :
    (persistDeserialize fs buffer).2 = (stateRecords fsPathMax buffer).foldl restoreNode fs := by
  rw [persistDeserialize, stateRecords]
  by_cases hshort : buffer.length < persistHeaderSize
  · rw [if_pos hshort, if_pos (Or.inl hshort)]
    rfl
  · by_cases hheader : readLe32 buffer 0 ≠ snsxStateMagic ∨ readLe32 buffer 4 ≠ snsxStateVersion
    · rw [if_neg hshort, if_pos hheader, if_pos (Or.inr hheader)]
      rfl
    · rw [if_neg hshort, if_neg hheader, if_neg (not_or.mpr ⟨hshort, hheader⟩)]
      exact persistDeserializeLoop_records buffer _ _ fs

theorem mem_persistRecords {limit : Nat} {buffer : Bytes} {remaining offset : Nat}
    {node : FileNode ArmFsType} (h : node ∈ persistRecords limit buffer remaining offset) :
    NulFree node.path ∧ node.path.length < limit := by
  induction remaining generalizing offset with
  | zero => cases h
  | succ remaining ih =>
    rw [persistRecords] at h
    split at h
    · cases h
    · dsimp only at h
      split at h
      · cases h
      · rename_i hfits
        rcases List.mem_cons.mp h with rfl | h
        · refine ⟨cString_nulFree _, ?_⟩
          have hlen := cString_length_le ((buffer.drop (offset + persistEntryHeaderSize)).take
            (readLe16 buffer offset).toNat)
          rw [List.length_take] at hlen
          dsimp only
          omega
        · exact ih h

/-- The path of a record is a C string that fits. -/
theorem mem_stateRecords {limit : Nat} {buffer : Bytes} {node : FileNode ArmFsType}
    (h : node ∈ stateRecords limit buffer) : NulFree node.path ∧ node.path.length < limit := by
  rw [stateRecords] at h
  split at h
  · cases h
  · exact mem_persistRecords h

/-- A longer limit on the paths only adds records at the end. -/
theorem persistRecords_prefix {limit limit' : Nat} (h : limit ≤ limit') (buffer : Bytes)
    (remaining offset : Nat) :
    persistRecords limit buffer remaining offset <+:
      persistRecords limit' buffer remaining offset := by
  induction remaining generalizing offset with
  | zero => exact List.prefix_rfl
  | succ remaining ih =>
    rw [persistRecords, persistRecords]
    split
    · exact List.prefix_rfl
    · dsimp only
      split
      · exact List.nil_prefix
      · rename_i hfits
        have hwide : ¬ (limit' < (readLe16 buffer offset).toNat + 1 ∨
            buffer.length < offset + persistEntryHeaderSize + (readLe16 buffer offset).toNat +
              (readLe32 buffer (offset + 4)).toNat) := by omega
        rw [if_neg hwide]
        exact List.cons_prefix_cons.mpr ⟨rfl, ih _⟩

theorem stateRecords_mono {limit limit' : Nat} (h : limit ≤ limit') (buffer : Bytes) :
    stateRecords limit buffer <+: stateRecords limit' buffer := by
  rw [stateRecords, stateRecords]
  split
  · exact List.prefix_rfl
  · exact persistRecords_prefix h buffer _ _

/-- The format has room for every path: all entries that were saved can be read. -/
theorem persistRecords_entries {entries : List ArmFsEntry}
    (h : ∀ entry ∈ entries, Sized entry) (pre : Bytes) :
    persistRecords (2 ^ 16) (pre ++ entries.flatMap persistEntry) entries.length pre.length =
      entries.map ArmFsEntry.node := by
  induction entries generalizing pre with
  | nil => rfl
  | cons entry entries ih =>
    have hsized := h entry (by simp)
    obtain ⟨hpath, htype, hsize⟩ :=
      persistEntry_fields hsized pre (entries.flatMap persistEntry)
    obtain ⟨hpathBytes, hdata⟩ := persistEntry_parts hsized pre (entries.flatMap persistEntry)
    have hlen := persistEntry_length hsized
    have hlt := path_length_lt entry
    have hrest := ih (fun e he => h e (by simp [he])) (pre ++ persistEntry entry)
    have htotal : (pre ++ (persistEntry entry ++ entries.flatMap persistEntry)).length =
        pre.length + (persistEntryHeaderSize + entry.path.length + entry.size) +
          (entries.flatMap persistEntry).length := by
      rw [List.length_append, List.length_append, hlen]
      omega
    rw [List.append_assoc] at hrest
    rw [List.flatMap_cons, List.length_cons, persistRecords, if_neg (by omega)]
    dsimp only
    rw [hpath, htype, hsize, hpathBytes, hdata, cString_of_nulFree (path_nulFree entry),
      if_neg (by omega), List.map_cons]
    have hoffset : pre.length + persistEntryHeaderSize + entry.path.length + entry.size =
        (pre ++ persistEntry entry).length := by
      rw [List.length_append, hlen]
      omega
    rw [hoffset, hrest]
    congr 1
    rw [ArmFsEntry.node]
    congr 1
    cases entry.type <;> rfl

theorem stateRecords_serialize {fs : ArmFs} {bytes : Bytes} (hsized : AllEntries Sized fs)
    (h : persistSerialize fs.entries persistMaxStateSize = some bytes) :
    stateRecords (2 ^ 16) bytes = fs.nodes := by
  have hnat : (UInt32.ofNat fs.entries.length).toNat = fs.entries.length := by
    rw [UInt32.toNat_ofNat']
    exact Nat.mod_eq_of_lt (lt_of_le_of_lt fs.entries_le (by decide))
  have hmagic : readLe32 (persistHeader (UInt32.ofNat fs.entries.length) ++
      fs.entries.flatMap persistEntry) 0 = snsxStateMagic := le32_bytes _
  have hversion : readLe32 (persistHeader (UInt32.ofNat fs.entries.length) ++
      fs.entries.flatMap persistEntry) 4 = snsxStateVersion := le32_bytes _
  have hentries : readLe32 (persistHeader (UInt32.ofNat fs.entries.length) ++
      fs.entries.flatMap persistEntry) 8 = UInt32.ofNat fs.entries.length := le32_bytes _
  have hlen : persistHeaderSize ≤ (persistHeader (UInt32.ofNat fs.entries.length) ++
      fs.entries.flatMap persistEntry).length := by
    simp [persistHeader, writeLe32, persistHeaderSize]
  rw [persistSerialize_some h, stateRecords, hmagic, hversion, hentries, hnat,
    if_neg (by simpa using hlen)]
  exact persistRecords_entries hsized (persistHeader (UInt32.ofNat fs.entries.length))

end Records

section Restore

variable {fs : ArmFs}

/-- Storing under a path that fits, in any table. -/
theorem fsWrite_nodes {path : Bytes} (hpath : NulFree path) (hfit : path.length < fsPathMax)
    (data : Bytes) (type : ArmFsType) :
    (fsWrite fs path data type).2.nodes = (tableWrite fs.nodes path data type).2 := by
  rw [fsWrite, tableWrite]
  by_cases hbad : path.head? ≠ some slash ∨ fsMaxFileSize < data.length ∨ type = .dir
  · rw [if_pos hbad, if_pos hbad]
  have hdata : data.length ≤ fsMaxFileSize := not_lt.mp fun h => hbad (Or.inr (Or.inl h))
  rw [if_neg hbad, if_neg hbad, ← fsFind_nodes]
  cases hfind : fsFind fs path with
  | some slot =>
    obtain ⟨hslot, hkey⟩ := slotOf_eq_some hfind
    dsimp only
    rw [typeAt_nodes]
    split
    · rfl
    · rw [persistMarkDirty_nodes]
      apply nodes_modify hslot
      have hstr : fs.entries[slot].memory.str = path := hkey
      have hclear : fs.entries[slot].clearData.memory.str = path := by
        rw [← hstr]
        exact Buffer.str_write_of_lt _ _ (by rw [hstr]; exact hfit)
          (by rw [List.length_replicate])
      have hstored : (fs.entries[slot].clearData.setData data).memory.str = path := by
        rw [← hclear]
        exact Buffer.str_write_of_lt _ _ (by rw [hclear]; exact hfit) (by omega)
      simp only [ArmFsEntry.node, ArmFsEntry.path, ArmFsEntry.bytes]
      congr 1
      · exact hstored.trans hstr.symm
      · exact setData_bytes _ hdata
  | none =>
    dsimp only
    rw [canPush, ← fsParentExists_nodes, length_nodes, fsPush_eq]
    by_cases hparent : fsParentExists fs path = true
    · by_cases hroom : fs.entries.length < fsMaxEntries ∧ path.length + 1 ≤ fsPathMax
      · rw [dif_pos hroom]
        simp only [hparent, hroom, Bool.not_true, Bool.false_eq_true, if_false, and_self,
          decide_true, Bool.and_true, if_true]
        rw [persistMarkDirty_nodes]
        exact (push_setData hpath hroom.2 hdata type hroom.1).1
      · simp only [hparent, hroom, Bool.not_true, Bool.false_eq_true, if_false, decide_false,
          Bool.and_false, dite_false]
    · simp only [hparent, Bool.not_false, if_true, Bool.false_and, Bool.false_eq_true,
        if_false]

theorem fsMkdir_nodes {path : Bytes} (hpath : NulFree path) :
    (fsMkdir fs path).2.nodes = (tableMkdir fs.nodes path).2 := by
  rw [fsMkdir, tableMkdir]
  by_cases hbad : path.head? ≠ some slash ∨ path = [slash]
  · rw [if_pos hbad, if_pos hbad]
  rw [if_neg hbad, if_neg hbad, fsEntry_nodes]
  cases fsEntry fs path with
  | some entry => rfl
  | none =>
    dsimp only [Option.map_none]
    rw [canPush, ← fsParentExists_nodes, length_nodes, fsPush_eq]
    by_cases hparent : fsParentExists fs path = true
    · by_cases hroom : fs.entries.length < fsMaxEntries ∧ path.length + 1 ≤ fsPathMax
      · have hnode : (ArmFsEntry.fresh path .dir).node = ⟨path, .dir, []⟩ := by
          rw [ArmFsEntry.node, fresh_path hpath hroom.2, ArmFsEntry.bytes]
          simp [ArmFsEntry.fresh]
        rw [dif_pos hroom]
        simp only [hparent, hroom, Bool.not_true, Bool.false_eq_true, if_false, and_self,
          decide_true, Bool.and_true, if_true]
        rw [persistMarkDirty_nodes, ← hnode]
        simp [ArmFs.nodes, ArmFs.push]
      · simp only [hparent, hroom, Bool.not_true, Bool.false_eq_true, if_false, decide_false,
          Bool.and_false, dite_false]
    · simp only [hparent, Bool.not_false, if_true, Bool.false_and, Bool.false_eq_true,
        if_false]

/-- Records are replayed on the nodes of any table. -/
theorem foldl_restoreNode_records {records : Table}
    (h : ∀ node ∈ records, NulFree node.path ∧ node.path.length < fsPathMax) :
    (records.foldl restoreNode fs).nodes = records.foldl loadNode fs.nodes := by
  induction records generalizing fs with
  | nil => rfl
  | cons node records ih =>
    obtain ⟨hpath, hfit⟩ := h node (by simp)
    have hnode : (restoreNode fs node).nodes = loadNode fs.nodes node := by
      rw [restoreNode, loadNode]
      split
      · exact fsMkdir_nodes hpath
      · exact fsWrite_nodes hpath hfit node.bytes .text
    rw [List.foldl_cons, List.foldl_cons, ← hnode]
    exact ih fun n hn => h n (by simp [hn])

/-- The records `persist_discover` replays. -/
def foundRecords (volumes : List Volume) : Table :=
  match foundState volumes with
  | none => []
  | some bytes => stateRecords fsPathMax bytes

theorem foundState_eq_none {volumes : List Volume} (h : volumes.findIdx? holdsState = none) :
    foundState volumes = none := by
  rw [List.findIdx?_eq_none_iff] at h
  rw [foundState, List.find?_eq_none.mpr fun v hv => by simp [h v hv]]
  rfl

theorem applyState_records (fs : ArmFs) (volumes : List Volume) :
    (applyState fs volumes).nodes = (foundRecords volumes).foldl loadNode fs.nodes := by
  rw [applyState, foundRecords]
  cases foundState volumes with
  | none => rfl
  | some bytes =>
    dsimp only
    rw [persistDeserialize_records]
    exact foldl_restoreNode_records fun node hnode => mem_stateRecords hnode

theorem persistDiscover_records (fs : ArmFs) (volumes : List Volume) :
    (persistDiscover fs volumes).nodes = (foundRecords volumes).foldl loadNode fs.nodes := by
  rw [persistDiscover]
  cases hindex : volumes.findIdx? holdsState with
  | none =>
    rw [foundRecords, foundState_eq_none hindex]
    dsimp only
    split
    · rfl
    · rfl
  | some index =>
    exact applyState_records { fs with persist := ⟨true, false, true, index⟩ } volumes

end Restore

section Merge

/-- A record that `fs_write` stores when its path is that of a file. -/
def Stores (path : Bytes) (record : FileNode ArmFsType) : Bool :=
  decide (record.type = .text ∧ record.path = path ∧ record.bytes.length ≤ fsMaxFileSize)

/-- The content the last such record gives to the path. -/
def lastWritten (records : Table) (path : Bytes) : Option Bytes :=
  (records.filter (Stores path)).getLast?.map FileNode.bytes

theorem lastWritten_append (records : Table) (record : FileNode ArmFsType) (path : Bytes) :
    lastWritten (records ++ [record]) path =
      if Stores path record = true then some record.bytes else lastWritten records path := by
  rw [lastWritten, List.filter_append]
  by_cases h : Stores path record = true
  · rw [if_pos h, List.filter_cons_of_pos h, List.filter_nil, List.getLast?_concat]
    rfl
  · rw [if_neg h, List.filter_cons_of_neg h, List.filter_nil, List.append_nil, lastWritten]

/-- A file whose path is found first takes every record that stores there. -/
theorem Skips.not_stores {table : Table} {record : FileNode ArmFsType} (h : Skips table record)
    {slot : Nat} {node : FileNode ArmFsType}
    (hslot : slotOf FileNode.path table record.path = some slot) (hnode : table[slot]? = some node)
    (htext : node.type = .text) (hhead : record.path.head? = some slash) :
    Stores record.path record = false := by
  rw [Stores, decide_eq_false_iff_not]
  rintro ⟨hrecord, -, hsize⟩
  have hfile : ¬ record.type = .dir := by
    rw [hrecord]
    intro hdir
    cases hdir
  cases h with
  | unfit hbad => exact hbad ⟨hhead, fun hdir => absurd hdir hfile, fun _ => hsize⟩
  | taken slot' hfirst hlt hdir =>
    obtain rfl : slot' = slot := Option.some.inj (hfirst.symm.trans hslot)
    rw [List.getElem?_eq_getElem hlt] at hnode
    rcases hdir with hdir | hdir
    · exact hfile hdir
    · rw [Option.some.inj hnode, htext] at hdir
      cases hdir
  | refused habsent _ =>
    rw [slotOf_eq_none.mpr habsent] at hslot
    cases hslot

/-- What an entry of the table becomes when the records are replayed. -/
def merged (table records : Table) (slot : Nat) (node : FileNode ArmFsType) :
    FileNode ArmFsType :=
  if slotOf FileNode.path table node.path = some slot ∧ node.type = .text ∧
      node.path.head? = some slash then
    { node with bytes := (lastWritten records node.path).getD node.bytes }
  else node

theorem merged_path (table records : Table) (slot : Nat) (node : FileNode ArmFsType) :
    (merged table records slot node).path = node.path := by
  rw [merged]
  split
  · rfl
  · rfl

theorem merged_type (table records : Table) (slot : Nat) (node : FileNode ArmFsType) :
    (merged table records slot node).type = node.type := by
  rw [merged]
  split
  · rfl
  · rfl

/-- Each entry of the table has its merged content after the replay. -/
theorem getElem?_foldl_loadNode {table : Table} (records : Table) {slot : Nat}
    {node : FileNode ArmFsType} (h : table[slot]? = some node) :
    (records.foldl loadNode table)[slot]? = some (merged table records slot node) := by
  induction records using List.reverseRecOn with
  | nil => simpa [merged, lastWritten] using h
  | append_singleton records record ih =>
    have hprefix := paths_prefix_foldl table records
    rw [List.foldl_append, List.foldl_cons, List.foldl_nil]
    generalize records.foldl loadNode table = loaded at *
    obtain ⟨hlt, hnode⟩ := List.getElem?_eq_some_iff.mp h
    have hstores : ∀ path, Stores path record = true → record.path = path := fun path hs =>
      (of_decide_eq_true hs).2.1
    have hslotOf := @slotOf_prefix_iff _ _ _ FileNode.path _ _ hprefix node.path slot hlt
    have hmerged : merged table (records ++ [record]) slot node =
        if Stores node.path record = true ∧ slotOf FileNode.path loaded node.path = some slot ∧
            node.type = .text ∧ node.path.head? = some slash then
          { node with bytes := record.bytes }
        else merged table records slot node := by
      rw [merged, merged, lastWritten_append]
      simp only [hslotOf]
      by_cases hs : Stores node.path record = true
      · simp only [hs, true_and, if_true, Option.getD_some]
        split
        · rfl
        · rfl
      · simp only [hs, Bool.false_eq_true, false_and, if_false]
    rw [hmerged]
    cases loadNode_effect loaded record with
    | skipped hwhy hsame =>
      rw [hsame, ih, if_neg]
      rintro ⟨hs, hslot, htype, hhead⟩
      have hpath := hstores _ hs
      rw [← hpath] at hs hslot hhead
      have hfalse := hwhy.not_stores hslot ih (by rw [merged_type, htype]) hhead
      rw [hfalse] at hs
      cases hs
    | pushed _ hfresh _ hpush =>
      have hnew : ¬ Stores node.path record = true := by
        intro hs
        rw [hstores _ hs] at hfresh
        apply hfresh
        rw [← merged_path table records slot node]
        exact List.mem_map_of_mem (List.mem_of_getElem? ih)
      rw [hpush, if_neg fun hc => hnew hc.1,
        List.getElem?_append_left (List.getElem?_eq_some_iff.mp ih).1, ih]
    | stored hgood target hfirst htarget hfile htext hstore =>
      rw [hstore]
      by_cases hhit : target = slot
      · subst hhit
        have hsame : loaded[target] = merged table records target node :=
          (List.getElem?_eq_some_iff.mp ih).2
        have hpath : record.path = node.path := by
          rw [← (slotOf_eq_some hfirst).2, hsame, merged_path]
        have hstored : Stores node.path record = true :=
          decide_eq_true ⟨htext, hpath, hgood.size_le htext⟩
        rw [hsame, merged_type] at hfile
        have habsolute := hgood.absolute
        rw [hpath] at hfirst habsolute
        rw [List.getElem?_set_self htarget, if_pos ⟨hstored, hfirst, hfile, habsolute⟩, ← hpath,
          hfile, ← htext]
      · rw [List.getElem?_set_ne hhit, ih, if_neg]
        rintro ⟨hs, hslot, -, -⟩
        rw [hstores _ hs, hslot] at hfirst
        exact hhit (Option.some.inj hfirst).symm

theorem mem_of_lastWritten {records : Table} {path data : Bytes}
    (h : lastWritten records path = some data) : ⟨path, .text, data⟩ ∈ records := by
  obtain ⟨record, hlast, rfl⟩ := Option.map_eq_some_iff.mp h
  obtain ⟨hmem, hstores⟩ := List.mem_filter.mp (List.mem_of_getLast? hlast)
  obtain ⟨htype, hpath, -⟩ := of_decide_eq_true hstores
  rw [← hpath, ← htype]
  exact hmem

/-- A file the replay added is one of the records. -/
theorem mem_drop_foldl_loadNode {table : Table} (records : Table) {node : FileNode ArmFsType}
    (h : node ∈ (records.foldl loadNode table).drop table.length) :
    node.type = .dir ∨ node ∈ records := by
  induction records using List.reverseRecOn generalizing node with
  | nil =>
    rw [List.foldl_nil, List.drop_length] at h
    cases h
  | append_singleton records record ih =>
    have hlen := (paths_prefix_foldl table records).length_le
    rw [List.length_map, List.length_map] at hlen
    rw [List.foldl_append, List.foldl_cons, List.foldl_nil] at h
    generalize records.foldl loadNode table = loaded at *
    have hold : ∀ m ∈ loaded.drop table.length,
        m.type = .dir ∨ m ∈ records ++ [record] := by
      intro m hmem
      rcases ih hmem with hdir | hrecord
      · exact Or.inl hdir
      · exact Or.inr (List.mem_append_left _ hrecord)
    cases loadNode_effect loaded record with
    | skipped _ hsame =>
      rw [hsame] at h
      exact hold _ h
    | pushed _ _ _ hpush =>
      rw [hpush, List.drop_append_of_le_length hlen] at h
      rcases List.mem_append.mp h with h | h
      · exact hold _ h
      · rw [List.mem_singleton.mp h, stripped]
        split
        · exact Or.inl rfl
        · exact Or.inr (by simp)
    | stored _ slot _ _ _ _ hstore =>
      rw [hstore, List.drop_set] at h
      split at h
      · exact hold _ h
      · rcases List.mem_or_eq_of_mem_set h with h | rfl
        · exact hold _ h
        · exact Or.inr (by simp)

/-- For every file the last record of its path, if there is one, holds its content. -/
def RecordsCurrent (records table : Table) : Prop :=
  ∀ node, lookup FileNode.path table node.path = some node → node.type = .text →
    node.path.head? = some slash →
    ∀ data, lastWritten records node.path = some data → data = node.bytes

/-- A replay keeps the table exactly when its records are current. -/
theorem prefix_foldl_loadNode_iff (table records : Table) :
    table <+: records.foldl loadNode table ↔ RecordsCurrent records table := by
  rw [List.prefix_iff_getElem?]
  constructor
  · intro hkept node hlookup htext habs data hdata
    obtain ⟨slot, hslot, hnode⟩ := lookup_eq_some_iff.mp hlookup
    obtain ⟨hlt, hget⟩ := List.getElem?_eq_some_iff.mp hnode
    have hsame := hkept slot hlt
    rw [getElem?_foldl_loadNode records hnode, hget, merged, if_pos ⟨hslot, htext, habs⟩,
      hdata] at hsame
    exact congrArg FileNode.bytes (Option.some.inj hsame)
  · intro hcurrent slot hlt
    rw [getElem?_foldl_loadNode records (List.getElem?_eq_getElem hlt), merged]
    split
    · rename_i hfile
      obtain ⟨hslot, htext, habs⟩ := hfile
      have hlookup := lookup_eq_some_iff.mpr ⟨slot, hslot, List.getElem?_eq_getElem hlt⟩
      cases hdata : lastWritten records table[slot].path with
      | none => rfl
      | some data =>
        have hbytes := hcurrent _ hlookup htext habs data hdata
        rw [Option.getD_some, hbytes]
    · rfl

end Merge

section Edits

/-- Rescanning keeps every entry of the live table as it is exactly when the records of the
snapshot it finds are current. -/
theorem rescan_keeps_iff (fs : ArmFs) (volumes : List Volume) :
    fs.nodes <+: (persistDiscover fs volumes).nodes ↔
      RecordsCurrent (foundRecords volumes) fs.nodes := by
  rw [persistDiscover_records]
  exact prefix_foldl_loadNode_iff fs.nodes (foundRecords volumes)

def note : Bytes := ascii "/NOTE"

/-- A session that wrote a note. -/
def noted : ArmFs := run fsStep (ArmFs.empty unsaved) [.write note (ascii "old") .text]

theorem noted_nodes : noted.nodes = [⟨note, .text, ascii "old"⟩] ∧ EntriesOk noted := by
  have hfits : Guarded tableStep OpFits (ArmFs.empty unsaved).nodes
      [.write note (ascii "old") .text] := ⟨by decide, trivial⟩
  obtain ⟨hnodes, hok⟩ := run_refines (empty_entriesOk unsaved) hfits
  exact ⟨hnodes.trans (by decide), hok⟩

theorem noted_written : ∃ bytes, writtenState noted = some bytes := by
  have hsize : persistHeaderSize + entriesSize noted.nodes ≤ persistMaxStateSize := by
    rw [noted_nodes.1]
    decide
  have hpersist : noted.persist = unsaved := run_unsaved rfl _
  rw [writtenState, hpersist, if_pos (by decide)]
  exact ⟨_, persistSerialize_of_le (run_sized unsaved _) hsize⟩

/-- The note is saved, changed, and brought back by rescanning. -/
theorem not_rescan_keeps : ¬ ∀ (fs : ArmFs) (volumes : List Volume),
    fs.persist.dirty = true → fs.nodes <+: (persistDiscover fs volumes).nodes := by
  intro h
  have hsized : AllEntries Sized noted := run_sized unsaved _
  obtain ⟨bytes, hbytes⟩ := noted_written
  have hpersist : noted.persist = unsaved := run_unsaved rfl _
  obtain ⟨saved, hsaved⟩ : ∃ saved, (persistFlushState noted [⟨true, none⟩] true).1 = saved :=
    ⟨_, rfl⟩
  have hflush : saved.nodes = noted.nodes ∧ EntriesOk saved ∧ saved.persist.available = true := by
    rw [← hsaved, persistFlushState, hbytes]
    exact ⟨rfl, noted_nodes.2, by rw [hpersist]; rfl⟩
  obtain ⟨hnodes, hok, havailable⟩ := hflush
  rw [noted_nodes.1] at hnodes
  have hnote : NulFree note := by decide
  have hfits : Guarded tableStep OpFits saved.nodes [.write note (ascii "new") .text] :=
    ⟨hnote, trivial⟩
  obtain ⟨hedited, hok⟩ := run_refines hok hfits
  rw [hnodes] at hedited
  have hdirty : (run fsStep saved [.write note (ascii "new") .text]).persist.dirty = true := by
    rcases fsStep_marks saved (.write note (ascii "new") .text) with hsame | hmarked
    · rw [show run fsStep saved [.write note (ascii "new") .text] = saved from hsame,
        hnodes] at hedited
      exact absurd hedited (by decide)
    · rw [show run fsStep saved [.write note (ascii "new") .text] = fsStep saved _ from rfl,
        hmarked, ArmFs.persistMarkDirty, if_pos havailable]
  have hkept := h _ [⟨true, some bytes⟩] hdirty
  rw [persistDiscover_nodes hsized (writtenState_eq_some hbytes) (foundState_disk hsized hbytes)
    hok, hedited, noted_nodes.1] at hkept
  exact absurd hkept (by decide)

end Edits

end SnsxOS.Arm64
