import SnsxOS.Arm64.Table

/-!
# What every entry keeps

A property of single entries that holds of fresh ones and survives new data and the renaming loop
of `fs_move` holds of every entry in every run.
-/

namespace SnsxOS.Arm64

open Framework

/-- The property survives what the operations do to an entry, moves being restricted to the
given destinations. -/
structure EntryInvariant (P : ArmFsEntry → Prop) (target : Bytes → Prop) : Prop where
  fresh : ∀ (path : Bytes) (type : ArmFsType), path.head? = some slash →
    P (ArmFsEntry.fresh path type)
  clearData : ∀ entry, P entry → P entry.clearData
  setData : ∀ entry (data : Bytes) (type : ArmFsType), P entry → entry.type ≠ .dir →
    type ≠ .dir → data.length ≤ fsMaxFileSize → P { entry.setData data with type := type }
  move : ∀ (source destination : Bytes) entry, target destination → P entry →
    P (fsMoveEntry source destination entry)

def AllEntries (P : ArmFsEntry → Prop) (fs : ArmFs) : Prop := ∀ entry ∈ fs.entries, P entry

/-- The destination of a move is one of the given targets. -/
def FsOp.MovesTo (target : Bytes → Prop) : FsOp → Prop
  | .move _ destination => target destination
  | _ => True

section Steps

variable {P : ArmFsEntry → Prop} {target : Bytes → Prop} {fs : ArmFs}

theorem empty_allEntries (persist : PersistState) : AllEntries P (ArmFs.empty persist) :=
  fun _ hm => absurd hm List.not_mem_nil

theorem AllEntries.persistMarkDirty (h : AllEntries P fs) : AllEntries P fs.persistMarkDirty := by
  rw [AllEntries, persistMarkDirty_entries]
  exact h

theorem AllEntries.push (h : AllEntries P fs) {entry : ArmFsEntry} (he : P entry)
    (hroom : fs.entries.length < fsMaxEntries) : AllEntries P (fs.push entry hroom) := by
  intro m hm
  rcases List.mem_append.mp hm with hm | hm
  · exact h m hm
  · rw [List.mem_singleton.mp hm]
    exact he

theorem AllEntries.modify (h : AllEntries P fs) {slot : Nat} (hslot : slot < fs.entries.length)
    {f : ArmFsEntry → ArmFsEntry} (he : P (f fs.entries[slot])) :
    AllEntries P (fs.modify slot f) := by
  intro m hm
  rcases mem_modify hslot hm with rfl | hm
  · exact he
  · exact h m hm

theorem fsWrite_allEntries (hP : EntryInvariant P target) (h : AllEntries P fs)
    (path data : Bytes) (type : ArmFsType) : AllEntries P (fsWrite fs path data type).2 := by
  rw [fsWrite]
  split
  · exact h
  rename_i hbad
  push Not at hbad
  obtain ⟨habs, hdata, htype⟩ := hbad
  cases hfind : fsFind fs path with
  | some slot =>
    obtain ⟨hslot, -⟩ := slotOf_eq_some hfind
    dsimp only
    split
    · exact h
    · rename_i hfile
      rw [List.getElem?_eq_getElem hslot, Option.map_some, Option.some.injEq] at hfile
      have hclear := hP.clearData _ (h _ (List.getElem_mem hslot))
      exact (h.modify hslot (hP.setData _ data type hclear hfile htype hdata)).persistMarkDirty
  | none =>
    dsimp only
    split
    · exact h
    · rw [fsPush_eq]
      split
      · exact h
      · rename_i fs' hpush
        split at hpush
        · rename_i hroom
          obtain rfl := (Option.some.inj hpush).symm
          have hfresh := hP.fresh path type habs
          refine ((h.push hfresh hroom.1).modify ?_ ?_).persistMarkDirty
          · simp [ArmFs.push]
          · have hlast : (fs.push (ArmFsEntry.fresh path type) hroom.1).entries[
                (fs.push (ArmFsEntry.fresh path type) hroom.1).entries.length - 1]? =
                some (ArmFsEntry.fresh path type) := by
              simp [ArmFs.push]
            rw [(List.getElem_eq_iff _).mpr hlast]
            exact hP.setData _ data type hfresh htype htype hdata
        · cases hpush

theorem fsMkdir_allEntries (hP : EntryInvariant P target) (h : AllEntries P fs) (path : Bytes) :
    AllEntries P (fsMkdir fs path).2 := by
  rw [fsMkdir]
  split
  · exact h
  rename_i hbad
  push Not at hbad
  split
  · exact h
  · split
    · exact h
    · rw [fsPush_eq]
      split
      · exact h
      · rename_i fs' hpush
        split at hpush
        · rename_i hroom
          obtain rfl := (Option.some.inj hpush).symm
          exact (h.push (hP.fresh path .dir hbad.1) hroom.1).persistMarkDirty
        · cases hpush

theorem fsRemove_allEntries (h : AllEntries P fs) (path : Bytes) :
    AllEntries P (fsRemove fs path).2 := by
  rw [fsRemove]
  split
  · exact h
  · split
    · exact h
    · split
      · exact h
      · apply AllEntries.persistMarkDirty
        exact fun entry hm => h entry (List.mem_of_mem_eraseIdx hm)

theorem fsCopy_allEntries (hP : EntryInvariant P target) (h : AllEntries P fs)
    (source destination : Bytes) : AllEntries P (fsCopy fs source destination).2 := by
  rw [fsCopy]
  split
  · exact h
  · split
    · exact h
    · exact fsWrite_allEntries hP h _ _ _

theorem fsMove_allEntries (hP : EntryInvariant P target) (h : AllEntries P fs) (source : Bytes)
    {destination : Bytes} (hdest : target destination) :
    AllEntries P (fsMove fs source destination).2 := by
  rw [fsMove]
  split
  · exact h
  · split
    · exact h
    · split
      · exact h
      · apply AllEntries.persistMarkDirty
        intro m hm
        obtain ⟨entry, he, rfl⟩ := List.mem_map.mp hm
        exact hP.move source destination entry hdest (h entry he)

theorem fsAppendLine_allEntries (hP : EntryInvariant P target) (h : AllEntries P fs)
    (path text : Bytes) : AllEntries P (fsAppendLine fs path text).2 := by
  rw [fsAppendLine]
  split
  · split
    · exact h
    · split
      · exact h
      · split
        · exact h
        · exact fsWrite_allEntries hP h _ _ _
  · split
    · exact h
    · split
      · exact h
      · exact fsWrite_allEntries hP h _ _ _

theorem fsStep_allEntries (hP : EntryInvariant P target) (h : AllEntries P fs) (op : FsOp)
    (hop : op.MovesTo target) : AllEntries P (fsStep fs op) := by
  cases op with
  | mkdir path => exact fsMkdir_allEntries hP h path
  | write path data type => exact fsWrite_allEntries hP h path data type
  | appendLine path text => exact fsAppendLine_allEntries hP h path text
  | remove path => exact fsRemove_allEntries h path
  | copy source destination => exact fsCopy_allEntries hP h source destination
  | move source destination => exact fsMove_allEntries hP h source hop

theorem run_allEntries (hP : EntryInvariant P target) (h : AllEntries P fs) {ops : List FsOp}
    (hops : ∀ op ∈ ops, op.MovesTo target) : AllEntries P (run fsStep fs ops) := by
  induction ops generalizing fs with
  | nil => exact h
  | cons op ops ih =>
    exact ih (fsStep_allEntries hP h op (hops op (by simp))) fun o ho => hops o (by simp [ho])

end Steps

section Instances

/-- The data stays in its field, and a directory has none. -/
structure Sized (entry : ArmFsEntry) : Prop where
  size_le : entry.size ≤ fsMaxFileSize
  dir_empty : entry.type = .dir → entry.size = 0

def Absolute (entry : ArmFsEntry) : Prop := entry.path.head? = some slash

theorem fsMoveEntry_size (source destination : Bytes) (entry : ArmFsEntry) :
    (fsMoveEntry source destination entry).size = entry.size ∧
      (fsMoveEntry source destination entry).type = entry.type := by
  rw [fsMoveEntry]
  split
  · dsimp only
    split
    · exact ⟨rfl, rfl⟩
    · exact ⟨rfl, rfl⟩
  · exact ⟨rfl, rfl⟩

theorem sized_invariant : EntryInvariant Sized fun _ => True where
  fresh _ _ _ := ⟨Nat.zero_le _, fun _ => rfl⟩
  clearData _ h := ⟨h.size_le, h.dir_empty⟩
  setData _ _ _ _ _ htype hdata := ⟨hdata, fun hdir => absurd hdir htype⟩
  move source destination entry _ h := by
    obtain ⟨hsize, htype⟩ := fsMoveEntry_size source destination entry
    refine ⟨?_, fun hdir => ?_⟩
    · rw [hsize]
      exact h.size_le
    · rw [hsize]
      exact h.dir_empty (htype.symm.trans hdir)

theorem run_sized (persist : PersistState) (ops : List FsOp) :
    AllEntries Sized (run fsStep (ArmFs.empty persist) ops) := by
  apply run_allEntries sized_invariant (empty_allEntries persist)
  intro op _
  cases op <;> trivial

theorem absolute_iff (entry : ArmFsEntry) :
    Absolute entry ↔ entry.memory.cells.head? = some slash :=
  Buffer.head?_str _ (by decide)

private theorem strcopyLimit_absolute {path : Bytes} (h : path.head? = some slash) :
    (strcopyLimit path fsPathMax).head? = some slash := by
  cases path with
  | nil => cases h
  | cons a path => simpa [strcopyLimit, fsPathMax] using h

theorem fsMoveEntry_absolute (source : Bytes) {destination : Bytes} {entry : ArmFsEntry}
    (hdest : destination.head? = some slash) (h : Absolute entry) :
    Absolute (fsMoveEntry source destination entry) := by
  rw [fsMoveEntry]
  split
  · have hset : Absolute (entry.setPath (strcopyLimit destination fsPathMax)) := by
      rw [absolute_iff]
      exact Buffer.head?_strcpy _ (strcopyLimit_absolute hdest) (by decide)
    dsimp only
    split
    · exact hset
    · rw [absolute_iff]
      have hne : 0 < (entry.setPath (strcopyLimit destination fsPathMax)).memory.str.length := by
        have habs := hset
        rw [Absolute, ArmFsEntry.path] at habs
        apply List.length_pos_of_ne_nil
        intro hnil
        rw [hnil] at habs
        cases habs
      exact (Buffer.head?_write _ _ hne).trans ((absolute_iff _).mp hset)
  · exact h

theorem absolute_invariant :
    EntryInvariant Absolute fun destination => destination.head? = some slash where
  fresh path type hpath := by
    rw [absolute_iff]
    exact Buffer.head?_strcpy _ (strcopyLimit_absolute hpath) (by decide)
  clearData entry h := by
    rw [absolute_iff]
    exact (Buffer.head?_write _ _ (by decide)).trans ((absolute_iff entry).mp h)
  setData entry data type h _ _ _ := by
    rw [absolute_iff]
    exact (Buffer.head?_write _ _ (by decide)).trans ((absolute_iff entry).mp h)
  move source destination entry hdest h := fsMoveEntry_absolute source hdest h

end Instances

end SnsxOS.Arm64
