import SnsxOS.X86.TreeInvariant
import SnsxOS.Lib.LittleEndian

/-!
# Loading the initial ramdisk

`fs_init` fills the table from the image in the first multiboot module. Every offset, size and
name comes from the image. Reads through the image pointer are recorded with their distance
from the start of the module, so that they can be compared with its end, which the loader never
looks at.
-/

namespace SnsxOS.X86

open Framework

def multibootBootloaderMagic : UInt32 := 0x2BADB002

def multibootInfoMods : UInt32 := 0x00000008

def initrdMagic : UInt32 := 0x4D594653

def initrdVersion : UInt32 := 1

def initrdNameMax : Nat := 32

/-- Size of `initrd_header_t`. -/
def initrdHeaderSize : Nat := 12

/-- Size of `initrd_node_t`. -/
def initrdNodeSize : Nat := 44

/-- What the boot loader hands over: the magic value, the fields of the multiboot information
and of its first module that matter here, and the 32-bit address space. -/
structure Multiboot where
  magic : UInt32
  flags : UInt32
  modsCount : UInt32
  modStart : UInt32
  modEnd : UInt32
  memory : UInt32 → UInt8

structure InitrdNode where
  name : Bytes
  offset : UInt32
  size : UInt32
  type : UInt32
  deriving DecidableEq

/-- A read of consecutive bytes that starts at a distance from the module's first byte. -/
structure Read where
  offset : Nat
  length : Nat
  deriving DecidableEq

namespace Multiboot

variable (boot : Multiboot)

/-- The address `base + offset`, which wraps. -/
def address (offset : Nat) : UInt32 := boot.modStart + UInt32.ofNat offset

def bytes (offset length : Nat) : Bytes :=
  (List.range length).map fun i => boot.memory (boot.address (offset + i))

def word (offset : Nat) : UInt32 := readLe32 (boot.bytes offset 4) 0

/-- `nodes[i]`; the name ends at its terminator or with its field. -/
def initrdNode (i : Nat) : InitrdNode :=
  let start := initrdHeaderSize + initrdNodeSize * i
  ⟨cString (boot.bytes start initrdNameMax), boot.word (start + 32), boot.word (start + 36),
    boot.word (start + 40)⟩

/-- The loop bound of `fs_init`. -/
def initrdCount : Nat := min (boot.word 8).toNat maxFsEntries

def HasModule : Prop :=
  boot.magic = multibootBootloaderMagic ∧ boot.flags &&& multibootInfoMods ≠ 0 ∧
    0 < boot.modsCount

instance : Decidable boot.HasModule := inferInstanceAs (Decidable (_ ∧ _ ∧ _))

end Multiboot

/-- The loop of `fs_ensure_dir_chain` over the parts of the path before its slashes. -/
def fsEnsureDirs (st : FsState) : List Bytes → Bool × FsState
  | [] => (true, st)
  | part :: parts =>
      if fsPathMax ≤ part.length then (false, st)
      else match fsFindNodeNormalized st part with
        | none =>
            match fsPushNode st part fsTypeDir with
            | none => (false, st)
            | some st' => fsEnsureDirs st' parts
        | some slot =>
            if (st.nodeAt slot).type ≠ fsTypeDir then (false, st) else fsEnsureDirs st parts

def fsEnsureDirChain (st : FsState) (normalized : Bytes) : Bool × FsState :=
  fsEnsureDirs st (ancestors slash normalized)

structure LoadResult where
  ok : Bool
  table : FsState
  reads : List Read

/-- `data` is the distance of the source bytes from the start of the module. -/
def fsLoadFile (boot : Multiboot) (st : FsState) (path : Bytes) (data size : Nat)
    (type : UInt32) : LoadResult :=
  match fsNormalizePath path with
  | none => ⟨false, st, []⟩
  | some normalized =>
      if normalized = [] ∨ type = fsTypeDir ∨ fsMaxEntrySize < size then ⟨false, st, []⟩
      else match fsEnsureDirChain st normalized with
        | (false, st) => ⟨false, st, []⟩
        | (true, st) =>
            match fsPushNode st normalized type with
            | none => ⟨false, st, []⟩
            | some st => ⟨true, st.modify (st.count - 1) fun node => fsSyncEntry (st.count - 1)
                { node with data := node.data.write 0 (boot.bytes data size), size := size },
                [⟨data, size⟩]⟩

/-- The body of the loop of `fs_init`. -/
def fsLoadNode (boot : Multiboot) (st : FsState) (i : Nat) : LoadResult :=
  let start := initrdHeaderSize + initrdNodeSize * i
  let node := boot.initrdNode i
  let loaded := fsLoadFile boot st node.name node.offset.toNat node.size.toNat node.type
  { loaded with
    reads := ⟨start, min initrdNameMax (node.name.length + 1)⟩ :: ⟨start + 32, 12⟩ ::
      loaded.reads }

def fsLoadNodes (boot : Multiboot) (st : FsState) : List Nat → FsState × List Read
  | [] => (st, [])
  | i :: rest =>
      let loaded := fsLoadNode boot st i
      if loaded.ok then
        let later := fsLoadNodes boot loaded.table rest
        (later.1, loaded.reads ++ later.2)
      else (loaded.table, loaded.reads)

/-- What `fs_init` does with the module of a boot loader that passes one. -/
def fsLoadInitrd (boot : Multiboot) (st : FsState) : FsState × List Read :=
  if boot.word 0 = initrdMagic then
    if boot.word 4 = initrdVersion then
      let loaded := fsLoadNodes boot st (List.range boot.initrdCount)
      (loaded.1, ⟨0, 4⟩ :: ⟨4, 4⟩ :: ⟨8, 4⟩ :: loaded.2)
    else (st, [⟨0, 4⟩, ⟨4, 4⟩])
  else (st, [⟨0, 4⟩])

def FsState.emptied (st : FsState) : FsState := { st with count := 0, count_le := Nat.zero_le _ }

def fsInit (boot : Multiboot) (st : FsState) : LoadResult :=
  let loaded := if boot.HasModule then fsLoadInitrd boot st.emptied else (st.emptied, [])
  if 0 < loaded.1.count then ⟨true, loaded.1, loaded.2⟩
  else ⟨false, fsUseBuiltin loaded.1, loaded.2⟩

/-- What a slot shows. -/
def FsNode.view (node : FsNode) : FileNode UInt32 :=
  ⟨node.name, node.type, node.data.read 0 node.size⟩

def dirView (path : Bytes) : FileNode UInt32 := ⟨path, fsTypeDir, []⟩

/-- The paths no slot is named after. -/
def missing (nodes : List FsNode) (paths : List Bytes) : List Bytes :=
  paths.filter fun path => path ∉ nodes.map FsNode.name

section Kept

/-! The loader never changes or drops a used slot. -/

theorem fsPushNode_kept {st st' : FsState} {p : Bytes} {type : UInt32}
    (h : fsPushNode st p type = some st') : st.used <+: st'.used := by
  obtain ⟨hc, rfl⟩ := fsPushNode_some h
  rw [SlotTable.used_push]
  exact List.prefix_append _ _

theorem fsEnsureDirs_kept (st : FsState) (parts : List Bytes) :
    st.used <+: (fsEnsureDirs st parts).2.used := by
  induction parts generalizing st with
  | nil => exact List.prefix_refl _
  | cons part parts ih =>
    rw [fsEnsureDirs]
    split
    · exact List.prefix_refl _
    · cases fsFindNodeNormalized st part with
      | none =>
        cases hpush : fsPushNode st part fsTypeDir with
        | none => exact List.prefix_refl _
        | some st' => exact (fsPushNode_kept hpush).trans (ih st')
      | some slot =>
        dsimp only
        split
        · exact List.prefix_refl _
        · exact ih st

theorem fsLoadFile_kept (boot : Multiboot) (st : FsState) (path : Bytes) (data size : Nat)
    (type : UInt32) : st.used <+: (fsLoadFile boot st path data size type).table.used := by
  rw [fsLoadFile]
  cases fsNormalizePath path with
  | none => exact List.prefix_refl _
  | some p =>
    dsimp only
    split
    · exact List.prefix_refl _
    · have hchain := fsEnsureDirs_kept st (ancestors slash p)
      rw [fsEnsureDirChain]
      rcases hensure : fsEnsureDirs st (ancestors slash p) with ⟨ok, st'⟩
      rw [hensure] at hchain
      cases ok with
      | false => exact hchain
      | true =>
        cases hpush : fsPushNode st' p type with
        | none => simpa only [hpush] using hchain
        | some st'' =>
          obtain ⟨hc, rfl⟩ := fsPushNode_some hpush
          simp only [hpush, used_push_modify]
          exact hchain.trans (List.prefix_append _ _)

theorem fsLoadNodes_kept (boot : Multiboot) (st : FsState) (entries : List Nat) :
    st.used <+: (fsLoadNodes boot st entries).1.used := by
  induction entries generalizing st with
  | nil => exact List.prefix_refl _
  | cons i entries ih =>
    have hfirst : st.used <+: (fsLoadNode boot st i).table.used := fsLoadFile_kept ..
    rw [fsLoadNodes]
    dsimp only
    split
    · exact hfirst.trans (ih _)
    · exact hfirst

end Kept

section EnsureDirs

variable {st : FsState}

theorem fsPushNode_none {p : Bytes} {type : UInt32} (hp : NormalName p)
    (h : fsPushNode st p type = none) : st.count = maxFsEntries := by
  have hlen := hp.length_lt
  rw [fsPushNode] at h
  split at h
  · rw [if_neg (by omega)] at h
    cases h
  · have hle := st.count_le
    omega

theorem fsPushNode_view (p : Bytes) (type : UInt32) (slot : Nat) :
    (fsSyncEntry slot { FsNode.zero with name := p, type := type }).view = ⟨p, type, []⟩ := by
  simp [FsNode.view, fsSyncEntry, FsNode.zero]

/-- What the loop of `fs_ensure_dir_chain` achieves. -/
structure DirsEnsured (st : FsState) (parts : List Bytes) (result : Bool × FsState) : Prop where
  tree : FsTree result.2.used
  ok_iff : result.1 = true ↔
    (∀ node ∈ st.used, node.name ∈ parts → node.type = fsTypeDir) ∧
      st.count + (missing st.used parts).length ≤ maxFsEntries
  view : result.1 = true → result.2.used.map FsNode.view =
    st.used.map FsNode.view ++ (missing st.used parts).map dirView

theorem missing_cons_push {nodes : List FsNode} (node : FsNode) {parts : List Bytes}
    (habsent : node.name ∉ nodes.map FsNode.name) (hparts : node.name ∉ parts) :
    missing nodes (node.name :: parts) = node.name :: missing (nodes ++ [node]) parts := by
  rw [missing, List.filter_cons_of_pos (by simpa using habsent), missing]
  congr 1
  apply List.filter_congr
  intro part hpart
  have hne : part ≠ node.name := fun he => hparts (he ▸ hpart)
  simp [hne]

theorem missing_cons_present {nodes : List FsNode} {part : Bytes} {parts : List Bytes}
    (hpart : part ∈ nodes.map FsNode.name) : missing nodes (part :: parts) = missing nodes parts :=
  List.filter_cons_of_neg (by simpa using hpart)

/-- A first part that is a directory already is passed over. -/
theorem DirsEnsured.present (h : FsTree st.used) {node : FsNode} (hnode : node ∈ st.used)
    (hdir : node.type = fsTypeDir) {parts : List Bytes} {result : Bool × FsState}
    (later : DirsEnsured st parts result) : DirsEnsured st (node.name :: parts) result := by
  have hmissing : missing st.used (node.name :: parts) = missing st.used parts :=
    missing_cons_present (List.mem_map_of_mem hnode)
  refine ⟨later.tree, ?_, fun hok => by rw [later.view hok, hmissing]⟩
  rw [later.ok_iff, hmissing]
  refine and_congr_left fun _ => ⟨fun hall n hn hp => ?_, fun hall n hn hp => ?_⟩
  · rcases List.mem_cons.mp hp with hp | hp
    · rw [h.key_inj hn hnode hp]
      exact hdir
    · exact hall n hn hp
  · exact hall n hn (List.mem_cons_of_mem _ hp)

/-- A first part that is absent is stored behind the others. -/
theorem DirsEnsured.push {part : Bytes} {parts : List Bytes} {result : Bool × FsState}
    (habsent : part ∉ st.used.map FsNode.name) (hfresh : part ∉ parts)
    (hc : st.count < maxFsEntries)
    (later : DirsEnsured (st.push (fsSyncEntry st.count
      { FsNode.zero with name := part, type := fsTypeDir }) hc) parts result) :
    DirsEnsured st (part :: parts) result := by
  have hview := fsPushNode_view part fsTypeDir st.count
  have hname : (fsSyncEntry st.count { FsNode.zero with name := part, type := fsTypeDir }).name =
      part := rfl
  have htype : (fsSyncEntry st.count { FsNode.zero with name := part, type := fsTypeDir }).type =
      fsTypeDir := rfl
  generalize fsSyncEntry st.count { FsNode.zero with name := part, type := fsTypeDir } = node
    at later hview hname htype
  subst hname
  have hused := SlotTable.used_push st node hc
  have hcount : (st.push node hc).count = st.count + 1 := rfl
  have hmissing : missing st.used (node.name :: parts) =
      node.name :: missing (st.push node hc).used parts := by
    rw [hused]
    exact missing_cons_push node habsent hfresh
  refine ⟨later.tree, ?_, fun hok => ?_⟩
  · rw [later.ok_iff, hmissing, hcount, hused, List.length_cons]
    refine and_congr ⟨fun hall n hn hp => ?_, fun hall n hn hp => ?_⟩ (by omega)
    · rcases List.mem_cons.mp hp with hp | hp
      · exact absurd (hp ▸ List.mem_map_of_mem hn) habsent
      · exact hall n (List.mem_append_left _ hn) hp
    · rcases List.mem_append.mp hn with hn | hn
      · exact hall n hn (List.mem_cons_of_mem _ hp)
      · rw [List.mem_singleton.mp hn]
        exact htype
  · rw [later.view hok, hmissing, hused, List.map_append, List.map_singleton, hview, List.map_cons,
      List.append_assoc]
    rfl

theorem fsEnsureDirs_spec (h : FsTree st.used) {parts : List Bytes}
    (hnormal : ∀ part ∈ parts, NormalName part) (hpair : parts.Pairwise (Below slash))
    (hclosed : ∀ part ∈ parts, ∀ q, q ≠ [] → Below slash q part →
      q ∈ parts ∨ ∃ d ∈ st.used, d.name = q ∧ d.type = fsTypeDir) :
    DirsEnsured st parts (fsEnsureDirs st parts) := by
  induction parts generalizing st with
  | nil =>
    have hle := st.count_le
    exact ⟨h, by simpa [fsEnsureDirs, missing] using hle,
      fun _ => by simp [fsEnsureDirs, missing]⟩
  | cons part parts ih =>
    have hpart : NormalName part := hnormal part List.mem_cons_self
    have hlen := hpart.length_lt
    have hbelow := (List.pairwise_cons.mp hpair).1
    have hfresh : part ∉ parts := fun hm => (hbelow part hm).ne rfl
    have hparents : Rooted slash FsNode.name (fun node => node.type = fsTypeDir) st.used part := by
      intro q hq hb
      rcases hclosed part List.mem_cons_self q hq hb with hm | hd
      · rcases List.mem_cons.mp hm with rfl | hm
        · exact absurd rfl hb.ne
        · exact absurd (hb.trans (hbelow q hm)).ne (fun hn => hn rfl)
      · exact hd
    have hrest : ∀ st' : FsState, (∃ d ∈ st'.used, d.name = part ∧ d.type = fsTypeDir) →
        st.used <+: st'.used → FsTree st'.used →
        DirsEnsured st' parts (fsEnsureDirs st' parts) := by
      intro st' hd hsub h'
      apply ih h' (fun q hq => hnormal q (List.mem_cons_of_mem _ hq)) (List.pairwise_cons.mp hpair).2
      intro q hq r hr hb
      rcases hclosed q (List.mem_cons_of_mem _ hq) r hr hb with hm | ⟨d, hmem, hd⟩
      · rcases List.mem_cons.mp hm with rfl | hm
        · exact Or.inr hd
        · exact Or.inl hm
      · exact Or.inr ⟨d, hsub.subset hmem, hd⟩
    rw [fsEnsureDirs, if_neg (by omega)]
    cases hfind : fsFindNodeNormalized st part with
    | none =>
      have habsent := fsFindNodeNormalized_none hfind
      cases hpush : fsPushNode st part fsTypeDir with
      | none =>
        have hfull := fsPushNode_none hpart hpush
        refine ⟨h, ?_, nofun⟩
        have hmissing : missing st.used (part :: parts) = part :: missing st.used parts :=
          List.filter_cons_of_pos (by simpa using habsent)
        simp [hmissing, hfull]
      | some st' =>
        obtain ⟨hc, rfl⟩ := fsPushNode_some hpush
        have hused := SlotTable.used_push st
          (fsSyncEntry st.count { FsNode.zero with name := part, type := fsTypeDir }) hc
        apply DirsEnsured.push habsent hfresh hc
        apply hrest
        · exact ⟨_, by rw [hused]; exact List.mem_append_right _ (List.mem_singleton_self _), rfl, rfl⟩
        · rw [hused]
          exact List.prefix_append _ _
        · rw [hused]
          exact h.push hpart habsent hparents (Nat.zero_le _)
    | some slot =>
      obtain ⟨hs, hname, hnode⟩ := fsFindNodeNormalized_some hfind
      have hmem : st.used[slot] ∈ st.used := List.getElem_mem hs
      dsimp only
      by_cases hdir : (st.nodeAt slot).type = fsTypeDir
      · have later := hrest st ⟨_, hmem, hname, hnode ▸ hdir⟩ (List.prefix_refl _) h
        rw [if_neg (not_not.mpr hdir), ← hname]
        exact later.present h hmem (hnode ▸ hdir)
      · rw [if_pos hdir]
        refine ⟨h, ⟨nofun, fun hok => ?_⟩, nofun⟩
        have hbad := hok.1 _ hmem (hname ▸ List.mem_cons_self)
        exact absurd (hnode ▸ hbad) hdir

/-- Before a normalised path is stored, its whole directory chain is asked for. -/
theorem fsEnsureDirChain_spec (h : FsTree st.used) {p : Bytes} (hp : NormalName p) :
    DirsEnsured st (ancestors slash p) (fsEnsureDirChain st p) := by
  have hne : ∀ part, Below slash part p → part ≠ [] := by
    rintro part ⟨r, hr⟩ rfl
    apply hp.head_ne
    rw [hr]
    rfl
  apply fsEnsureDirs_spec h
  · intro part hpart
    have hb := mem_ancestors.mp hpart
    exact hp.prefix (hne part hb) hb
  · exact ancestors_pairwise slash p
  · intro part hpart q _ hb
    exact Or.inl (mem_ancestors.mpr (hb.trans (mem_ancestors.mp hpart)))

end EnsureDirs

section LoadFile

variable {boot : Multiboot} {st : FsState}

/-- `fs_load_file` takes the entry and stores it under `path`. -/
structure Accepts (nodes : List FsNode) (entry : InitrdNode) (path : Bytes) : Prop where
  normalized : fsNormalizePath entry.name = some path
  ne_nil : path ≠ []
  file : entry.type ≠ fsTypeDir
  size_le : entry.size.toNat ≤ fsMaxEntrySize
  parents : ∀ node ∈ nodes, Below slash node.name path → node.type = fsTypeDir
  room : nodes.length + (missing nodes (ancestors slash path)).length < maxFsEntries

theorem Accepts.normal {nodes : List FsNode} {entry : InitrdNode} {path : Bytes}
    (h : Accepts nodes entry path) : NormalName path :=
  fsNormalizePath_normal h.normalized h.ne_nil

theorem Accepts.unique {nodes : List FsNode} {entry : InitrdNode} {path path' : Bytes}
    (h : Accepts nodes entry path) (h' : Accepts nodes entry path') : path = path' :=
  Option.some.inj (h.normalized.symm.trans h'.normalized)

/-- What an accepted entry shows in its slot. -/
def InitrdNode.view (boot : Multiboot) (entry : InitrdNode) (path : Bytes) : FileNode UInt32 :=
  ⟨path, entry.type, boot.bytes entry.offset.toNat entry.size.toNat⟩

/-- What `fs_load_file` achieves for an entry. -/
structure EntryLoaded (boot : Multiboot) (st : FsState) (entry : InitrdNode)
    (result : LoadResult) : Prop where
  ok_iff : result.ok = true ↔ ∃ path, Accepts st.used entry path
  refused : result.ok = false → FsTree result.table.used ∧ result.reads = []
  view : ∀ path, Accepts st.used entry path → result.table.used.map FsNode.view =
    st.used.map FsNode.view ++ (missing st.used (ancestors slash path)).map dirView ++
      [entry.view boot path]
  reads : ∀ path, Accepts st.used entry path →
    result.reads = [⟨entry.offset.toNat, entry.size.toNat⟩]
  tree : ∀ path, Accepts st.used entry path → path ∉ st.used.map FsNode.name →
    FsTree result.table.used

theorem EntryLoaded.of_refused {entry : InitrdNode} {table : FsState}
    (htree : FsTree table.used)
    (h : ∀ path, ¬ Accepts st.used entry path) :
    EntryLoaded boot st entry ⟨false, table, []⟩ :=
  ⟨⟨nofun, fun ⟨path, hp⟩ => absurd hp (h path)⟩, fun _ => ⟨htree, rfl⟩,
    fun path hp => absurd hp (h path), fun path hp => absurd hp (h path),
    fun path hp => absurd hp (h path)⟩

/-- With its name, type and size in order, an entry is accepted when its directories can be
ensured and leave a free slot. -/
theorem DirsEnsured.accepts_iff {entry : InitrdNode} {path : Bytes} {result : Bool × FsState}
    (h : DirsEnsured st (ancestors slash path) result)
    (hnorm : fsNormalizePath entry.name = some path) (hne : path ≠ [])
    (hfile : entry.type ≠ fsTypeDir) (hsize : entry.size.toNat ≤ fsMaxEntrySize) :
    Accepts st.used entry path ↔ result.1 = true ∧ result.2.count < maxFsEntries := by
  have hcount : result.1 = true →
      result.2.count = st.count + (missing st.used (ancestors slash path)).length := by
    intro hok
    have hlen := congrArg List.length (h.view hok)
    simpa using hlen
  constructor
  · intro hp
    have hroom := hp.room
    rw [SlotTable.length_used] at hroom
    have hok : result.1 = true :=
      h.ok_iff.mpr ⟨fun node hn hb => hp.parents node hn (mem_ancestors.mp hb), hroom.le⟩
    exact ⟨hok, (hcount hok).trans_lt hroom⟩
  · rintro ⟨hok, hroom⟩
    rw [hcount hok] at hroom
    refine ⟨hnorm, hne, hfile, hsize, fun node hn hb => ?_, by simpa using hroom⟩
    exact (h.ok_iff.mp hok).1 node hn (mem_ancestors.mpr hb)

theorem length_bytes (boot : Multiboot) (offset length : Nat) :
    (boot.bytes offset length).length = length := by
  simp [Multiboot.bytes]

/-- The last two steps of `fs_load_file`: a slot is pushed behind the directory chain. -/
theorem EntryLoaded.of_stored {entry : InitrdNode} {path : Bytes} {st' table : FsState}
    {node : FsNode} (hkept : st.used <+: st'.used)
    (chain : DirsEnsured st (ancestors slash path) (true, st'))
    (haccepts : Accepts st.used entry path) (hused : table.used = st'.used ++ [node])
    (hname : node.name = path) (hsize : node.size = entry.size.toNat)
    (hview : node.view = entry.view boot path) :
    EntryLoaded boot st entry ⟨true, table, [⟨entry.offset.toNat, entry.size.toNat⟩]⟩ := by
  refine ⟨⟨fun _ => ⟨path, haccepts⟩, fun _ => rfl⟩, nofun,
    fun q hq => ?_, fun _ _ => rfl, fun q hq habsent => ?_⟩
  · obtain rfl := hq.unique haccepts
    rw [hused, List.map_append, List.map_singleton, chain.view rfl, hview]
  · obtain rfl := hq.unique haccepts
    have hnames : st'.used.map FsNode.name =
        st.used.map FsNode.name ++ missing st.used (ancestors slash q) := by
      have hpaths := congrArg (List.map FileNode.path) (chain.view rfl)
      simpa [FsNode.view, dirView, Function.comp_def] using hpaths
    rw [hused]
    apply chain.tree.push
    · rw [hname]
      exact haccepts.normal
    · rw [hname, hnames, List.mem_append, not_or]
      refine ⟨habsent, fun hm => ?_⟩
      exact (mem_ancestors.mp (List.mem_of_mem_filter hm)).ne rfl
    · rw [hname]
      intro r _ hb
      have hr := mem_ancestors.mpr hb
      by_cases hmem : r ∈ st.used.map FsNode.name
      · obtain ⟨d, hd, rfl⟩ := List.mem_map.mp hmem
        exact ⟨d, hkept.subset hd, rfl, (chain.ok_iff.mp rfl).1 d hd hr⟩
      · have hdir : dirView r ∈ st'.used.map FsNode.view := by
          rw [chain.view rfl]
          apply List.mem_append_right
          exact List.mem_map_of_mem (List.mem_filter.mpr ⟨hr, by simpa using hmem⟩)
        obtain ⟨d, hd, hdv⟩ := List.mem_map.mp hdir
        exact ⟨d, hd, congrArg FileNode.path hdv, congrArg FileNode.type hdv⟩
    · rw [hsize]
      exact haccepts.size_le

theorem fsLoadFile_spec (boot : Multiboot) (h : FsTree st.used) (entry : InitrdNode) :
    EntryLoaded boot st entry (fsLoadFile boot st entry.name entry.offset.toNat
      entry.size.toNat entry.type) := by
  rw [fsLoadFile]
  cases hnorm : fsNormalizePath entry.name with
  | none =>
    apply EntryLoaded.of_refused h
    intro path hp
    cases hnorm.symm.trans hp.normalized
  | some p =>
    dsimp only
    split
    · rename_i hbad
      apply EntryLoaded.of_refused h
      intro path hp
      obtain rfl : p = path := Option.some.inj (hnorm.symm.trans hp.normalized)
      rcases hbad with hbad | hbad | hbad
      · exact hp.ne_nil hbad
      · exact hp.file hbad
      · exact absurd hp.size_le (not_le.mpr hbad)
    · rename_i hgood
      push Not at hgood
      obtain ⟨hne, hfile, hsize⟩ := hgood
      have hp := fsNormalizePath_normal hnorm hne
      have chain := fsEnsureDirChain_spec h hp
      have honly : ∀ path, Accepts st.used entry path → path = p :=
        fun path hpath => Option.some.inj (hpath.normalized.symm.trans hnorm)
      rcases hchain : fsEnsureDirChain st p with ⟨ok, st'⟩
      rw [hchain] at chain
      have haccepts := chain.accepts_iff hnorm hne hfile hsize
      cases ok with
      | false =>
        apply EntryLoaded.of_refused chain.tree
        intro path hpath
        rw [honly path hpath] at hpath
        exact absurd (haccepts.mp hpath).1 (by simp)
      | true =>
        dsimp only
        cases hpush : fsPushNode st' p entry.type with
        | none =>
          apply EntryLoaded.of_refused chain.tree
          intro path hpath
          rw [honly path hpath] at hpath
          exact absurd (fsPushNode_none hp hpush) (haccepts.mp hpath).2.ne
        | some st'' =>
          obtain ⟨hc, rfl⟩ := fsPushNode_some hpush
          have hkept := fsEnsureDirs_kept st (ancestors slash p)
          rw [← fsEnsureDirChain, hchain] at hkept
          apply EntryLoaded.of_stored hkept chain (haccepts.mpr ⟨rfl, hc⟩) (used_push_modify hc _)
          · rfl
          · rfl
          · have hlen := length_bytes boot entry.offset.toNat entry.size.toNat
            have hread := Buffer.read_write_self (Buffer.zero fsMaxEntrySize)
              (show 0 + (boot.bytes entry.offset.toNat entry.size.toNat).length ≤ _ by omega)
            rw [hlen] at hread
            simp [FsNode.view, InitrdNode.view, fsSyncEntry, FsNode.zero, hread]

end LoadFile

section Safety

variable {boot : Multiboot} {st : FsState}

/-- Size of the module region. -/
def Multiboot.modLength (boot : Multiboot) : Nat := boot.modEnd.toNat - boot.modStart.toNat

/-- The bytes of the read lie in `[mod_start, mod_end)`. -/
def Multiboot.Inside (boot : Multiboot) (read : Read) : Prop :=
  ∀ i < read.length, boot.modStart ≤ boot.address (read.offset + i) ∧
    boot.address (read.offset + i) < boot.modEnd

theorem inside_iff (hbounds : boot.modStart ≤ boot.modEnd) {offset length : Nat}
    (hoffset : offset < 2 ^ 32) (hlength : 0 < length) :
    boot.Inside ⟨offset, length⟩ ↔ offset + length ≤ boot.modLength := by
  have hstart := boot.modStart.toNat_lt
  have hend := boot.modEnd.toNat_lt
  have haddress : ∀ k, (boot.address k).toNat = (boot.modStart.toNat + k) % 2 ^ 32 := by
    intro k
    simp [Multiboot.address]
  rw [UInt32.le_iff_toNat_le] at hbounds
  simp only [Multiboot.Inside, UInt32.le_iff_toNat_le, UInt32.lt_iff_toNat_lt, haddress,
    Multiboot.modLength]
  constructor
  · intro h
    by_contra hout
    -- the first byte of the read outside the region
    by_cases hfirst : offset < boot.modEnd.toNat - boot.modStart.toNat
    · have hk := h (boot.modEnd.toNat - boot.modStart.toNat - offset) (by omega)
      rw [Nat.mod_eq_of_lt (by omega)] at hk
      omega
    · have hk := h 0 hlength
      omega
  · intro h i hi
    rw [Nat.mod_eq_of_lt (by omega)]
    omega

theorem inside_empty (offset : Nat) : boot.Inside ⟨offset, 0⟩ := fun _ hi => absurd hi (by simp)

/-- The loop continues behind an entry that was loaded. -/
def fsLoadStep (boot : Multiboot) (st : FsState) (i : Nat) : Option FsState :=
  if (fsLoadNode boot st i).ok then some (fsLoadNode boot st i).table else none

/-- The record of entry `i` lies in the module and, if the entry is accepted, so do its bytes,
and the table has no node of that name yet. -/
def EntryChecked (boot : Multiboot) (st : FsState) (i : Nat) : Prop :=
  initrdHeaderSize + initrdNodeSize * (i + 1) ≤ boot.modLength ∧
    ∀ path, Accepts st.used (boot.initrdNode i) path →
      ((boot.initrdNode i).size.toNat = 0 ∨
        (boot.initrdNode i).offset.toNat + (boot.initrdNode i).size.toNat ≤ boot.modLength) ∧
      path ∉ st.used.map FsNode.name

/-- Every entry has its last fields read, so its record is read to the end. -/
theorem record_inside_iff (hbounds : boot.modStart ≤ boot.modEnd) {i : Nat}
    (hi : i < maxFsEntries) (name : Nat) :
    (boot.Inside ⟨initrdHeaderSize + initrdNodeSize * i, min initrdNameMax (name + 1)⟩ ∧
      boot.Inside ⟨initrdHeaderSize + initrdNodeSize * i + 32, 12⟩) ↔
      initrdHeaderSize + initrdNodeSize * (i + 1) ≤ boot.modLength := by
  simp only [maxFsEntries, initrdHeaderSize, initrdNodeSize, initrdNameMax] at hi ⊢
  rw [inside_iff hbounds (by omega) (by omega), inside_iff hbounds (by omega) (by omega)]
  omega

theorem data_inside_iff (hbounds : boot.modStart ≤ boot.modEnd) (offset : UInt32) (size : Nat) :
    boot.Inside ⟨offset.toNat, size⟩ ↔
      size = 0 ∨ offset.toNat + size ≤ boot.modLength := by
  rcases Nat.eq_zero_or_pos size with rfl | hsize
  · simpa using inside_empty _
  · rw [inside_iff hbounds offset.toNat_lt hsize]
    simp [hsize.ne']

/-- Distinct names after an entry was loaded mean that its name was new. -/
theorem EntryLoaded.fresh {entry : InitrdNode} {result : LoadResult} {path : Bytes}
    (h : EntryLoaded boot st entry result) (hpath : Accepts st.used entry path)
    (hnames : (result.table.used.map FsNode.name).Nodup) : path ∉ st.used.map FsNode.name := by
  have hview := congrArg (List.map FileNode.path) (h.view path hpath)
  have hpaths : result.table.used.map FsNode.name = st.used.map FsNode.name ++
      missing st.used (ancestors slash path) ++ [path] := by
    simpa [FsNode.view, InitrdNode.view, dirView, Function.comp_def] using hview
  rw [hpaths, List.append_assoc] at hnames
  intro hmem
  exact (List.nodup_append.mp hnames).2.2 path hmem path (by simp) rfl

theorem fsLoadNodes_iff (hbounds : boot.modStart ≤ boot.modEnd) (h : FsTree st.used)
    (entries : List Nat) (hentries : ∀ i ∈ entries, i < maxFsEntries) :
    ((∀ read ∈ (fsLoadNodes boot st entries).2, boot.Inside read) ∧
      FsTree (fsLoadNodes boot st entries).1.used) ↔
      GuardedPartial (fsLoadStep boot) (EntryChecked boot) st entries := by
  induction entries generalizing st with
  | nil => simpa [fsLoadNodes, GuardedPartial] using h
  | cons i entries ih =>
    have spec := fsLoadFile_spec boot h (boot.initrdNode i)
    have hrecord := record_inside_iff hbounds (hentries i List.mem_cons_self)
      (boot.initrdNode i).name.length
    have hentries' : ∀ j ∈ entries, j < maxFsEntries :=
      fun j hj => hentries j (List.mem_cons_of_mem _ hj)
    have hreads : ∀ later : List Read,
        (∀ read ∈ (fsLoadNode boot st i).reads ++ later, boot.Inside read) ↔
          initrdHeaderSize + initrdNodeSize * (i + 1) ≤ boot.modLength ∧
            (∀ read ∈ (fsLoadFile boot st (boot.initrdNode i).name
              (boot.initrdNode i).offset.toNat (boot.initrdNode i).size.toNat
              (boot.initrdNode i).type).reads, boot.Inside read) ∧
            ∀ read ∈ later, boot.Inside read := by
      intro later
      rw [← hrecord]
      simp only [fsLoadNode, List.cons_append, List.forall_mem_cons, List.forall_mem_append,
        and_assoc]
    rw [fsLoadNodes, GuardedPartial, fsLoadStep, EntryChecked]
    dsimp only
    by_cases hok : (fsLoadNode boot st i).ok = true
    · obtain ⟨path, hpath⟩ := spec.ok_iff.mp hok
      have hkept := fsLoadNodes_kept boot (fsLoadNode boot st i).table entries
      simp only [if_pos hok, hreads, spec.reads path hpath, List.forall_mem_singleton,
        data_inside_iff hbounds]
      constructor
      · rintro ⟨⟨hrec, hdata, hlater⟩, htree⟩
        have hnames : ((fsLoadNode boot st i).table.used.map FsNode.name).Nodup :=
          htree.distinct.sublist (hkept.sublist.map _)
        have hfresh := spec.fresh hpath hnames
        refine ⟨⟨hrec, fun q hq => ?_⟩, fun t ht => ?_⟩
        · obtain rfl := hq.unique hpath
          exact ⟨hdata, hfresh⟩
        · obtain rfl := Option.some.inj ht
          exact (ih (spec.tree path hpath hfresh) hentries').mp ⟨hlater, htree⟩
      · rintro ⟨⟨hrec, hcheck⟩, hrest⟩
        obtain ⟨hdata, hfresh⟩ := hcheck path hpath
        have hlater := (ih (spec.tree path hpath hfresh) hentries').mpr (hrest _ rfl)
        exact ⟨⟨hrec, hdata, hlater.1⟩, hlater.2⟩
    · have hrefused := spec.refused (Bool.eq_false_iff.mpr hok)
      have hnone : ∀ path, ¬ Accepts st.used (boot.initrdNode i) path :=
        fun path hpath => hok (spec.ok_iff.mpr ⟨path, hpath⟩)
      have hfirst := hreads []
      rw [List.append_nil, hrefused.2] at hfirst
      simp only [if_neg hok, hfirst]
      constructor
      · rintro ⟨⟨hrec, -⟩, -⟩
        exact ⟨⟨hrec, fun path hpath => absurd hpath (hnone path)⟩, nofun⟩
      · rintro ⟨⟨hrec, -⟩, -⟩
        exact ⟨⟨hrec, by simp, by simp⟩, hrefused.1⟩

/-- The image is loaded without a read outside the module and into a tree exactly when the
header lies in the module and every entry that the loop comes to passes the checks which
`fs_load_file` leaves out. -/
theorem fsInit_safe_iff (boot : Multiboot) (st : FsState) (hmodule : boot.HasModule)
    (hbounds : boot.modStart ≤ boot.modEnd) (hmagic : boot.word 0 = initrdMagic)
    (hversion : boot.word 4 = initrdVersion) :
    ((∀ read ∈ (fsInit boot st).reads, boot.Inside read) ∧
      (fsInit boot st).table.count ≤ maxFsEntries ∧ FsTree (fsInit boot st).table.used) ↔
      initrdHeaderSize ≤ boot.modLength ∧
        GuardedPartial (fsLoadStep boot) (EntryChecked boot) st.emptied
          (List.range boot.initrdCount) := by
  have hempty : FsTree st.emptied.used := by
    rw [show st.emptied.used = [] from List.take_zero]
    exact FsTree.nil
  have hrange : ∀ i ∈ List.range boot.initrdCount, i < maxFsEntries := by
    intro i hi
    exact (List.mem_range.mp hi).trans_le (min_le_right _ _)
  have hloop := fsLoadNodes_iff hbounds hempty _ hrange
  have hheader : (boot.Inside ⟨0, 4⟩ ∧ boot.Inside ⟨4, 4⟩ ∧ boot.Inside ⟨8, 4⟩) ↔
      initrdHeaderSize ≤ boot.modLength := by
    rw [inside_iff hbounds (by decide) (by decide), inside_iff hbounds (by decide) (by decide),
      inside_iff hbounds (by decide) (by decide), initrdHeaderSize]
    omega
  have hreads : (fsInit boot st).reads = ⟨0, 4⟩ :: ⟨4, 4⟩ :: ⟨8, 4⟩ ::
      (fsLoadNodes boot st.emptied (List.range boot.initrdCount)).2 := by
    rw [fsInit, if_pos hmodule, fsLoadInitrd, if_pos hmagic, if_pos hversion]
    dsimp only
    split <;> rfl
  have htree : FsTree (fsInit boot st).table.used ↔
      FsTree (fsLoadNodes boot st.emptied (List.range boot.initrdCount)).1.used := by
    rw [fsInit, if_pos hmodule, fsLoadInitrd, if_pos hmagic, if_pos hversion]
    dsimp only
    split
    · rfl
    · rename_i hcount
      have hnil : (fsLoadNodes boot st.emptied (List.range boot.initrdCount)).1.used = [] := by
        apply List.eq_nil_of_length_eq_zero
        rw [SlotTable.length_used]
        omega
      have hbuiltin := fsUseBuiltin_tree
        (fsLoadNodes boot st.emptied (List.range boot.initrdCount)).1
      rw [hnil]
      dsimp only
      exact iff_of_true hbuiltin FsTree.nil
  rw [htree, ← hloop, ← hheader, hreads]
  simp only [List.forall_mem_cons, SlotTable.count_le, true_and, and_assoc]

/-- `initrd_node_t` as it lies in an image. -/
def packNode (node : InitrdNode) : Bytes :=
  node.name.rightpad initrdNameMax 0 ++ writeLe32 node.offset ++ writeLe32 node.size ++
    writeLe32 node.type

/-- A boot loader that passes the image as a module at the base address. -/
def bootWith (base : UInt32) (image : Bytes) : Multiboot :=
  ⟨multibootBootloaderMagic, multibootInfoMods, 1, base, base + UInt32.ofNat image.length,
    fun address => image.getD (address - base).toNat 0⟩

def initrdHeader (fileCount : UInt32) : Bytes :=
  writeLe32 initrdMagic ++ writeLe32 initrdVersion ++ writeLe32 fileCount

/-- A table of zero bytes, as the kernel is loaded. -/
def fsZero : FsState := ⟨List.replicate maxFsEntries FsNode.zero, 0, by simp, Nat.zero_le _⟩

theorem fsInit_safe_iff_empty_file :
    let boot := bootWith 0x00100000 (initrdHeader 1 ++ packNode ⟨ascii "a", 56, 0, fsTypeText⟩)
    (∀ read ∈ (fsInit boot fsZero).reads, boot.Inside read) ∧
      (fsInit boot fsZero).table.count ≤ maxFsEntries ∧
      FsTree (fsInit boot fsZero).table.used := by
  intro boot
  apply (fsInit_safe_iff boot fsZero (by decide) (by decide) (by decide) (by decide)).mpr
  have hcount : boot.initrdCount = 1 := by decide
  have hlength : initrdHeaderSize + initrdNodeSize * 1 ≤ boot.modLength := by decide
  rw [hcount]
  refine ⟨by decide, ⟨hlength, fun path _ => ⟨Or.inl (by decide), ?_⟩⟩, fun _ _ => trivial⟩
  rw [show fsZero.emptied.used = [] from rfl]
  simp

/-- Two entries with one name are both loaded, and the bytes of the second are read in front of
the module. -/
theorem not_fsInit_safe :
    ∃ (boot : Multiboot) (st : FsState), boot.HasModule ∧ boot.modStart ≤ boot.modEnd ∧
      boot.word 0 = initrdMagic ∧ boot.word 4 = initrdVersion ∧
      (¬ ∀ read ∈ (fsInit boot st).reads, boot.Inside read) ∧
        ¬ FsTree (fsInit boot st).table.used := by
  let boot := bootWith 0x00100000 (initrdHeader 2 ++ packNode ⟨ascii "a", 100, 0, fsTypeText⟩ ++
    packNode ⟨ascii "a", 0xFFFFFFF0, 4, fsTypeText⟩)
  refine ⟨boot, fsZero, by decide, by decide, by decide, by decide, fun hinside => ?_,
    fun htree => ?_⟩
  · have hread : ⟨0xFFFFFFF0, 4⟩ ∈ (fsInit boot fsZero).reads := by decide +kernel
    exact absurd (hinside _ hread 0 (by decide)).1 (by decide)
  · have hnames : (fsInit boot fsZero).table.used.map FsNode.name = [ascii "a", ascii "a"] := by
      decide +kernel
    have hdistinct := htree.distinct
    rw [hnames] at hdistinct
    exact absurd hdistinct (by decide)

end Safety

end SnsxOS.X86
