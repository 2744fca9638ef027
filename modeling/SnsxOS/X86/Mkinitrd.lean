import SnsxOS.X86.Initrd
import Mathlib.Data.List.Perm.Subperm

/-!
# The ramdisk image and its loader

`mkinitrd.py` writes a header, one record for each file and then the contents. `fs_init` finds
the records and the contents at the offsets they were written to, so that the table it builds
shows the files and the directories above them.
-/

namespace SnsxOS.X86

open Framework

/-- A file below the root directory with its relative path. -/
structure RootFile where
  path : Bytes
  content : Bytes
  deriving DecidableEq

def entryType (relativePath : Bytes) : UInt32 :=
  if (ascii ".app").isSuffixOf relativePath then 2 else 1

/-- The value of an `I` field; `struct.pack` refuses what does not fit. -/
def packUInt (value : Nat) : Option UInt32 :=
  if value < 2 ^ 32 then some (UInt32.ofNat value) else none

/-- The loop of `main` that packs the records. -/
def packEntries (offset : Nat) : List RootFile → Option Bytes
  | [] => some []
  | file :: files =>
      if (file.path.all fun c => c < 128) = false then none
      else if 32 ≤ file.path.length then none
      else do
        let packedOffset ← packUInt offset
        let packedSize ← packUInt file.content.length
        let rest ← packEntries (offset + file.content.length) files
        return packNode ⟨file.path, packedOffset, packedSize, entryType file.path⟩ ++ rest

/-- The image that `main` writes for the gathered files. -/
def mkinitrd (files : List RootFile) : Option Bytes := do
  let fileCount ← packUInt files.length
  let entries ← packEntries (initrdHeaderSize + initrdNodeSize * files.length) files
  return initrdHeader fileCount ++ entries ++ files.flatMap RootFile.content

/-- The proper parent directories of the files. -/
def impliedDirs (files : List RootFile) : List Bytes :=
  (files.flatMap fun file => ancestors slash file.path).dedup

/-- Files of one directory tree, in any order, that an image can hold: short ASCII paths with
non-empty components, bounded contents and room for the directories. -/
structure RootFiles (files : List RootFile) : Prop where
  ne_nil : files ≠ []
  ascii : ∀ file ∈ files, ∀ c ∈ file.path, 0 < c ∧ c < 128
  normal : ∀ file ∈ files, NormalName file.path
  length_lt : ∀ file ∈ files, file.path.length < 32
  size_le : ∀ file ∈ files, file.content.length ≤ fsMaxEntrySize
  distinct : (files.map RootFile.path).Nodup
  apart : ∀ file ∈ files, ∀ other ∈ files, ¬ Below slash file.path other.path
  room : files.length + (impliedDirs files).length ≤ maxFsEntries

/-- What the table shall show for a file. -/
def RootFile.view (file : RootFile) : FileNode UInt32 :=
  ⟨file.path, entryType file.path, file.content⟩

/-- The image lies at the start of the module. -/
def Multiboot.Holds (boot : Multiboot) (image : Bytes) : Prop :=
  boot.bytes 0 image.length = image

instance (boot : Multiboot) (image : Bytes) : Decidable (boot.Holds image) :=
  inferInstanceAs (Decidable (_ = _))

section Layout

/-- The record of a file whose content starts at the offset. -/
def RootFile.node (file : RootFile) (offset : Nat) : InitrdNode :=
  ⟨file.path, UInt32.ofNat offset, UInt32.ofNat file.content.length, entryType file.path⟩

/-- The records of files whose contents follow each other from the offset on. -/
def records (offset : Nat) : List RootFile → Bytes
  | [] => []
  | file :: files => packNode (file.node offset) ++ records (offset + file.content.length) files

def contentLength (files : List RootFile) : Nat := (files.flatMap RootFile.content).length

theorem records_append (offset : Nat) (files files' : List RootFile) :
    records offset (files ++ files') =
      records offset files ++ records (offset + contentLength files) files' := by
  induction files generalizing offset with
  | nil => simp [records, contentLength]
  | cons file files ih => simp [records, ih, contentLength, Nat.add_assoc]

theorem length_packNode {node : InitrdNode} (h : node.name.length ≤ initrdNameMax) :
    (packNode node).length = initrdNodeSize := by
  simp only [initrdNameMax] at h
  simp [packNode, List.rightpad, writeLe32, initrdNodeSize, initrdNameMax]
  omega

theorem length_records (offset : Nat) {files : List RootFile}
    (h : ∀ file ∈ files, file.path.length < 32) :
    (records offset files).length = initrdNodeSize * files.length := by
  induction files generalizing offset with
  | nil => rfl
  | cons file files ih =>
    have hfile : (file.node offset).name.length ≤ initrdNameMax := (h file List.mem_cons_self).le
    rw [records, List.length_append, length_packNode hfile,
      ih _ fun f hf => h f (List.mem_cons_of_mem _ hf), List.length_cons]
    ring

theorem packUInt_of_lt {value : Nat} (h : value < 2 ^ 32) :
    packUInt value = some (UInt32.ofNat value) := if_pos h

theorem packEntries_eq {offset : Nat} {files : List RootFile}
    (hascii : ∀ file ∈ files, ∀ c ∈ file.path, c < 128)
    (hlength : ∀ file ∈ files, file.path.length < 32)
    (hfit : offset + contentLength files < 2 ^ 32) :
    packEntries offset files = some (records offset files) := by
  induction files generalizing offset with
  | nil => rfl
  | cons file files ih =>
    have hsum : contentLength (file :: files) = file.content.length + contentLength files := by
      simp [contentLength]
    have hfile := hlength file List.mem_cons_self
    have hrest : packEntries (offset + file.content.length) files =
        some (records (offset + file.content.length) files) := ih
      (fun f hf => hascii f (List.mem_cons_of_mem _ hf))
      (fun f hf => hlength f (List.mem_cons_of_mem _ hf)) (by omega)
    have hchars : (file.path.all fun c => decide (c < 128)) = true :=
      List.all_eq_true.mpr fun c hc => decide_eq_true (hascii file List.mem_cons_self c hc)
    rw [packEntries, hchars, if_neg (by decide), if_neg (by omega),
      packUInt_of_lt (by omega), packUInt_of_lt (by omega), hrest]
    rfl

theorem contentLength_le {files : List RootFile}
    (h : ∀ file ∈ files, file.content.length ≤ fsMaxEntrySize) :
    contentLength files ≤ fsMaxEntrySize * files.length := by
  induction files with
  | nil => exact Nat.zero_le _
  | cons file files ih =>
    have hfile := h file List.mem_cons_self
    have hrest := ih fun f hf => h f (List.mem_cons_of_mem _ hf)
    simp only [contentLength, List.flatMap_cons, List.length_append, List.length_cons] at hrest ⊢
    rw [Nat.mul_succ]
    omega

/-- The image of files that fit, as one layout. -/
def image (files : List RootFile) : Bytes :=
  initrdHeader (UInt32.ofNat files.length) ++
    records (initrdHeaderSize + initrdNodeSize * files.length) files ++
    files.flatMap RootFile.content

theorem RootFiles.length_le {files : List RootFile} (h : RootFiles files) :
    files.length ≤ maxFsEntries := by
  have hroom := h.room
  omega

theorem RootFiles.fits {files : List RootFile} (h : RootFiles files) :
    initrdHeaderSize + initrdNodeSize * files.length + contentLength files < 2 ^ 32 := by
  have hlength := h.length_le
  have hcontent := contentLength_le h.size_le
  simp only [maxFsEntries, fsMaxEntrySize, initrdHeaderSize, initrdNodeSize] at hlength hcontent ⊢
  omega

theorem mkinitrd_eq {files : List RootFile} (h : RootFiles files) :
    mkinitrd files = some (image files) := by
  have hfits := h.fits
  have hcount : files.length < 2 ^ 32 := by
    simp only [initrdNodeSize] at hfits
    omega
  rw [mkinitrd, packUInt_of_lt hcount,
    packEntries_eq (fun f hf c hc => (h.ascii f hf c hc).2) h.length_lt hfits]
  rfl

end Layout

section ReadBack

variable {boot : Multiboot}

theorem bytes_add (boot : Multiboot) (offset length length' : Nat) :
    boot.bytes offset (length + length') =
      boot.bytes offset length ++ boot.bytes (offset + length) length' := by
  simp [Multiboot.bytes, List.range_add, Nat.add_assoc]

/-- A part of the image is read at its distance from the start. -/
theorem bytes_of_holds (pre part post : Bytes) (h : boot.Holds (pre ++ part ++ post)) :
    boot.bytes pre.length part.length = part := by
  rw [Multiboot.Holds, List.length_append, List.length_append, bytes_add, bytes_add,
    Nat.zero_add] at h
  have hfront := (List.append_inj h (by simp [length_bytes])).1
  exact (List.append_inj hfront (length_bytes _ _ _)).2

theorem word_of_holds (pre post : Bytes) {value : UInt32}
    (h : boot.Holds (pre ++ writeLe32 value ++ post)) : boot.word pre.length = value := by
  have hbytes : boot.bytes pre.length 4 = writeLe32 value := bytes_of_holds _ _ _ h
  rw [Multiboot.word, hbytes, ← List.append_nil (writeLe32 value), readLe32_write]

theorem cString_rightpad {name : Bytes} (hname : NulFree name) {n : Nat} (h : name.length < n) :
    cString (name.rightpad n 0) = name := by
  have hpad : List.replicate (n - name.length) (0 : UInt8) =
      0 :: List.replicate (n - name.length - 1) 0 := by
    rw [← List.replicate_succ]
    congr 1
    omega
  rw [List.rightpad, hpad, cString_append_nul hname]

/-- A packed record is read back field by field. -/
theorem initrdNode_of_holds (pre post : Bytes) {node : InitrdNode} {i : Nat}
    (h : boot.Holds (pre ++ packNode node ++ post))
    (hpre : pre.length = initrdHeaderSize + initrdNodeSize * i) (hname : NulFree node.name)
    (hlength : node.name.length < initrdNameMax) : boot.initrdNode i = node := by
  set field := node.name.rightpad initrdNameMax 0 with hfield
  have hpad : field.length = initrdNameMax := by
    rw [hfield, List.length_rightpad]
    omega
  have hstring : boot.bytes pre.length field.length = field := by
    apply bytes_of_holds _ _
      (writeLe32 node.offset ++ writeLe32 node.size ++ writeLe32 node.type ++ post)
    simpa only [packNode, List.append_assoc] using h
  have hword : ∀ (front back : Bytes) (value : UInt32),
      packNode node = front ++ writeLe32 value ++ back →
      boot.word (pre.length + front.length) = value := by
    intro front back value hsplit
    rw [← List.length_append]
    apply word_of_holds _ (back ++ post)
    simpa only [hsplit, List.append_assoc] using h
  have hoffset := hword field _ node.offset (by simp only [packNode, List.append_assoc]; rfl)
  have hsize := hword (field ++ writeLe32 node.offset) _ node.size
    (by simp only [packNode, List.append_assoc]; rfl)
  have htype := hword (field ++ writeLe32 node.offset ++ writeLe32 node.size) [] node.type
    (by simp only [packNode, List.append_nil]; rfl)
  simp only [List.length_append, hpad, hpre, writeLe32, List.length_cons, List.length_nil]
    at hstring hoffset hsize htype
  have hoffset' : boot.word (initrdHeaderSize + initrdNodeSize * i + 32) = node.offset := hoffset
  have hsize' : boot.word (initrdHeaderSize + initrdNodeSize * i + 36) = node.size := hsize
  have htype' : boot.word (initrdHeaderSize + initrdNodeSize * i + 40) = node.type := htype
  rw [Multiboot.initrdNode, hstring, hfield, cString_rightpad hname hlength, hoffset', hsize',
    htype']

theorem image_header {files : List RootFile} (hholds : boot.Holds (image files)) :
    boot.word 0 = initrdMagic ∧ boot.word 4 = initrdVersion ∧
      boot.word 8 = UInt32.ofNat files.length := by
  have hword : ∀ (front back : Bytes) (value : UInt32),
      initrdHeader (UInt32.ofNat files.length) = front ++ writeLe32 value ++ back →
      boot.word front.length = value := by
    intro front back value hsplit
    apply word_of_holds front (back ++ records (initrdHeaderSize + initrdNodeSize * files.length)
      files ++ files.flatMap RootFile.content)
    rw [image, hsplit] at hholds
    simpa only [List.append_assoc] using hholds
  refine ⟨hword [] (writeLe32 initrdVersion ++ writeLe32 (UInt32.ofNat files.length)) _ ?_,
    hword (writeLe32 initrdMagic) (writeLe32 (UInt32.ofNat files.length)) _ rfl,
    hword (writeLe32 initrdMagic ++ writeLe32 initrdVersion) [] _ ?_⟩
  · rw [initrdHeader, List.append_assoc, List.nil_append]
  · rw [initrdHeader, List.append_nil]

/-- Where the content of the file behind `before` starts. -/
def contentOffset (files before : List RootFile) : Nat :=
  initrdHeaderSize + initrdNodeSize * files.length + contentLength before

theorem contentOffset_lt {files before after : List RootFile} (hfiles : RootFiles files)
    (hsplit : files = before ++ after) : contentOffset files before < 2 ^ 32 := by
  have hfits := hfiles.fits
  have hle : contentLength before ≤ contentLength files := by
    simp [hsplit, contentLength]
  rw [contentOffset]
  omega

/-- The loader finds the record and the content of each file. -/
theorem image_record {files before after : List RootFile} {file : RootFile}
    (hfiles : RootFiles files) (hholds : boot.Holds (image files))
    (hsplit : files = before ++ file :: after) :
    boot.initrdNode before.length = file.node (contentOffset files before) ∧
      boot.bytes (contentOffset files before) file.content.length = file.content := by
  have hmem : file ∈ files := by simp [hsplit]
  have hbefore : ∀ f ∈ before, f.path.length < 32 :=
    fun f hf => hfiles.length_lt f (by simp [hsplit, hf])
  set base := initrdHeaderSize + initrdNodeSize * files.length with hbase
  have hrecords : records base files = records base before ++
      packNode (file.node (contentOffset files before)) ++
        records (contentOffset files before + file.content.length) after := by
    conv_lhs => rw [hsplit, records_append, records]
    rw [List.append_assoc]
    rfl
  constructor
  · apply initrdNode_of_holds (initrdHeader (UInt32.ofNat files.length) ++ records base before)
      (records (contentOffset files before + file.content.length) after ++
        files.flatMap RootFile.content)
    · rw [image, ← hbase, hrecords] at hholds
      simpa only [List.append_assoc] using hholds
    · rw [List.length_append, length_records base hbefore]
      rfl
    · intro hnul
      exact absurd (hfiles.ascii file hmem 0 hnul).1 (by decide)
    · exact hfiles.length_lt file hmem
  · have hoffset : contentOffset files before = (initrdHeader (UInt32.ofNat files.length) ++
        records base files ++ before.flatMap RootFile.content).length := by
      rw [List.length_append, List.length_append, length_records base hfiles.length_lt]
      rfl
    rw [hoffset]
    apply bytes_of_holds _ _ (after.flatMap RootFile.content)
    rw [image, hsplit, List.flatMap_append, List.flatMap_cons, ← hsplit] at hholds
    simpa only [List.append_assoc] using hholds

end ReadBack

section Loading

variable {boot : Multiboot} {st : FsState} {files : List RootFile}

/-- The table shows the files and the directories above them and nothing else. -/
structure Shows (files : List RootFile) (nodes : List FsNode) : Prop where
  tree : FsTree nodes
  mem_view : ∀ v, v ∈ nodes.map FsNode.view ↔
    (∃ file ∈ files, v = file.view) ∨ ∃ file ∈ files, ∃ q, Below slash q file.path ∧ v = dirView q

theorem entryType_ne_dir (path : Bytes) : entryType path ≠ fsTypeDir := by
  rw [entryType]
  split <;> decide

/-- A used name belongs to a file or lies above one. -/
theorem Shows.name_cases {nodes : List FsNode} (h : Shows files nodes) {node : FsNode}
    (hnode : node ∈ nodes) : (∃ file ∈ files, node.view = file.view) ∨
      ∃ file ∈ files, Below slash node.name file.path ∧ node.type = fsTypeDir := by
  rcases (h.mem_view _).mp (List.mem_map_of_mem hnode) with hfile | ⟨file, hmem, q, hq, hv⟩
  · exact Or.inl hfile
  · obtain rfl : node.name = q := congrArg FileNode.path hv
    exact Or.inr ⟨file, hmem, hq, congrArg FileNode.type hv⟩

theorem mem_impliedDirs {q : Bytes} :
    q ∈ impliedDirs files ↔ ∃ file ∈ files, Below slash q file.path := by
  simp [impliedDirs, mem_ancestors]

section Next

variable {before after : List RootFile} {file : RootFile}

theorem Shows.parents {nodes : List FsNode} (h : Shows before nodes)
    (hfiles : RootFiles (before ++ file :: after)) :
    ∀ node ∈ nodes, Below slash node.name file.path → node.type = fsTypeDir := by
  intro node hnode hbelow
  rcases h.name_cases hnode with ⟨g, hg, hv⟩ | ⟨g, hg, -, hdir⟩
  · have hname : node.name = g.path := congrArg FileNode.path hv
    rw [hname] at hbelow
    exact absurd hbelow (hfiles.apart g (by simp [hg]) file (by simp))
  · exact hdir

theorem Shows.fresh {nodes : List FsNode} (h : Shows before nodes)
    (hfiles : RootFiles (before ++ file :: after)) : file.path ∉ nodes.map FsNode.name := by
  intro hmem
  obtain ⟨node, hnode, hname⟩ := List.mem_map.mp hmem
  rcases h.name_cases hnode with ⟨g, hg, hv⟩ | ⟨g, hg, hbelow, -⟩
  · have hpath : g.path = file.path := (congrArg FileNode.path hv).symm.trans hname
    have hdistinct := hfiles.distinct
    rw [List.map_append, List.map_cons] at hdistinct
    exact (List.nodup_append.mp hdistinct).2.2 g.path (List.mem_map_of_mem hg) file.path
      List.mem_cons_self hpath
  · rw [hname] at hbelow
    exact hfiles.apart file (by simp) g (by simp [hg]) hbelow

/-- The paths in use and those a file adds are among the files and directories of the whole
tree, so there is a slot for each. -/
theorem Shows.room {nodes : List FsNode} (h : Shows before nodes)
    (hfiles : RootFiles (before ++ file :: after)) :
    nodes.length + (missing nodes (ancestors slash file.path)).length < maxFsEntries := by
  have hmissing : (missing nodes (ancestors slash file.path)).Nodup := by
    apply List.Nodup.filter
    exact (ancestors_pairwise slash file.path).imp fun hb => hb.ne.symm
  have hnodup : (nodes.map FsNode.name ++ missing nodes (ancestors slash file.path) ++
      [file.path]).Nodup := by
    apply (h.tree.distinct.append hmissing ?_).append (List.nodup_singleton _)
    · apply List.disjoint_singleton.mpr
      intro hmem
      rcases List.mem_append.mp hmem with hmem | hmem
      · exact h.fresh hfiles hmem
      · exact (mem_ancestors.mp (List.mem_of_mem_filter hmem)).ne rfl
    · intro q hq hm
      have habsent : q ∉ nodes.map FsNode.name := by simpa using (List.mem_filter.mp hm).2
      exact habsent hq
  have hsub : nodes.map FsNode.name ++ missing nodes (ancestors slash file.path) ++ [file.path] ⊆
      (before ++ file :: after).map RootFile.path ++ impliedDirs (before ++ file :: after) := by
    intro q hq
    simp only [List.append_assoc, List.mem_append, List.mem_singleton] at hq
    apply List.mem_append.mpr
    rcases hq with hq | hq | rfl
    · obtain ⟨node, hnode, rfl⟩ := List.mem_map.mp hq
      rcases h.name_cases hnode with ⟨g, hg, hv⟩ | ⟨g, hg, hbelow, -⟩
      · exact Or.inl (List.mem_map.mpr ⟨g, by simp [hg], (congrArg FileNode.path hv).symm⟩)
      · exact Or.inr (mem_impliedDirs.mpr ⟨g, by simp [hg], hbelow⟩)
    · have hbelow := mem_ancestors.mp (List.mem_of_mem_filter hq)
      exact Or.inr (mem_impliedDirs.mpr ⟨file, by simp, hbelow⟩)
    · exact Or.inl (List.mem_map_of_mem (by simp))
  have hle := (List.subperm_of_subset hnodup hsub).length_le
  have hroom := hfiles.room
  simp only [List.length_append, List.length_map, List.length_cons, List.length_nil] at hle hroom
  omega

/-- A directory of the next file that the table has is shown as one. -/
theorem Shows.dirView_mem {nodes : List FsNode} (h : Shows before nodes)
    (hfiles : RootFiles (before ++ file :: after)) {q : Bytes}
    (hused : q ∈ nodes.map FsNode.name) (hq : Below slash q file.path) :
    dirView q ∈ nodes.map FsNode.view := by
  obtain ⟨node, hnode, rfl⟩ := List.mem_map.mp hused
  have hdir := h.parents hfiles node hnode hq
  rcases (h.mem_view _).mp (List.mem_map_of_mem hnode) with ⟨g, -, hv⟩ | ⟨g, -, r, -, hv⟩
  · have htype : node.type = entryType g.path := congrArg FileNode.type hv
    exact absurd (htype.symm.trans hdir) (entryType_ne_dir _)
  · obtain rfl : node.name = r := congrArg FileNode.path hv
    rw [← hv]
    exact List.mem_map_of_mem hnode

/-- The loader accepts the next file and its table then shows that file too. -/
theorem Shows.load (h : Shows before st.used) (hfiles : RootFiles (before ++ file :: after))
    {offset : Nat} (hoffset : offset < 2 ^ 32)
    (hnode : boot.initrdNode before.length = file.node offset)
    (hcontent : boot.bytes offset file.content.length = file.content) :
    (fsLoadNode boot st before.length).ok = true ∧
      Shows (before ++ [file]) (fsLoadNode boot st before.length).table.used := by
  have hmem : file ∈ before ++ file :: after := by simp
  have hsize : (UInt32.ofNat file.content.length).toNat = file.content.length := by
    have hle := hfiles.size_le file hmem
    simp only [fsMaxEntrySize] at hle
    exact UInt32.toNat_ofNat_of_lt' (by simp [UInt32.size]; omega)
  have hplace : (UInt32.ofNat offset).toNat = offset :=
    UInt32.toNat_ofNat_of_lt' hoffset
  have hnormal := hfiles.normal file hmem
  have haccepts : Accepts st.used (file.node offset) file.path := by
    refine ⟨fsNormalizePath_of_normal hnormal, hnormal.ne_nil, entryType_ne_dir _, ?_,
      h.parents hfiles, h.room hfiles⟩
    exact hsize.trans_le (hfiles.size_le file hmem)
  have spec := fsLoadFile_spec boot h.tree (file.node offset)
  have hview := spec.view _ haccepts
  have hshown : (file.node offset).view boot file.path = file.view := by
    simp only [InitrdNode.view, RootFile.node, RootFile.view, hsize, hplace, hcontent]
  rw [fsLoadNode, hnode]
  dsimp only
  refine ⟨spec.ok_iff.mpr ⟨_, haccepts⟩, spec.tree _ haccepts (h.fresh hfiles), fun v => ?_⟩
  rw [hview, hshown]
  simp only [List.mem_append, List.mem_singleton, h.mem_view]
  constructor
  · rintro (((⟨f, hf, rfl⟩ | ⟨f, hf, q, hq, rfl⟩) | hv) | rfl)
    · exact Or.inl ⟨f, Or.inl hf, rfl⟩
    · exact Or.inr ⟨f, Or.inl hf, q, hq, rfl⟩
    · obtain ⟨q, hq, rfl⟩ := List.mem_map.mp hv
      exact Or.inr ⟨file, Or.inr rfl, q, mem_ancestors.mp (List.mem_of_mem_filter hq), rfl⟩
    · exact Or.inl ⟨file, Or.inr rfl, rfl⟩
  · rintro (⟨f, (hf | rfl), rfl⟩ | ⟨f, (hf | rfl), q, hq, rfl⟩)
    · exact Or.inl (Or.inl (Or.inl ⟨f, hf, rfl⟩))
    · exact Or.inr rfl
    · exact Or.inl (Or.inl (Or.inr ⟨f, hf, q, hq, rfl⟩))
    · left
      by_cases hused : q ∈ st.used.map FsNode.name
      · exact Or.inl ((h.mem_view _).mp (h.dirView_mem hfiles hused hq))
      · refine Or.inr (List.mem_map_of_mem (List.mem_filter.mpr ⟨mem_ancestors.mpr hq, ?_⟩))
        simpa using hused

end Next

/-- The loop takes every file that is left. -/
theorem Shows.loadAll (hfiles : RootFiles files) (hholds : boot.Holds (image files))
    (before after : List RootFile) (hsplit : files = before ++ after)
    (h : Shows before st.used) :
    Shows files (fsLoadNodes boot st (List.range' before.length after.length)).1.used := by
  induction after generalizing before st with
  | nil =>
    rw [hsplit, List.append_nil]
    exact h
  | cons file after ih =>
    obtain ⟨hnode, hcontent⟩ := image_record hfiles hholds hsplit
    have hload := h.load (hsplit ▸ hfiles) (contentOffset_lt hfiles hsplit) hnode hcontent
    have hlater := ih (before ++ [file]) (by simp [hsplit]) hload.2
    rw [List.length_append, List.length_singleton] at hlater
    rw [List.length_cons, List.range'_succ, fsLoadNodes]
    dsimp only
    rw [if_pos hload.1]
    exact hlater

theorem Shows.perm {nodes : List FsNode} (hfiles : RootFiles files) (h : Shows files nodes) :
    (nodes.map FsNode.view).Perm
      (files.map RootFile.view ++ (impliedDirs files).map dirView) := by
  have hleft : (nodes.map FsNode.view).Nodup := by
    apply List.Nodup.of_map FileNode.path
    rw [List.map_map]
    exact h.tree.distinct
  have hright : (files.map RootFile.view ++ (impliedDirs files).map dirView).Nodup := by
    apply List.Nodup.of_map FileNode.path
    rw [List.map_append, List.map_map, List.map_map]
    apply hfiles.distinct.append
    · rw [show FileNode.path ∘ dirView = id from rfl, List.map_id]
      exact List.nodup_dedup _
    · intro p hp hq
      obtain ⟨file, hfile, rfl⟩ := List.mem_map.mp hp
      obtain ⟨q, hq, hpath⟩ := List.mem_map.mp hq
      obtain ⟨other, hother, hbelow⟩ := mem_impliedDirs.mp hq
      obtain rfl : q = file.path := hpath
      exact hfiles.apart file hfile other hother hbelow
  apply (List.perm_ext_iff_of_nodup hleft hright).mpr
  intro v
  rw [h.mem_view, List.mem_append, List.mem_map, List.mem_map]
  refine or_congr (by simp only [eq_comm]) ⟨?_, ?_⟩
  · rintro ⟨file, hfile, q, hq, rfl⟩
    exact ⟨q, mem_impliedDirs.mpr ⟨file, hfile, hq⟩, rfl⟩
  · rintro ⟨q, hq, rfl⟩
    obtain ⟨file, hfile, hbelow⟩ := mem_impliedDirs.mp hq
    exact ⟨file, hfile, q, hbelow, rfl⟩

end Loading

/-- The image of the files of a directory tree, loaded at any address, gives a table with one
entry for each file and one for each directory above it, and no other. -/
theorem mkinitrd_roundTrip (files : List RootFile) (hfiles : RootFiles files) :
    ∃ bytes, mkinitrd files = some bytes ∧
      ∀ (boot : Multiboot) (st : FsState), boot.HasModule → boot.Holds bytes →
        (fsInit boot st).ok = true ∧
          ((fsInit boot st).table.used.map FsNode.view).Perm
            (files.map RootFile.view ++ (impliedDirs files).map dirView) := by
  refine ⟨image files, mkinitrd_eq hfiles, fun boot st hmodule hholds => ?_⟩
  have hlength := hfiles.length_le
  obtain ⟨hmagic, hversion, hcount⟩ := image_header hholds
  have hentries : boot.initrdCount = files.length := by
    simp only [maxFsEntries] at hlength
    rw [Multiboot.initrdCount, hcount, UInt32.toNat_ofNat_of_lt' (by simp [UInt32.size]; omega)]
    exact min_eq_left hlength
  have hempty : Shows [] st.emptied.used := by
    rw [show st.emptied.used = [] from List.take_zero]
    exact ⟨FsTree.nil, by simp⟩
  have hshows := Shows.loadAll hfiles hholds [] files rfl hempty
  have hperm := hshows.perm hfiles
  rw [List.length_nil, ← List.range_eq_range', ← hentries] at hperm
  have hpos : 0 < (fsLoadNodes boot st.emptied (List.range boot.initrdCount)).1.count := by
    have hlen := hperm.length_eq
    have hne := List.length_pos_of_ne_nil hfiles.ne_nil
    simp only [List.length_map, SlotTable.length_used, List.length_append] at hlen
    omega
  rw [fsInit, if_pos hmodule, fsLoadInitrd, if_pos hmagic, if_pos hversion]
  dsimp only
  rw [if_pos hpos]
  exact ⟨rfl, hperm⟩

theorem mkinitrd_roundTrip_calc :
    let files : List RootFile :=
      [⟨ascii "README.TXT", ascii "hi"⟩, ⟨ascii "bin/calc.app", [1, 2, 3]⟩]
    ∃ bytes, mkinitrd files = some bytes ∧
      (fsInit (bootWith 0x00100000 bytes) fsZero).ok = true ∧
        ((fsInit (bootWith 0x00100000 bytes) fsZero).table.used.map FsNode.view).Perm
          [⟨ascii "README.TXT", fsTypeText, ascii "hi"⟩,
            ⟨ascii "bin/calc.app", fsTypeProgram, [1, 2, 3]⟩, dirView (ascii "bin")] := by
  intro files
  have hfiles : RootFiles files := by
    refine ⟨by decide, by decide +kernel, ?_, by decide, by decide, by decide, by decide, by decide⟩
    intro file hfile
    rcases List.mem_pair.mp hfile with rfl | rfl
    · exact ⟨by decide, by decide, by decide, by decide, by decide⟩
    · exact ⟨by decide, by decide, by decide, by decide, by decide⟩
  obtain ⟨bytes, hbytes, hload⟩ := mkinitrd_roundTrip files hfiles
  obtain rfl : image files = bytes := Option.some.inj ((mkinitrd_eq hfiles).symm.trans hbytes)
  have hholds : (bootWith 0x00100000 (image files)).Holds (image files) := by
    decide +kernel
  exact ⟨image files, hbytes, hload _ fsZero (by decide) hholds⟩

end SnsxOS.X86
