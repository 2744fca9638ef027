import SnsxOS.Framework.ForLoop
import SnsxOS.Framework.Bytes

/-!
# Segments and pages

`gdt_install` fills the descriptor table and `paging_install` the page directory. A logical address
goes through the segment of a selector and a page of four MiB to the memory.
-/

namespace SnsxOS.X86

open SnsxOS.Framework

/-! ## The descriptor table -/

/-- `gdt_entry_t` -/
structure GdtEntry where
  limitLow : UInt16
  baseLow : UInt16
  baseMiddle : UInt8
  access : UInt8
  granularity : UInt8
  baseHigh : UInt8
  deriving DecidableEq

/-- The entry that `gdt_set_gate` writes. -/
def gdtGate (base limit : UInt32) (access granularity : UInt8) : GdtEntry where
  baseLow := (base &&& 0xFFFF).toUInt16
  baseMiddle := ((base >>> 16) &&& 0xFF).toUInt8
  baseHigh := ((base >>> 24) &&& 0xFF).toUInt8
  limitLow := (limit &&& 0xFFFF).toUInt16
  granularity := ((limit >>> 16) &&& 0x0F).toUInt8 ||| (granularity &&& 0xF0)
  access := access

/-- `gdt_set_gate` -/
def gdtSetGate (gdt : List GdtEntry) (index : Nat) (base limit : UInt32)
    (access granularity : UInt8) : List GdtEntry :=
  gdt.set index (gdtGate base limit access granularity)

/-- The table of `gdt_install`, of five entries. -/
def gdtInstall (gdt : List GdtEntry) : List GdtEntry :=
  let gdt := gdtSetGate gdt 0 0 0 0 0
  let gdt := gdtSetGate gdt 1 0 0xFFFFFFFF 0x9A 0xCF
  let gdt := gdtSetGate gdt 2 0 0xFFFFFFFF 0x92 0xCF
  let gdt := gdtSetGate gdt 3 0 0xFFFFFFFF 0xFA 0xCF
  gdtSetGate gdt 4 0 0xFFFFFFFF 0xF2 0xCF

namespace GdtEntry

/-- The parts of a descriptor as the processor puts them together. -/
def base (e : GdtEntry) : UInt32 :=
  e.baseHigh.toUInt32 <<< 24 ||| e.baseMiddle.toUInt32 <<< 16 ||| e.baseLow.toUInt32

def rawLimit (e : GdtEntry) : UInt32 :=
  (e.granularity &&& 0x0F).toUInt32 <<< 16 ||| e.limitLow.toUInt32

/-- The limit in bytes. -/
def limit (e : GdtEntry) : UInt32 :=
  if e.granularity &&& 0x80 = 0 then e.rawLimit else e.rawLimit <<< 12 ||| 0xFFF

def present (e : GdtEntry) : Bool := e.access &&& 0x80 != 0

def executable (e : GdtEntry) : Bool := e.access &&& 0x08 != 0

/-- The readable bit of code and the writable bit of data. -/
def accessible (e : GdtEntry) : Bool := e.access &&& 0x02 != 0

def privilege (e : GdtEntry) : UInt8 := (e.access >>> 5) &&& 0x03

end GdtEntry

/-! ## The page directory -/

/-- `paging_install` up to its control registers. -/
def pageDirectory : List UInt32 :=
  (List.range 16).foldl
    (fun directory i => directory.set i ((UInt32.ofNat i * 0x400000) ||| 0x83))
    (List.replicate 1024 0)

/-- The registers that the translation depends on. -/
structure MemoryRegisters where
  gdt : List GdtEntry
  cs : UInt16
  ds : UInt16
  cr0 : UInt32
  cr3 : List UInt32
  cr4 : UInt32

/-- `gdt_flush` behind `lgdt`; one segment stands for all those of data. -/
def gdtFlush (r : MemoryRegisters) : MemoryRegisters := { r with cs := 0x08, ds := 0x10 }

/-- `gdt_install` and `paging_install`. -/
def kernelMemory (r : MemoryRegisters) : MemoryRegisters :=
  let r := gdtFlush { r with gdt := gdtInstall r.gdt }
  { r with
    cr3 := pageDirectory
    cr4 := r.cr4 ||| 0x10
    cr0 := r.cr0 ||| 0x80000000 }

/-- The descriptor of a selector; there is no local table. -/
def descriptor (gdt : List GdtEntry) (selector : UInt16) : Option GdtEntry :=
  if selector &&& 0x04 ≠ 0 then none
  else (gdt[(selector >>> 3).toNat]?).filter GdtEntry.present

/-- The linear address of an offset into a segment. -/
def linearAddress (gdt : List GdtEntry) (selector : UInt16) (offset : UInt32) : Option UInt32 :=
  (descriptor gdt selector).bind fun e =>
    if offset ≤ e.limit then some (e.base + offset) else none

/-- The physical address of a linear one; a page table below the directory is not followed. -/
def physicalAddress (r : MemoryRegisters) (linear : UInt32) : Option UInt32 :=
  if r.cr0 &&& 0x80000000 = 0 then some linear
  else (r.cr3[(linear >>> 22).toNat]?).bind fun entry =>
    if entry &&& 0x01 = 0 ∨ entry &&& 0x80 = 0 ∨ r.cr4 &&& 0x10 = 0 then none
    else some ((entry &&& 0xFFC00000) ||| (linear &&& 0x3FFFFF))

def translateOffset (r : MemoryRegisters) (selector : UInt16) (offset : UInt32) : Option UInt32 :=
  (linearAddress r.gdt selector offset).bind (physicalAddress r)

/-! ## Round trips -/

theorem base_gdtGate (base limit : UInt32) (access granularity : UInt8) :
    (gdtGate base limit access granularity).base = base := by
  apply UInt32.toBitVec_inj.mp
  ext i hi
  simp [GdtEntry.base, gdtGate, -UInt32.toUInt32_toUInt16, -UInt32.toUInt32_toUInt8]
  interval_cases i <;> simp

theorem rawLimit_gdtGate (base limit : UInt32) (access granularity : UInt8) :
    (gdtGate base limit access granularity).rawLimit = limit &&& 0xFFFFF := by
  apply UInt32.toBitVec_inj.mp
  ext i hi
  simp [GdtEntry.rawLimit, gdtGate, -UInt32.toUInt32_toUInt16, -UInt32.toUInt32_toUInt8]
  interval_cases i <;> simp

theorem limit_gdtGate (base limit : UInt32) (access granularity : UInt8) :
    (gdtGate base limit access granularity).limit =
      if granularity &&& 0x80 = 0 then limit &&& 0xFFFFF
      else (limit &&& 0xFFFFF) <<< 12 ||| 0xFFF := by
  have hbit : (gdtGate base limit access granularity).granularity &&& 0x80 =
      granularity &&& 0x80 := by
    apply UInt8.toBitVec_inj.mp
    ext i hi
    simp [gdtGate]
    interval_cases i <;> simp
  rw [GdtEntry.limit, hbit, rawLimit_gdtGate]

/-! ## The memory of the kernel -/

/-- The entries of `gdt_install` behind the null one. -/
theorem gdtInstall_getElem? {gdt : List GdtEntry} (h : gdt.length = 5) (index : Nat) :
    (gdtInstall gdt)[index]? =
      [gdtGate 0 0 0 0, gdtGate 0 0xFFFFFFFF 0x9A 0xCF, gdtGate 0 0xFFFFFFFF 0x92 0xCF,
        gdtGate 0 0xFFFFFFFF 0xFA 0xCF, gdtGate 0 0xFFFFFFFF 0xF2 0xCF][index]? := by
  rcases gdt with _ | ⟨a, _ | ⟨b, _ | ⟨c, _ | ⟨d, _ | ⟨e, _ | ⟨f, gdt⟩⟩⟩⟩⟩⟩ <;> simp at h
  rfl

theorem setEach_getElem? {α : Type*} (f : Nat → α) (cells : List α) {count : Nat}
    (hcount : count ≤ cells.length) (j : Nat) :
    ((List.range count).foldl (fun cells i => cells.set i (f i)) cells)[j]? =
      if j < count then some (f j) else cells[j]? := by
  induction count with
  | zero => rw [if_neg (Nat.not_lt_zero j)]; rfl
  | succ count ih =>
    have hlength : ∀ count, ((List.range count).foldl (fun cells i => cells.set i (f i))
        cells).length = cells.length := by
      intro count
      induction count with
      | zero => rfl
      | succ count ih => rw [List.range_succ, List.foldl_concat, List.length_set, ih]
    rw [List.range_succ, List.foldl_concat, List.getElem?_set, hlength, ih (by omega)]
    by_cases hlast : count = j
    · rw [if_pos hlast, if_pos (by omega), if_pos (by omega), hlast]
    · rw [if_neg hlast]
      exact if_congr (by omega) rfl rfl

theorem pageDirectory_getElem? {index : Nat} (h : index < 1024) :
    pageDirectory[index]? =
      some (if index < 16 then (UInt32.ofNat index * 0x400000) ||| 0x83 else 0) := by
  have hroom : 16 ≤ (List.replicate 1024 (0 : UInt32)).length := by
    rw [List.length_replicate]
    decide
  rw [pageDirectory, setEach_getElem? _ _ hroom, List.getElem?_replicate, if_pos h]
  split <;> rfl

/-- A page of the directory that is present, and where it lies. -/
theorem pageEntry_facts : ∀ index : Fin 16,
    ((UInt32.ofNat index.val * 0x400000) ||| 0x83) &&& 0x01 ≠ 0 ∧
      ((UInt32.ofNat index.val * 0x400000) ||| 0x83) &&& 0x80 ≠ 0 ∧
      (((UInt32.ofNat index.val * 0x400000) ||| 0x83) &&& 0xFFC00000).toNat =
        2 ^ 22 * index.val := by
  decide

theorem page_offset (linear : UInt32) (h : linear.toNat / 2 ^ 22 < 16) :
    ((UInt32.ofNat (linear.toNat / 2 ^ 22) * 0x400000 ||| 0x83) &&& 0xFFC00000) |||
      (linear &&& 0x3FFFFF) = linear := by
  have hframe := (pageEntry_facts ⟨_, h⟩).2.2
  have hlow : (linear &&& 0x3FFFFF).toNat = linear.toNat % 2 ^ 22 := by
    rw [UInt32.toNat_and]
    exact Nat.and_two_pow_sub_one_eq_mod _ 22
  have hless : linear.toNat % 2 ^ 22 < 2 ^ 22 := Nat.mod_lt _ (by decide)
  apply UInt32.toNat_inj.mp
  rw [UInt32.toNat_or, hframe, hlow, ← Nat.two_pow_add_eq_or_of_lt hless]
  exact Nat.div_add_mod _ _

section Kernel

variable (r : MemoryRegisters)

theorem physicalAddress_kernelMemory (linear : UInt32) :
    physicalAddress (kernelMemory r) linear =
      if linear < 0x4000000 then some linear else none := by
  have hpaging : (kernelMemory r).cr0 &&& 0x80000000 ≠ 0 := by
    intro hzero
    have hbit := congrArg (fun value : UInt32 => value.toBitVec[31]) hzero
    simp [kernelMemory, gdtFlush] at hbit
  have hlarge : (kernelMemory r).cr4 &&& 0x10 ≠ 0 := by
    intro hzero
    have hbit := congrArg (fun value : UInt32 => value.toBitVec[4]) hzero
    simp [kernelMemory, gdtFlush] at hbit
  have hindex : (linear >>> 22).toNat = linear.toNat / 2 ^ 22 := by
    rw [UInt32.toNat_shiftRight]
    exact Nat.shiftRight_eq_div_pow _ 22
  have hroom : linear.toNat / 2 ^ 22 < 1024 := by
    have hword := linear.toNat_lt
    omega
  have hdirectory : (kernelMemory r).cr3[(linear >>> 22).toNat]? =
      some (if linear.toNat / 2 ^ 22 < 16 then
        (UInt32.ofNat (linear.toNat / 2 ^ 22) * 0x400000) ||| 0x83 else 0) := by
    rw [hindex]
    exact pageDirectory_getElem? hroom
  have hbelow : linear < 0x4000000 ↔ linear.toNat / 2 ^ 22 < 16 := by
    rw [UInt32.lt_iff_toNat_lt]
    show linear.toNat < 67108864 ↔ _
    omega
  rw [physicalAddress, if_neg hpaging, hdirectory, Option.bind_some]
  by_cases hmapped : linear.toNat / 2 ^ 22 < 16
  · obtain ⟨hpresent, hsize, -⟩ := pageEntry_facts ⟨_, hmapped⟩
    rw [if_pos hmapped, if_pos (hbelow.mpr hmapped), if_neg, page_offset linear hmapped]
    exact not_or.mpr ⟨hpresent, not_or.mpr ⟨hsize, hlarge⟩⟩
  · rw [if_neg hmapped, if_neg (hbelow.not.mpr hmapped), if_pos (.inl rfl)]

/-- The four segments behind the null one cover all addresses. -/
theorem linearAddress_kernelMemory (h : r.gdt.length = 5) (selector : UInt16)
    (hlocal : selector &&& 0x04 = 0) (offset : UInt32) :
    linearAddress (kernelMemory r).gdt selector offset =
      if 1 ≤ (selector >>> 3).toNat ∧ (selector >>> 3).toNat < 5 then some offset else none := by
  have hgdt : (kernelMemory r).gdt = gdtInstall r.gdt := rfl
  have hlimit : ∀ access, (gdtGate 0 0xFFFFFFFF access 0xCF).limit = 0xFFFFFFFF := by
    intro access
    rw [limit_gdtGate]
    rfl
  have hbase : ∀ access, (gdtGate 0 0xFFFFFFFF access 0xCF).base = 0 :=
    fun access => base_gdtGate 0 0xFFFFFFFF access 0xCF
  have hflat : ∀ access, (gdtGate 0 0xFFFFFFFF access 0xCF).present = true →
      ((some (gdtGate 0 0xFFFFFFFF access 0xCF)).filter GdtEntry.present).bind
        (fun e => if offset ≤ e.limit then some (e.base + offset) else none) = some offset := by
    intro access hpresent
    have hmax : offset ≤ 0xFFFFFFFF := by
      rw [UInt32.le_iff_toNat_le]
      exact Nat.le_of_lt_succ offset.toNat_lt
    rw [Option.filter_some_pos hpresent, Option.bind_some, hlimit, if_pos hmax, hbase,
      UInt32.zero_add]
  rw [linearAddress, descriptor, if_neg (not_not.mpr hlocal), hgdt, gdtInstall_getElem? h]
  generalize (selector >>> 3).toNat = index
  rcases index with _ | _ | _ | _ | _ | index
  · rfl
  · exact hflat 0x9A rfl
  · exact hflat 0x92 rfl
  · exact hflat 0xFA rfl
  · exact hflat 0xF2 rfl
  · rw [if_neg (by omega)]
    rfl

end Kernel

end SnsxOS.X86
