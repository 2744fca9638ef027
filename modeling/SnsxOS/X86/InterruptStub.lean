import SnsxOS.X86.Interrupts

/-!
# The interrupt stubs

Each vector has a stub that pushes its number and goes on to `isr_common_stub`, which saves the
registers as the `registers_t` of `interrupt_dispatch`, calls it and restores them. The stack is
one of double words, and the stack pointer counts them.
-/

namespace SnsxOS.X86

open SnsxOS.Framework

/-- The registers and the memory in double words; the stack pointer `sp` stands for the address
`4 * sp`. -/
structure Cpu where
  eax : UInt32
  ecx : UInt32
  edx : UInt32
  ebx : UInt32
  sp : Nat
  ebp : UInt32
  esi : UInt32
  edi : UInt32
  ds : UInt16
  es : UInt16
  fs : UInt16
  gs : UInt16
  cs : UInt16
  eip : UInt32
  eflags : UInt32
  memory : Nat → UInt32

namespace Cpu

def esp (c : Cpu) : UInt32 := UInt32.ofNat (4 * c.sp)

def push (c : Cpu) (value : UInt32) : Cpu :=
  { c with sp := c.sp - 1, memory := Function.update c.memory (c.sp - 1) value }

/-- The top of the stack. -/
def top (c : Cpu) : UInt32 := c.memory c.sp

def drop (c : Cpu) (count : Nat) : Cpu := { c with sp := c.sp + count }

end Cpu

/-- The instructions of the stubs, but for the jump and the call. -/
inductive StubInstr where
  | pushImm (value : UInt32)
  | pusha
  | xorEaxEax
  | movAxDs
  | pushEax
  | movAx (value : UInt16)
  | movDsAx
  | movEsAx
  | movFsAx
  | movGsAx
  | pushEsp
  /-- `add esp, 4 * count` -/
  | addEsp (count : Nat)
  | popEax
  | popa
  | iretd
  deriving DecidableEq

/-- The lower half of a register set. -/
def withLow (value : UInt32) (low : UInt16) : UInt32 := (value &&& 0xFFFF0000) ||| low.toUInt32

def stubExec (c : Cpu) : StubInstr → Cpu
  | .pushImm value => c.push value
  | .pusha =>
      (((((((c.push c.eax).push c.ecx).push c.edx).push c.ebx).push c.esp).push c.ebp).push
        c.esi).push c.edi
  | .xorEaxEax => { c with eax := c.eax ^^^ c.eax }
  | .movAxDs => { c with eax := withLow c.eax c.ds }
  | .pushEax => c.push c.eax
  | .movAx value => { c with eax := withLow c.eax value }
  | .movDsAx => { c with ds := c.eax.toUInt16 }
  | .movEsAx => { c with es := c.eax.toUInt16 }
  | .movFsAx => { c with fs := c.eax.toUInt16 }
  | .movGsAx => { c with gs := c.eax.toUInt16 }
  | .pushEsp => c.push c.esp
  | .addEsp count => c.drop count
  | .popEax => { c.drop 1 with eax := c.top }
  | .popa =>
      { c.drop 8 with
        edi := c.memory c.sp
        esi := c.memory (c.sp + 1)
        ebp := c.memory (c.sp + 2)
        ebx := c.memory (c.sp + 4)
        edx := c.memory (c.sp + 5)
        ecx := c.memory (c.sp + 6)
        eax := c.memory (c.sp + 7) }
  | .iretd =>
      { c.drop 3 with
        eip := c.memory c.sp
        cs := (c.memory (c.sp + 1)).toUInt16
        eflags := c.memory (c.sp + 2) }

/-- `ISR_NOERR` and `ISR_ERR` -/
def isrStub (number : Nat) : List StubInstr :=
  if number ∈ isrErr then [.pushImm (UInt32.ofNat number)]
  else [.pushImm 0, .pushImm (UInt32.ofNat number)]

/-- `isr_common_stub` up to its call. -/
def isrCommonEntry : List StubInstr :=
  [.pusha, .xorEaxEax, .movAxDs, .pushEax, .movAx 0x10, .movDsAx, .movEsAx, .movFsAx, .movGsAx,
    .pushEsp]

/-- `isr_common_stub` behind its call. -/
def isrCommonExit : List StubInstr :=
  [.addEsp 1, .popEax, .movDsAx, .movEsAx, .movFsAx, .movGsAx, .popa, .addEsp 2, .iretd]

/-- What the processor pushes when it goes through an interrupt gate of its own level. -/
def interruptEntry (c : Cpu) (errorCode : Option UInt32) : Cpu :=
  let c := ((c.push c.eflags).push c.cs.toUInt32).push c.eip
  match errorCode with
  | none => c
  | some code => c.push code

/-- The processor at the call of `interrupt_dispatch`. -/
def atDispatch (c : Cpu) (number : Nat) (errorCode : Option UInt32) : Cpu :=
  run stubExec (interruptEntry c errorCode) (isrStub number ++ isrCommonEntry)

/-- The `registers_t` at a place of the memory. -/
def registersAt (memory : Nat → UInt32) (p : Nat) : Registers where
  ds := memory p
  edi := memory (p + 1)
  esi := memory (p + 2)
  ebp := memory (p + 3)
  esp := memory (p + 4)
  ebx := memory (p + 5)
  edx := memory (p + 6)
  ecx := memory (p + 7)
  eax := memory (p + 8)
  intNo := memory (p + 9)
  errCode := memory (p + 10)
  eip := memory (p + 11)
  cs := memory (p + 12)
  eflags := memory (p + 13)
  useresp := memory (p + 14)
  ss := memory (p + 15)

/-- What is known of the processor when a C function that was called with a pointer to a
`registers_t` returns: the stack pointer is back, `result` is in the place of the structure, and
the memory behind it is as it was. -/
structure Returned (result : Registers) (before after : Cpu) : Prop where
  sp : after.sp = before.sp
  frame : registersAt after.memory (before.sp + 1) = result
  memory : ∀ a, before.sp + 17 ≤ a → after.memory a = before.memory a

/-- The registers of the interrupted code; `esp` is what it is behind the vector number, and
`useresp` and `ss` lie on the stack above. -/
def contextRegisters (c : Cpu) (code : UInt32) : Registers where
  ds := c.ds.toUInt32
  edi := c.edi
  esi := c.esi
  ebp := c.ebp
  esp := UInt32.ofNat (4 * (c.sp - 5))
  ebx := c.ebx
  edx := c.edx
  ecx := c.ecx
  eax := c.eax
  intNo := 0
  errCode := code
  eip := c.eip
  cs := c.cs.toUInt32
  eflags := c.eflags
  useresp := c.memory c.sp
  ss := c.memory (c.sp + 1)

@[simp] theorem toUInt16_withLow (value : UInt32) (low : UInt16) :
    (withLow value low).toUInt16 = low := by
  rw [withLow]
  apply UInt16.toBitVec_inj.mp
  ext i hi
  simp

@[simp] theorem withLow_zero (low : UInt16) : withLow 0 low = low.toUInt32 := by
  simp [withLow]

/-- The processor pushes an error code for the vectors whose stubs push none. -/
theorem atDispatch_registers (c : Cpu) (hroom : 15 ≤ c.sp) (number : Nat)
    (errorCode : Option UInt32) (herror : errorCode.isSome = true ↔ number ∈ isrErr) :
    (atDispatch c number errorCode).sp + 15 = c.sp ∧
      registersAt (atDispatch c number errorCode).memory
          ((atDispatch c number errorCode).sp + 1) =
        stubRegisters (contextRegisters c (errorCode.getD 0)) number ∧
      ∀ a, c.sp ≤ a → (atDispatch c number errorCode).memory a = c.memory a := by
  obtain ⟨eax, ecx, edx, ebx, sp, ebp, esi, edi, ds, es, fs, gs, cs, eip, eflags, memory⟩ := c
  obtain ⟨k, rfl⟩ := Nat.exists_eq_add_of_le' hroom
  have hother : ∀ a, k + 15 ≤ a → ∀ j, j < 15 → ¬ a = k + j := by
    intro a ha j hj
    omega
  cases errorCode with
  | none =>
    have hnone : number ∉ isrErr := fun hmem => Bool.false_ne_true (herror.mpr hmem)
    refine ⟨?_, ?_, fun a ha => ?_⟩
    · simp [atDispatch, isrStub, hnone, isrCommonEntry, stubExec, interruptEntry, Cpu.push]
    · simp [atDispatch, isrStub, hnone, isrCommonEntry, stubExec, interruptEntry, Cpu.push,
        registersAt, stubRegisters, contextRegisters, Cpu.esp, Nat.add_assoc]
    · have hbottom : a ≠ k := hother a ha 0 (by decide)
      simp [atDispatch, isrStub, hnone, isrCommonEntry, stubExec, interruptEntry, Cpu.push,
        hother a ha, hbottom]
  | some code =>
    have hmem : number ∈ isrErr := herror.mp rfl
    refine ⟨?_, ?_, fun a ha => ?_⟩
    · simp [atDispatch, isrStub, hmem, isrCommonEntry, stubExec, interruptEntry, Cpu.push]
    · simp [atDispatch, isrStub, hmem, isrCommonEntry, stubExec, interruptEntry, Cpu.push,
        registersAt, stubRegisters, contextRegisters, Cpu.esp, Nat.add_assoc]
    · have hbottom : a ≠ k := hother a ha 0 (by decide)
      simp [atDispatch, isrStub, hmem, isrCommonEntry, stubExec, interruptEntry, Cpu.push,
        hother a ha, hbottom]

/-- The processor when it goes on with the interrupted code: `interrupt_dispatch` may have left
another `eax`, and the extra segments are those of the data. -/
structure Resumed (c : Cpu) (eax : UInt32) (resumed : Cpu) : Prop where
  eax : resumed.eax = eax
  ecx : resumed.ecx = c.ecx
  edx : resumed.edx = c.edx
  ebx : resumed.ebx = c.ebx
  sp : resumed.sp = c.sp
  ebp : resumed.ebp = c.ebp
  esi : resumed.esi = c.esi
  edi : resumed.edi = c.edi
  ds : resumed.ds = c.ds
  es : resumed.es = c.ds
  fs : resumed.fs = c.ds
  gs : resumed.gs = c.ds
  cs : resumed.cs = c.cs
  eip : resumed.eip = c.eip
  eflags : resumed.eflags = c.eflags
  memory : ∀ a, c.sp ≤ a → resumed.memory a = c.memory a

theorem isrCommonExit_eq (c : Cpu) : run stubExec c isrCommonExit =
    { c with
      eax := (registersAt c.memory (c.sp + 1)).eax
      ecx := (registersAt c.memory (c.sp + 1)).ecx
      edx := (registersAt c.memory (c.sp + 1)).edx
      ebx := (registersAt c.memory (c.sp + 1)).ebx
      sp := c.sp + 15
      ebp := (registersAt c.memory (c.sp + 1)).ebp
      esi := (registersAt c.memory (c.sp + 1)).esi
      edi := (registersAt c.memory (c.sp + 1)).edi
      ds := (registersAt c.memory (c.sp + 1)).ds.toUInt16
      es := (registersAt c.memory (c.sp + 1)).ds.toUInt16
      fs := (registersAt c.memory (c.sp + 1)).ds.toUInt16
      gs := (registersAt c.memory (c.sp + 1)).ds.toUInt16
      cs := (registersAt c.memory (c.sp + 1)).cs.toUInt16
      eip := (registersAt c.memory (c.sp + 1)).eip
      eflags := (registersAt c.memory (c.sp + 1)).eflags } := by
  simp [isrCommonExit, stubExec, Cpu.drop, Cpu.top, registersAt, Nat.add_assoc]

/-- `interrupt_dispatch` changes at most `eax`, and that for a system call. -/
theorem interruptDispatch_registers (m : Machine) (regs : Registers) (text : Bytes) :
    ∃ eax, (interruptDispatch m regs text).2 = { regs with eax := eax } ∧
      (m.handlers regs.intNo.toNat ≠ some .syscall → eax = regs.eax) := by
  have hsyscall : ∃ eax, (syscallHandle m regs text).2 = { regs with eax := eax } := by
    rw [syscallHandle]
    split_ifs <;> exact ⟨_, rfl⟩
  rw [interruptDispatch]
  simp only [apply_ite Prod.snd, ite_self]
  rcases m.handlers regs.intNo.toNat with _ | handler
  · refine ⟨regs.eax, ?_, fun _ => rfl⟩
    simp only [apply_ite Prod.snd, ite_self]
  · cases handler with
    | timer => exact ⟨regs.eax, rfl, fun _ => rfl⟩
    | keyboard => exact ⟨regs.eax, rfl, fun _ => rfl⟩
    | syscall =>
      obtain ⟨eax, heax⟩ := hsyscall
      exact ⟨eax, heax, fun hne => absurd rfl hne⟩

end SnsxOS.X86
