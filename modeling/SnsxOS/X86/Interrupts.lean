import SnsxOS.Framework.InterruptController
import SnsxOS.Lib.Decimal
import SnsxOS.X86.Keyboard
import SnsxOS.X86.Task
import SnsxOS.X86.Vga

/-!
# Interrupts

The gates of the descriptor table, the controllers behind the ports and `interrupt_dispatch` with
the handlers of the timer, the keyboard and the system calls. The gates keep further interrupts off
until `iretd`, so that one is handled at a time. The keyboard has its next scancode ready when the
last one has been read.
-/

namespace SnsxOS.X86

open SnsxOS.Framework

/-- There are lines to speak of. -/
local instance irqLines_ne_zero : NeZero 16 := ⟨by decide⟩

/-- `registers_t` -/
structure Registers where
  ds : UInt32
  edi : UInt32
  esi : UInt32
  ebp : UInt32
  esp : UInt32
  ebx : UInt32
  edx : UInt32
  ecx : UInt32
  eax : UInt32
  intNo : UInt32
  errCode : UInt32
  eip : UInt32
  cs : UInt32
  eflags : UInt32
  useresp : UInt32
  ss : UInt32
  deriving DecidableEq

/-- `idt_entry_t` -/
structure IdtEntry where
  baseLow : UInt16
  selector : UInt16
  alwaysZero : UInt8
  flags : UInt8
  baseHigh : UInt16
  deriving DecidableEq

/-- The functions that `register_interrupt_handler` is called with. -/
inductive InterruptHandler where
  | timer
  | keyboard
  | syscall
  deriving DecidableEq

/-- `waiting` are the scancodes behind port 0x60 and `latch` the last one read; `screen` are the
calls of the terminal, `stopped` is set when `interrupt_dispatch` halts for good. -/
structure Machine where
  idt : UInt8 → IdtEntry
  handlers : Nat → Option InterruptHandler
  pics : PicPair
  latch : UInt8
  waiting : List UInt8
  keyboard : Keyboard
  ticks : UInt32
  tasks : TaskTable
  screen : List TerminalOp
  stopped : Bool

/-! ## The descriptor table -/

/-- `idt_set_gate` -/
def idtSetGate (idt : UInt8 → IdtEntry) (num : UInt8) (base : UInt32) (selector : UInt16)
    (flags : UInt8) : UInt8 → IdtEntry :=
  Function.update idt num
    { baseLow := (base &&& 0xFFFF).toUInt16
      baseHigh := ((base >>> 16) &&& 0xFFFF).toUInt16
      selector := selector
      alwaysZero := 0
      flags := flags }

/-- `memset` of `idt_install` -/
def idtInstall : UInt8 → IdtEntry := fun _ => ⟨0, 0, 0, 0, 0⟩

/-- The calls of `idt_set_gate` for the vectors from `first` on. -/
def setGates (isr : Nat → UInt32) (first count : Nat) (idt : UInt8 → IdtEntry) :
    UInt8 → IdtEntry :=
  (List.range count).foldl
    (fun idt n => idtSetGate idt (UInt8.ofNat (first + n)) (isr (first + n)) 0x08 0x8E) idt

/-- `isr_install` -/
def isrInstall (isr : Nat → UInt32) : (UInt8 → IdtEntry) → UInt8 → IdtEntry := setGates isr 0 32

/-- The gates of `irq_install` -/
def irqGates (isr : Nat → UInt32) : (UInt8 → IdtEntry) → UInt8 → IdtEntry := setGates isr 32 16

/-- The gate of `syscall_install` -/
def syscallGate (isr : Nat → UInt32) (idt : UInt8 → IdtEntry) : UInt8 → IdtEntry :=
  idtSetGate idt 128 (isr 128) 0x08 0xEE

/-- The address that the processor puts together from a gate. -/
def IdtEntry.offset (entry : IdtEntry) : UInt32 :=
  entry.baseHigh.toUInt32 <<< 16 ||| entry.baseLow.toUInt32

/-- A gate that is present. -/
def IdtEntry.present (entry : IdtEntry) : Bool := entry.flags &&& 0x80 != 0

/-- The vectors that have a stub. -/
def stubVectors : List Nat := List.range 48 ++ [128]

/-- The number that the stub at an address pushes. -/
def stubAt (isr : Nat → UInt32) (address : UInt32) : Option Nat :=
  stubVectors.find? fun n => isr n == address

/-- The number pushed when the processor goes through the gate of a vector. -/
def entered (isr : Nat → UInt32) (idt : UInt8 → IdtEntry) (vector : UInt8) : Option Nat :=
  if (idt vector).present then stubAt isr (idt vector).offset else none

/-! ## The ports -/

namespace Machine

def outb (m : Machine) (port : UInt16) (value : UInt8) : Machine :=
  if port = 0x20 then { m with pics := { m.pics with master := m.pics.master.writeCommand value } }
  else if port = 0x21 then { m with pics := { m.pics with master := m.pics.master.writeData value } }
  else if port = 0xA0 then { m with pics := { m.pics with slave := m.pics.slave.writeCommand value } }
  else if port = 0xA1 then { m with pics := { m.pics with slave := m.pics.slave.writeData value } }
  else m

/-- `inb(0x60)`; the next scancode asks for its own interrupt. -/
def inb60 (m : Machine) : UInt8 × Machine :=
  match m.waiting with
  | [] => (m.latch, m)
  | scancode :: waiting =>
      (scancode, { m with
        latch := scancode
        waiting := waiting
        pics := if waiting = [] then m.pics else m.pics.request 1 })

def ioWait (m : Machine) : Machine := m.outb 0x80 0

end Machine

/-- `pic_remap` -/
def picRemap (m : Machine) : Machine :=
  let m := (m.outb 0x20 0x11).ioWait
  let m := (m.outb 0xA0 0x11).ioWait
  let m := (m.outb 0x21 0x20).ioWait
  let m := (m.outb 0xA1 0x28).ioWait
  let m := (m.outb 0x21 0x04).ioWait
  let m := (m.outb 0xA1 0x02).ioWait
  let m := (m.outb 0x21 0x01).ioWait
  let m := (m.outb 0xA1 0x01).ioWait
  (m.outb 0x21 0x00).outb 0xA1 0x00

/-- `pic_send_eoi` -/
def picSendEoi (m : Machine) (irq : UInt8) : Machine :=
  let m := if 8 ≤ irq then m.outb 0xA0 0x20 else m
  m.outb 0x20 0x20

/-- `register_interrupt_handler` -/
def registerInterruptHandler (m : Machine) (num : UInt8) (handler : InterruptHandler) : Machine :=
  { m with handlers := Function.update m.handlers num.toNat (some handler) }

/-! ## The handlers -/

def exceptionMessages : List Bytes :=
  [ascii "Division by zero", ascii "Debug", ascii "Non-maskable interrupt", ascii "Breakpoint",
    ascii "Overflow", ascii "Bound range exceeded", ascii "Invalid opcode",
    ascii "Device not available", ascii "Double fault", ascii "Coprocessor segment overrun",
    ascii "Invalid TSS", ascii "Segment not present", ascii "Stack-segment fault",
    ascii "General protection fault", ascii "Page fault", ascii "Reserved",
    ascii "x87 floating-point exception", ascii "Alignment check", ascii "Machine check",
    ascii "SIMD floating-point exception", ascii "Virtualization exception",
    ascii "Control protection exception", ascii "Reserved", ascii "Reserved", ascii "Reserved",
    ascii "Reserved", ascii "Reserved", ascii "Reserved", ascii "Hypervisor injection exception",
    ascii "VMM communication exception", ascii "Security exception", ascii "Reserved"]

/-- `u32_to_hex` -/
def u32ToHex (value : UInt32) : Bytes :=
  ascii "0x" ++ (List.range 8).map fun i =>
    (ascii "0123456789ABCDEF").getD ((value >>> UInt32.ofNat ((7 - i) * 4)) &&& 0xF).toNat 0

/-- What `interrupt_dispatch` writes about an exception. -/
def exceptionReport (regs : Registers) : Bytes :=
  [10] ++ ascii "Kernel exception" ++ [10] ++ ascii "Vector: " ++ u32ToDec regs.intNo ++ [10] ++
    exceptionMessages.getD regs.intNo.toNat [] ++ [10] ++ ascii "Error: " ++
    u32ToHex regs.errCode ++ [10] ++ ascii "EIP: " ++ u32ToHex regs.eip ++ [10]

/-- `timer_callback` -/
def timerCallback (m : Machine) : Machine :=
  { m with ticks := m.ticks + 1, tasks := taskTick m.tasks }

/-- `keyboard_callback` -/
def keyboardInterrupt (m : Machine) : Machine :=
  let (scancode, m) := m.inb60
  { m with keyboard := keyboardCallback m.keyboard scancode }

/-- `syscall_handle`; `text` is the memory from the address in `ebx` on. -/
def syscallHandle (m : Machine) (regs : Registers) (text : Bytes) : Machine × Registers :=
  if regs.eax = 1 then
    if regs.ebx = 0 then (m, { regs with eax := 0xFFFFFFFF })
    else
      let length := if regs.ecx = 0 then (text.takeWhile (· != 0)).length else regs.ecx.toNat
      ({ m with screen := m.screen ++ (text.take length).map .putchar },
        { regs with eax := UInt32.ofNat length })
  else if regs.eax = 2 then ({ m with screen := m.screen ++ [.clear] }, { regs with eax := 0 })
  else if regs.eax = 3 then (m, { regs with eax := m.ticks })
  else (m, { regs with eax := 0xFFFFFFFF })

def runHandler (m : Machine) (regs : Registers) (text : Bytes) :
    InterruptHandler → Machine × Registers
  | .timer => (timerCallback m, regs)
  | .keyboard => (keyboardInterrupt m, regs)
  | .syscall => syscallHandle m regs text

/-- `interrupt_dispatch` -/
def interruptDispatch (m : Machine) (regs : Registers) (text : Bytes) : Machine × Registers :=
  let handled := match m.handlers regs.intNo.toNat with
    | some handler => runHandler m regs text handler
    | none =>
        if regs.intNo < 32 then
          ({ m with
              screen := m.screen ++ (exceptionReport regs).map .putchar
              stopped := true }, regs)
        else (m, regs)
  if handled.1.stopped then handled
  else if 32 ≤ regs.intNo ∧ regs.intNo ≤ 47 then
    (picSendEoi handled.1 (regs.intNo - 32).toUInt8, handled.2)
  else handled

/-! ## The machine -/

/-- The calls of `kernel_main` up to `enable_interrupts`. -/
def kernelInterrupts (isr : Nat → UInt32) (pics : PicPair) (latch : UInt8) (tasks : TaskTable)
    (screen : List TerminalOp) : Machine :=
  let m : Machine :=
    { idt := isrInstall isr idtInstall
      handlers := fun _ => none
      pics := pics
      latch := latch
      waiting := []
      keyboard := .boot
      ticks := 0
      tasks := tasks
      screen := screen
      stopped := false }
  let m := picRemap m
  let m := { m with idt := syscallGate isr (irqGates isr m.idt) }
  let m := registerInterruptHandler m 128 .syscall
  let m := { m with tasks := taskInit m.tasks }
  registerInterruptHandler (registerInterruptHandler m 32 .timer) 33 .keyboard

/-- The machine and what has happened: the scancodes that have arrived, the requests of other
devices that were not waiting already, and the lines whose interrupts have been handled. -/
structure InterruptSystem where
  machine : Machine
  arrived : List UInt8
  requests : List (Fin 16)
  delivered : List (Fin 16)

inductive InterruptOp where
  | key (scancode : UInt8)
  /-- the request of another device -/
  | request (line : Fin 16)
  /-- the processor takes an interrupt, with the registers it interrupts -/
  | accept (regs : Registers)
  /-- the `int` instruction of a program, with the memory that `ebx` designates -/
  | syscall (regs : Registers) (text : Bytes)
  | exception (vector : Fin 32) (regs : Registers)

/-- The vectors whose stubs leave the error code to the processor. -/
def isrErr : List Nat := [8, 10, 11, 12, 13, 14, 17, 30]

/-- The registers behind the stub of a vector. -/
def stubRegisters (regs : Registers) (number : Nat) : Registers :=
  { regs with
    intNo := UInt32.ofNat number
    errCode := if number ∈ isrErr then regs.errCode else 0 }

/-- A gate that leads to no stub leaves no state. -/
def machineStep (isr : Nat → UInt32) (s : InterruptSystem) : InterruptOp → Option InterruptSystem
  | .key scancode =>
      some { s with
        arrived := s.arrived ++ [scancode]
        machine := { s.machine with
          waiting := s.machine.waiting ++ [scancode]
          pics := if s.machine.waiting = [] then s.machine.pics.request 1 else s.machine.pics } }
  | .request line =>
      if line = 1 ∨ line = 2 then some s
      else some { s with
        requests :=
          if s.machine.pics.Requested line then s.requests else s.requests ++ [line]
        machine := { s.machine with pics := s.machine.pics.request line } }
  | .accept regs =>
      if s.machine.stopped then some s
      else match s.machine.pics.acknowledge with
      | none => some s
      | some (vector, pics) =>
          (entered isr s.machine.idt vector).map fun number =>
            { s with
              delivered := s.delivered ++ [Fin.ofNat 16 (number - 32)]
              machine :=
                (interruptDispatch { s.machine with pics := pics } (stubRegisters regs number) []).1 }
  | .syscall regs text =>
      if s.machine.stopped then some s
      else (entered isr s.machine.idt 128).map fun number =>
        { s with machine := (interruptDispatch s.machine (stubRegisters regs number) text).1 }
  | .exception vector regs =>
      if s.machine.stopped then some s
      else (entered isr s.machine.idt (UInt8.ofNat vector.val)).map fun number =>
        { s with machine := (interruptDispatch s.machine (stubRegisters regs number) []).1 }

/-! ## The gates -/

/-- Each vector with a stub has a gate to it. -/
def Gated (isr : Nat → UInt32) (idt : UInt8 → IdtEntry) : Prop :=
  ∀ n ∈ stubVectors, (idt (UInt8.ofNat n)).offset = isr n ∧ (idt (UInt8.ofNat n)).present = true

section Gates

variable {isr : Nat → UInt32}

theorem offset_halves (base : UInt32) :
    ((base >>> 16) &&& 0xFFFF).toUInt16.toUInt32 <<< 16 |||
      (base &&& 0xFFFF).toUInt16.toUInt32 = base := by
  apply UInt32.toBitVec_inj.mp
  ext i hi
  simp [-UInt32.toUInt32_toUInt16]
  interval_cases i <;> simp

theorem setGates_of_mem {first count k : Nat} (hk : k < count) (hroom : first + count ≤ 256)
    (idt : UInt8 → IdtEntry) :
    (setGates isr first count idt (UInt8.ofNat (first + k))).offset = isr (first + k) ∧
      (setGates isr first count idt (UInt8.ofNat (first + k))).present = true := by
  induction count with
  | zero => omega
  | succ count ih =>
    rw [setGates, List.range_succ, List.foldl_concat, ← setGates]
    by_cases hlast : k = count
    · rw [hlast, idtSetGate, Function.update_self]
      exact ⟨offset_halves _, show ((0x8E : UInt8) &&& 0x80 != 0) = true by decide⟩
    · have hother : UInt8.ofNat (first + k) ≠ UInt8.ofNat (first + count) := by
        intro heq
        have hnat := congrArg UInt8.toNat heq
        rw [UInt8.toNat_ofNat', UInt8.toNat_ofNat'] at hnat
        omega
      rw [idtSetGate, Function.update_of_ne hother]
      exact ih (by omega) (by omega)

theorem setGates_of_notMem {first count : Nat} {vector : UInt8}
    (hvector : ∀ k < count, vector ≠ UInt8.ofNat (first + k)) (idt : UInt8 → IdtEntry) :
    setGates isr first count idt vector = idt vector := by
  induction count with
  | zero => rfl
  | succ count ih =>
    rw [setGates, List.range_succ, List.foldl_concat, ← setGates, idtSetGate,
      Function.update_of_ne (hvector count (Nat.lt_succ_self count))]
    exact ih fun k hk => hvector k (Nat.lt_succ_of_lt hk)

theorem gated_boot :
    Gated isr (syscallGate isr (irqGates isr (isrInstall isr idtInstall))) := by
  have hnat : ∀ m n : Nat, m < 256 → n < 256 → UInt8.ofNat m = UInt8.ofNat n → m = n := by
    intro m n hm hn heq
    have h := congrArg UInt8.toNat heq
    rw [UInt8.toNat_ofNat', UInt8.toNat_ofNat'] at h
    omega
  intro n hn
  rw [stubVectors, List.mem_append, List.mem_range, List.mem_singleton] at hn
  by_cases hsyscall : n = 128
  · have hvector : UInt8.ofNat 128 = 128 := rfl
    rw [hsyscall, syscallGate, idtSetGate, hvector, Function.update_self]
    exact ⟨offset_halves _, show ((0xEE : UInt8) &&& 0x80 != 0) = true by decide⟩
  have hlow : n < 48 := hn.resolve_right hsyscall
  have hgate : UInt8.ofNat n ≠ 128 := fun heq => hsyscall (hnat n 128 (by omega) (by omega) heq)
  rw [syscallGate, idtSetGate, Function.update_of_ne hgate]
  by_cases hirq : 32 ≤ n
  · obtain ⟨k, rfl⟩ := Nat.exists_eq_add_of_le hirq
    exact setGates_of_mem (by omega) (by omega) _
  · have hbelow : ∀ k < 16, UInt8.ofNat n ≠ UInt8.ofNat (32 + k) :=
      fun k hk heq => by have := hnat n (32 + k) (by omega) (by omega) heq; omega
    rw [irqGates, setGates_of_notMem hbelow]
    have hmem : (setGates isr 0 32 idtInstall (UInt8.ofNat (0 + n))).offset = isr (0 + n) ∧
        (setGates isr 0 32 idtInstall (UInt8.ofNat (0 + n))).present = true :=
      setGates_of_mem (by omega) (by omega) idtInstall
    rw [Nat.zero_add] at hmem
    exact hmem

/-- The gate of a vector leads to the stub that pushes its number. -/
theorem entered_eq (hisr : ∀ m ∈ stubVectors, ∀ n ∈ stubVectors, isr m = isr n → m = n)
    {idt : UInt8 → IdtEntry} (h : Gated isr idt) {n : Nat} (hn : n ∈ stubVectors) :
    entered isr idt (UInt8.ofNat n) = some n := by
  obtain ⟨hoffset, hpresent⟩ := h n hn
  rw [entered, if_pos hpresent, hoffset, stubAt]
  cases hfind : stubVectors.find? fun m => isr m == isr n with
  | none =>
    have hnone := List.find?_eq_none.mp hfind n hn
    simp at hnone
  | some m =>
    have hsame := List.find?_some hfind
    rw [beq_iff_eq] at hsame
    rw [hisr m (List.mem_of_find?_eq_some hfind) n hn hsame]

end Gates

/-! ## One interrupt -/

/-- The four words of the initialization and an empty mask, whatever the controller was doing. -/
theorem remap_pic (p : Pic) (base cascade : UInt8) :
    ((((p.writeCommand 0x11).writeData base).writeData cascade).writeData 0x01).writeData 0x00 =
      ⟨∅, ∅, ∅, base &&& 0xF8, .ready⟩ := by
  rw [Pic.writeCommand, if_pos (by decide)]
  simp [Pic.writeData]

theorem outb_master_command (m : Machine) (value : UInt8) :
    m.outb 0x20 value =
      { m with pics := { m.pics with master := m.pics.master.writeCommand value } } := if_pos rfl

theorem outb_master_data (m : Machine) (value : UInt8) :
    m.outb 0x21 value =
      { m with pics := { m.pics with master := m.pics.master.writeData value } } := by
  rw [Machine.outb, if_neg (by decide), if_pos rfl]

theorem outb_slave_command (m : Machine) (value : UInt8) :
    m.outb 0xA0 value =
      { m with pics := { m.pics with slave := m.pics.slave.writeCommand value } } := by
  rw [Machine.outb, if_neg (by decide), if_neg (by decide), if_pos rfl]

theorem outb_slave_data (m : Machine) (value : UInt8) :
    m.outb 0xA1 value =
      { m with pics := { m.pics with slave := m.pics.slave.writeData value } } := by
  rw [Machine.outb, if_neg (by decide), if_neg (by decide), if_neg (by decide), if_pos rfl]

theorem ioWait_eq (m : Machine) : m.ioWait = m := by
  rw [Machine.ioWait, Machine.outb, if_neg (by decide), if_neg (by decide), if_neg (by decide),
    if_neg (by decide)]

theorem picRemap_eq (m : Machine) : picRemap m =
    { m with pics := ⟨⟨∅, ∅, ∅, 32, .ready⟩, ⟨∅, ∅, ∅, 40, .ready⟩⟩ } := by
  have hmaster := remap_pic m.pics.master 0x20 0x04
  have hslave := remap_pic m.pics.slave 0x28 0x02
  simp only [picRemap, outb_master_command, outb_master_data, outb_slave_command,
    outb_slave_data, ioWait_eq, hmaster, hslave]
  rfl

theorem idle_remapped (step : InitWord) :
    (⟨⟨∅, ∅, ∅, 32, step⟩, ⟨∅, ∅, ∅, 40, step⟩⟩ : PicPair).Idle :=
  ⟨rfl, rfl, rfl, rfl, Finset.notMem_empty _⟩

theorem finish_request (p : PicPair) (line other : Fin 16) :
    (p.request other).finish line = (p.finish line).request other := by
  have hrequest : ∀ (q : Pic) (k : Fin 8), (q.request k).endOfInterrupt =
      q.endOfInterrupt.request k := by
    intro q k
    simp only [Pic.endOfInterrupt, Pic.request]
    cases Pic.first q.inService <;> rfl
  simp only [PicPair.finish, PicPair.request]
  split_ifs <;> simp only [hrequest]

theorem picSendEoi_eq (m : Machine) (line : Fin 16) :
    picSendEoi m (UInt8.ofNat line.val) = { m with pics := m.pics.finish line } := by
  have hcommand : ∀ p : Pic, p.writeCommand 0x20 = p.endOfInterrupt := by
    intro p
    rw [Pic.writeCommand, if_neg (by decide), if_pos rfl]
  have hnat : (UInt8.ofNat line.val).toNat = line.val :=
    UInt8.toNat_ofNat_of_lt' (Nat.lt_of_lt_of_le line.isLt (by decide))
  have hcase : (8 : UInt8) ≤ UInt8.ofNat line.val ↔ 8 ≤ line.val := by
    rw [UInt8.le_iff_toNat_le, hnat]
    rfl
  rw [picSendEoi, PicPair.finish]
  by_cases hslave : 8 ≤ line.val
  · simp only [hcase, hslave, if_true, outb_slave_command, outb_master_command, hcommand]
  · simp only [hcase, hslave, if_false, outb_master_command, hcommand]

/-- The handlers that `kernel_main` registers. -/
structure Installed (m : Machine) : Prop where
  timer : m.handlers 32 = some .timer
  keyboard : m.handlers 33 = some .keyboard
  syscall : m.handlers 128 = some .syscall
  others : ∀ n, n ≠ 32 → n ≠ 33 → n ≠ 128 → m.handlers n = none

/-- What the interrupt of a line does, its request taken back. -/
def deliver (m : Machine) (line : Fin 16) : Machine :=
  let m := { m with pics := m.pics.clear line }
  if line = 0 then timerCallback m else if line = 1 then keyboardInterrupt m else m

theorem irqNumber_facts : ∀ line : Fin 16,
    (UInt32.ofNat (32 + line.val)).toNat = 32 + line.val ∧
      32 ≤ UInt32.ofNat (32 + line.val) ∧ UInt32.ofNat (32 + line.val) ≤ 47 ∧
      (UInt32.ofNat (32 + line.val) - 32).toUInt8 = UInt8.ofNat line.val := by
  decide

section Deliver

variable {m : Machine}

theorem keyboardInterrupt_pics (m : Machine) : (keyboardInterrupt m).pics =
    if 1 < m.waiting.length then m.pics.request 1 else m.pics := by
  rw [keyboardInterrupt, Machine.inb60]
  rcases m.waiting with _ | ⟨scancode, _ | ⟨next, waiting⟩⟩ <;> rfl

/-- The keyboard handler does not look at the controllers. -/
theorem keyboardInterrupt_withPics (m : Machine) (pics : PicPair) :
    keyboardInterrupt { m with pics := pics } =
      { keyboardInterrupt m with
        pics := if 1 < m.waiting.length then pics.request 1 else pics } := by
  obtain ⟨idt, handlers, -, latch, waiting, keyboard, ticks, tasks, screen, stopped⟩ := m
  rw [keyboardInterrupt, keyboardInterrupt, Machine.inb60, Machine.inb60]
  rcases waiting with _ | ⟨scancode, _ | ⟨next, waiting⟩⟩ <;> rfl

theorem keyboardInterrupt_stopped (m : Machine) : (keyboardInterrupt m).stopped = m.stopped := by
  rw [keyboardInterrupt, Machine.inb60]
  rcases m.waiting with _ | ⟨scancode, waiting⟩ <;> rfl

/-- Behind a handler that returns the controllers are told that the interrupt is over. -/
theorem interruptDispatch_handled {regs : Registers} {text : Bytes} {handler : InterruptHandler}
    (line : Fin 16) (hnumber : regs.intNo = UInt32.ofNat (32 + line.val))
    (hhandler : m.handlers (32 + line.val) = some handler)
    (hrunning : (runHandler m regs text handler).1.stopped = false) :
    (interruptDispatch m regs text).1 =
      { (runHandler m regs text handler).1 with
        pics := (runHandler m regs text handler).1.pics.finish line } := by
  obtain ⟨hnat, hlow, hhigh, hirq⟩ := irqNumber_facts line
  rw [interruptDispatch, hnumber, hnat, hhandler]
  simp only [hrunning, Bool.false_eq_true, if_false, hlow, hhigh, and_self, if_true, hirq,
    picSendEoi_eq]

theorem interruptDispatch_unhandled {regs : Registers} {text : Bytes} (line : Fin 16)
    (hnumber : regs.intNo = UInt32.ofNat (32 + line.val))
    (hhandler : m.handlers (32 + line.val) = none) (hrunning : m.stopped = false) :
    (interruptDispatch m regs text).1 = { m with pics := m.pics.finish line } := by
  obtain ⟨hnat, hlow, hhigh, hirq⟩ := irqNumber_facts line
  rw [interruptDispatch, hnumber, hnat, hhandler]
  simp only [UInt32.not_lt.mpr hlow, if_false, hrunning, Bool.false_eq_true, hlow, hhigh, and_self,
    if_true, hirq, picSendEoi_eq]

/-- The handler runs and the controllers are told that the interrupt is over. -/
theorem interruptDispatch_irq (hinstalled : Installed m) (hidle : m.pics.Idle)
    (hrunning : m.stopped = false) (line : Fin 16) (regs : Registers) :
    (interruptDispatch { m with pics := m.pics.serve line }
      (stubRegisters regs (32 + line.val)) []).1 = deliver m line := by
  have hfinish := hidle.finish_serve line
  rw [deliver]
  by_cases htimer : line = 0
  · subst line
    rw [interruptDispatch_handled (m := { m with pics := m.pics.serve 0 }) 0 rfl hinstalled.timer
      hrunning, if_pos rfl]
    simp only [runHandler, timerCallback, hfinish]
  by_cases hkeyboard : line = 1
  · subst line
    have hrun : (keyboardInterrupt { m with pics := m.pics.serve 1 }).stopped = false := by
      rw [keyboardInterrupt_stopped]
      exact hrunning
    rw [interruptDispatch_handled (m := { m with pics := m.pics.serve 1 }) 1 rfl
      hinstalled.keyboard hrun, if_neg htimer, if_pos rfl, runHandler,
      keyboardInterrupt_withPics m (m.pics.serve 1), keyboardInterrupt_withPics m (m.pics.clear 1)]
    by_cases hmore : 1 < m.waiting.length
    · simp only [hmore, if_true, finish_request, hfinish]
    · simp only [hmore, if_false, hfinish]
  · have hhandler : m.handlers (32 + line.val) = none := by
      have hin := line.isLt
      apply hinstalled.others
      · intro heq
        exact htimer (Fin.ext (by show line.val = 0; omega))
      · intro heq
        exact hkeyboard (Fin.ext (by show line.val = 1; omega))
      · omega
    rw [interruptDispatch_unhandled (m := { m with pics := m.pics.serve line }) line rfl hhandler
      hrunning, if_neg htimer, if_neg hkeyboard, hfinish]

end Deliver

/-! ## Runs -/

/-- What holds whenever the processor is not inside a handler: nothing is in service, each request
that a device has made is still waiting or has been handled, and the scancodes have gone to the
keyboard in order. -/
structure Serviced (isr : Nat → UInt32) (tasks : TaskTable) (s : InterruptSystem) : Prop where
  gated : Gated isr s.machine.idt
  installed : Installed s.machine
  idle : s.machine.pics.Idle
  masterBase : s.machine.pics.master.base = 32
  slaveBase : s.machine.pics.slave.base = 40
  lines : ∀ line, line ≠ 1 → s.requests.count line =
    s.delivered.count line + if s.machine.pics.Requested line then 1 else 0
  keys : ∃ read, s.arrived = read ++ s.machine.waiting ∧ s.delivered.count 1 = read.length ∧
    s.machine.keyboard = run keyboardCallback .boot read
  ready : s.machine.pics.Requested 1 ↔ s.machine.waiting ≠ []
  ticks : s.machine.ticks = UInt32.ofNat (s.delivered.count 0)
  tasks : s.machine.tasks = taskTick^[s.delivered.count 0] tasks

section Run

variable {isr : Nat → UInt32} {tasks : TaskTable} {s : InterruptSystem}

theorem Installed.of_handlers {m m' : Machine} (h : Installed m) (heq : m'.handlers = m.handlers) :
    Installed m' :=
  ⟨heq ▸ h.timer, heq ▸ h.keyboard, heq ▸ h.syscall, fun n => heq ▸ h.others n⟩

theorem Serviced.vector (h : Serviced isr tasks s) (line : Fin 16) :
    s.machine.pics.vector line = UInt8.ofNat (32 + line.val) := by
  rw [PicPair.vector, h.masterBase, h.slaveBase]
  revert line
  decide

theorem clear_bases (p : PicPair) (line : Fin 16) :
    (p.clear line).master.base = p.master.base ∧ (p.clear line).slave.base = p.slave.base := by
  rw [PicPair.clear]
  split <;> exact ⟨rfl, rfl⟩

theorem request_bases (p : PicPair) (line : Fin 16) :
    (p.request line).master.base = p.master.base ∧
      (p.request line).slave.base = p.slave.base := by
  rw [PicPair.request]
  split <;> exact ⟨rfl, rfl⟩

/-- What is delivered next, and to whom. -/
theorem Serviced.accept (h : Serviced isr tasks s)
    (hisr : ∀ m ∈ stubVectors, ∀ n ∈ stubVectors, isr m = isr n → m = n)
    (hrunning : s.machine.stopped = false) {line : Fin 16}
    (hline : s.machine.pics.Requested line)
    (hfirst : ∀ other, s.machine.pics.Requested other → PicPair.rank line ≤ PicPair.rank other)
    (regs : Registers) :
    machineStep isr s (.accept regs) =
      some { s with delivered := s.delivered ++ [line], machine := deliver s.machine line } := by
  have hmem : 32 + line.val ∈ stubVectors := by
    rw [stubVectors, List.mem_append, List.mem_range]
    left
    omega
  have hcast : Fin.ofNat 16 (32 + line.val - 32) = line := by
    rw [Nat.add_sub_cancel_left]
    exact Fin.ofNat_val_eq_self line
  rw [machineStep, if_neg (by rw [hrunning]; exact Bool.false_ne_true),
    h.idle.acknowledge_some hline hfirst, h.vector]
  simp only [entered_eq hisr h.gated hmem, Option.map_some, hcast,
    interruptDispatch_irq h.installed h.idle hrunning]

theorem not_requested_cascade {p : PicPair} (h : p.Idle) : ¬ p.Requested 2 := by
  intro hrequested
  exact h.cascade (PicPair.requested_master.mp hrequested)

theorem count_concat_same (line : Fin 16) (lines : List (Fin 16)) :
    (lines ++ [line]).count line = lines.count line + 1 := by
  rw [List.count_append, List.count_singleton_self]

theorem count_concat_of_ne {line other : Fin 16} (h : other ≠ line) (lines : List (Fin 16)) :
    (lines ++ [line]).count other = lines.count other := by
  have hzero : [line].count other = 0 := List.count_eq_zero.mpr (by simpa using h)
  rw [List.count_append, hzero, Nat.add_zero]

/-- The count of a line when one interrupt has been handled. -/
theorem Serviced.lines_deliver (h : Serviced isr tasks s) {line : Fin 16}
    (hline : s.machine.pics.Requested line) {pics : PicPair}
    (hpics : ∀ other, other ≠ 1 →
      (pics.Requested other ↔ s.machine.pics.Requested other ∧ other ≠ line)) :
    ∀ other, other ≠ 1 → s.requests.count other =
      (s.delivered ++ [line]).count other + if pics.Requested other then 1 else 0 := by
  intro other hother
  have hcount := h.lines other hother
  have hiff := hpics other hother
  by_cases hsame : other = line
  · subst hsame
    have hnone : ¬ pics.Requested other := fun hrequested => (hiff.mp hrequested).2 rfl
    rw [hcount, if_pos hline, if_neg hnone, count_concat_same, Nat.add_zero]
  · have hsameRequest : pics.Requested other ↔ s.machine.pics.Requested other := by
      rw [hiff, and_iff_left hsame]
    rw [hcount, count_concat_of_ne hsame]
    simp only [hsameRequest]

theorem Serviced.deliver_timer (h : Serviced isr tasks s) (hline : s.machine.pics.Requested 0) :
    Serviced isr tasks
      { s with delivered := s.delivered ++ [0], machine := deliver s.machine 0 } := by
  have hbases := clear_bases s.machine.pics 0
  have hkeys : (s.delivered ++ [(0 : Fin 16)]).count 1 = s.delivered.count 1 :=
    count_concat_of_ne (by decide) _
  have hticks : (s.delivered ++ [(0 : Fin 16)]).count 0 = s.delivered.count 0 + 1 :=
    count_concat_same _ _
  refine ⟨h.gated, h.installed.of_handlers rfl, h.idle.clear 0, hbases.1.trans h.masterBase,
    hbases.2.trans h.slaveBase, ?_, ?_, ?_, ?_, ?_⟩
  · exact h.lines_deliver hline fun other _ => PicPair.requested_clear 0 other
  · obtain ⟨read, harrived, hcount, hkeyboard⟩ := h.keys
    exact ⟨read, harrived, hkeys.trans hcount, hkeyboard⟩
  · show (s.machine.pics.clear 0).Requested 1 ↔ s.machine.waiting ≠ []
    rw [PicPair.requested_clear, ← h.ready]
    exact and_iff_left (by decide)
  · show s.machine.ticks + 1 = _
    rw [hticks, h.ticks, UInt32.ofNat_add]
    rfl
  · show taskTick s.machine.tasks = _
    rw [hticks, h.tasks, Function.iterate_succ_apply']

theorem Serviced.deliver_key (h : Serviced isr tasks s) (hline : s.machine.pics.Requested 1) :
    Serviced isr tasks
      { s with delivered := s.delivered ++ [1], machine := deliver s.machine 1 } := by
  obtain ⟨read, harrived, hcount, hkeyboard⟩ := h.keys
  have hwaiting := h.ready.mp hline
  obtain ⟨scancode, waiting, hcons⟩ := List.exists_cons_of_ne_nil hwaiting
  have hdeliver : deliver s.machine 1 =
      { s.machine with
        latch := scancode
        waiting := waiting
        keyboard := keyboardCallback s.machine.keyboard scancode
        pics := if waiting = [] then s.machine.pics.clear 1
          else (s.machine.pics.clear 1).request 1 } := by
    rw [deliver, if_neg (by decide), if_pos rfl, keyboardInterrupt, Machine.inb60]
    simp only [hcons]
  have hkeys : (s.delivered ++ [(1 : Fin 16)]).count 1 = s.delivered.count 1 + 1 :=
    count_concat_same _ _
  have hticks : (s.delivered ++ [(1 : Fin 16)]).count 0 = s.delivered.count 0 :=
    count_concat_of_ne (by decide) _
  have hcleared := PicPair.requested_clear (p := s.machine.pics) 1
  have hpics : ∀ other, (if waiting = [] then s.machine.pics.clear 1
      else (s.machine.pics.clear 1).request 1).Requested other ↔
        s.machine.pics.Requested other ∧ other ≠ 1 ∨ waiting ≠ [] ∧ other = 1 := by
    intro other
    split
    · rename_i hnil
      rw [hcleared]
      simp [hnil]
    · rename_i hne
      rw [PicPair.requested_request, hcleared]
      simp [hne]
  have hclear := h.idle.clear 1
  have hbases := clear_bases s.machine.pics 1
  have hrequest := request_bases (s.machine.pics.clear 1) 1
  rw [hdeliver]
  refine ⟨h.gated, h.installed.of_handlers rfl, ?_, ?_, ?_, ?_, ?_, ?_, ?_, ?_⟩
  · show PicPair.Idle (if waiting = [] then _ else _)
    split
    · exact hclear
    · exact hclear.request (by decide)
  · show (if waiting = [] then _ else _ : PicPair).master.base = 32
    split
    · exact hbases.1.trans h.masterBase
    · exact hrequest.1.trans (hbases.1.trans h.masterBase)
  · show (if waiting = [] then _ else _ : PicPair).slave.base = 40
    split
    · exact hbases.2.trans h.slaveBase
    · exact hrequest.2.trans (hbases.2.trans h.slaveBase)
  · refine h.lines_deliver hline fun other hother => ?_
    rw [hpics other]
    simp [hother]
  · refine ⟨read ++ [scancode], ?_, ?_, ?_⟩
    · rw [harrived, hcons, List.append_assoc, List.singleton_append]
    · rw [hkeys, hcount, List.length_append, List.length_singleton]
    · rw [run_append, ← hkeyboard]
      rfl
  · show PicPair.Requested (if waiting = [] then _ else _) 1 ↔ waiting ≠ []
    rw [hpics 1]
    simp
  · rw [hticks]
    exact h.ticks
  · rw [hticks]
    exact h.tasks

theorem Serviced.deliver_other (h : Serviced isr tasks s) {line : Fin 16} (htimer : line ≠ 0)
    (hkey : line ≠ 1) (hline : s.machine.pics.Requested line) :
    Serviced isr tasks
      { s with delivered := s.delivered ++ [line], machine := deliver s.machine line } := by
  have hdeliver : deliver s.machine line =
      { s.machine with pics := s.machine.pics.clear line } := by
    rw [deliver, if_neg htimer, if_neg hkey]
  have hbases := clear_bases s.machine.pics line
  have hkeys := count_concat_of_ne (Ne.symm hkey) s.delivered
  have hticks := count_concat_of_ne (Ne.symm htimer) s.delivered
  rw [hdeliver]
  refine ⟨h.gated, h.installed.of_handlers rfl, h.idle.clear line, hbases.1.trans h.masterBase,
    hbases.2.trans h.slaveBase, ?_, ?_, ?_, ?_, ?_⟩
  · exact h.lines_deliver hline fun other _ => PicPair.requested_clear line other
  · obtain ⟨read, harrived, hcount, hkeyboard⟩ := h.keys
    exact ⟨read, harrived, hkeys.trans hcount, hkeyboard⟩
  · show (s.machine.pics.clear line).Requested 1 ↔ s.machine.waiting ≠ []
    rw [PicPair.requested_clear, ← h.ready]
    exact and_iff_left hkey.symm
  · rw [hticks]
    exact h.ticks
  · rw [hticks]
    exact h.tasks

theorem Serviced.deliver (h : Serviced isr tasks s) {line : Fin 16}
    (hline : s.machine.pics.Requested line) :
    Serviced isr tasks
      { s with delivered := s.delivered ++ [line], machine := X86.deliver s.machine line } := by
  by_cases htimer : line = 0
  · subst line
    exact h.deliver_timer hline
  by_cases hkey : line = 1
  · subst line
    exact h.deliver_key hline
  · exact h.deliver_other htimer hkey hline

theorem Serviced.key (h : Serviced isr tasks s) (scancode : UInt8) :
    ∃ s', machineStep isr s (.key scancode) = some s' ∧ Serviced isr tasks s' := by
  refine ⟨_, rfl, ?_⟩
  obtain ⟨read, harrived, hcount, hkeyboard⟩ := h.keys
  have hrequest := h.idle.request (show (1 : Fin 16).val ≠ 2 by decide)
  have hbases := request_bases s.machine.pics 1
  have hpics : ∀ other, (if s.machine.waiting = [] then s.machine.pics.request 1
      else s.machine.pics).Requested other ↔ s.machine.pics.Requested other ∨ other = 1 := by
    intro other
    split
    · exact PicPair.requested_request 1 other
    · rename_i hne
      refine ⟨Or.inl, fun hor => hor.elim id fun heq => ?_⟩
      rw [heq]
      exact h.ready.mpr hne
  refine ⟨h.gated, h.installed.of_handlers rfl, ?_, ?_, ?_, fun line hline => ?_,
    ⟨read, ?_, hcount, hkeyboard⟩, ?_, h.ticks, h.tasks⟩
  · show PicPair.Idle (if s.machine.waiting = [] then _ else _)
    split
    · exact hrequest
    · exact h.idle
  · show (if s.machine.waiting = [] then _ else _ : PicPair).master.base = 32
    split
    · exact hbases.1.trans h.masterBase
    · exact h.masterBase
  · show (if s.machine.waiting = [] then _ else _ : PicPair).slave.base = 40
    split
    · exact hbases.2.trans h.slaveBase
    · exact h.slaveBase
  · have hsame := hpics line
    rw [or_iff_left hline] at hsame
    rw [h.lines line hline]
    simp only [hsame]
  · show s.arrived ++ [scancode] = read ++ (s.machine.waiting ++ [scancode])
    rw [harrived, List.append_assoc]
  · show PicPair.Requested (if s.machine.waiting = [] then _ else _) 1 ↔
      s.machine.waiting ++ [scancode] ≠ []
    rw [hpics 1]
    simp

theorem Serviced.request (h : Serviced isr tasks s) (line : Fin 16) :
    ∃ s', machineStep isr s (.request line) = some s' ∧ Serviced isr tasks s' := by
  rw [machineStep]
  split
  · exact ⟨s, rfl, h⟩
  · rename_i hline
    obtain ⟨hkey, hcascade⟩ := not_or.mp hline
    have hbases := request_bases s.machine.pics line
    have hrequested := PicPair.requested_request (p := s.machine.pics) line
    refine ⟨_, rfl, h.gated, h.installed.of_handlers rfl,
      h.idle.request fun heq => hcascade (Fin.ext heq), hbases.1.trans h.masterBase,
      hbases.2.trans h.slaveBase, fun other hother => ?_, h.keys, ?_, h.ticks, h.tasks⟩
    · have hcount := h.lines other hother
      show (if s.machine.pics.Requested line then s.requests else s.requests ++ [line]).count
        other = s.delivered.count other +
          if (s.machine.pics.request line).Requested other then 1 else 0
      by_cases hsame : other = line
      · subst hsame
        rw [if_pos ((hrequested other).mpr (.inr rfl))]
        split
        · rename_i hwaits
          rw [hcount, if_pos hwaits]
        · rename_i hfree
          rw [count_concat_same, hcount, if_neg hfree, Nat.add_zero]
      · have hiff : (s.machine.pics.request line).Requested other ↔
            s.machine.pics.Requested other := by
          rw [hrequested, or_iff_left hsame]
        simp only [hiff]
        rw [← hcount]
        split
        · rfl
        · exact count_concat_of_ne hsame _
    · show (s.machine.pics.request line).Requested 1 ↔ s.machine.waiting ≠ []
      rw [hrequested, ← h.ready]
      exact or_iff_left fun heq => hkey heq.symm

/-- An interrupt of software changes neither the controllers nor what their handlers work on. -/
theorem Serviced.of_machine (h : Serviced isr tasks s) {screen : List TerminalOp} {stopped : Bool} :
    Serviced isr tasks
      { s with machine := { s.machine with screen := screen, stopped := stopped } } :=
  ⟨h.gated, h.installed.of_handlers rfl, h.idle, h.masterBase, h.slaveBase, h.lines, h.keys,
    h.ready, h.ticks, h.tasks⟩

theorem syscallHandle_machine (m : Machine) (regs : Registers) (text : Bytes) :
    ∃ screen, (syscallHandle m regs text).1 = { m with screen := screen } := by
  rw [syscallHandle]
  split_ifs <;> exact ⟨_, rfl⟩

theorem Serviced.syscall (h : Serviced isr tasks s)
    (hisr : ∀ m ∈ stubVectors, ∀ n ∈ stubVectors, isr m = isr n → m = n) (regs : Registers)
    (text : Bytes) :
    ∃ s', machineStep isr s (.syscall regs text) = some s' ∧ Serviced isr tasks s' := by
  rw [machineStep]
  cases hstopped : s.machine.stopped with
  | true => exact ⟨s, rfl, h⟩
  | false =>
    have hentered : entered isr s.machine.idt 128 = some 128 :=
      entered_eq hisr h.gated (by decide)
    obtain ⟨screen, hscreen⟩ :=
      syscallHandle_machine s.machine (stubRegisters regs 128) text
    have hdispatch : (interruptDispatch s.machine (stubRegisters regs 128) text).1 =
        { s.machine with screen := screen, stopped := s.machine.stopped } := by
      have hnumber : (stubRegisters regs 128).intNo = 128 := rfl
      have hnat : (128 : UInt32).toNat = 128 := rfl
      have hrange : ¬ ((32 : UInt32) ≤ 128 ∧ (128 : UInt32) ≤ 47) := by decide
      rw [interruptDispatch, hnumber, hnat, h.installed.syscall]
      simp only [runHandler, hscreen, hrange, if_false, ite_self]
    rw [if_neg Bool.false_ne_true, hentered, Option.map_some]
    refine ⟨_, rfl, ?_⟩
    rw [hdispatch]
    exact h.of_machine

theorem Serviced.exception (h : Serviced isr tasks s)
    (hisr : ∀ m ∈ stubVectors, ∀ n ∈ stubVectors, isr m = isr n → m = n) (vector : Fin 32)
    (regs : Registers) :
    ∃ s', machineStep isr s (.exception vector regs) = some s' ∧ Serviced isr tasks s' := by
  rw [machineStep]
  cases hstopped : s.machine.stopped with
  | true => exact ⟨s, rfl, h⟩
  | false =>
    have hmem : vector.val ∈ stubVectors := by
      rw [stubVectors, List.mem_append, List.mem_range]
      left
      omega
    have hnumber : ∀ vector : Fin 32, (UInt32.ofNat vector.val).toNat = vector.val ∧
        UInt32.ofNat vector.val < 32 := by decide
    obtain ⟨hnat, hlow⟩ := hnumber vector
    have hin := vector.isLt
    have hhandler : s.machine.handlers vector.val = none :=
      h.installed.others _ (by omega) (by omega) (by omega)
    have hdispatch : ∃ screen,
        (interruptDispatch s.machine (stubRegisters regs vector.val) []).1 =
          { s.machine with screen := screen, stopped := true } := by
      have hregs : (stubRegisters regs vector.val).intNo = UInt32.ofNat vector.val := rfl
      rw [interruptDispatch, hregs, hnat, hhandler]
      simp only [hlow, if_true]
      exact ⟨_, rfl⟩
    obtain ⟨screen, hscreen⟩ := hdispatch
    rw [if_neg Bool.false_ne_true, entered_eq hisr h.gated hmem, Option.map_some]
    refine ⟨_, rfl, ?_⟩
    rw [hscreen]
    exact h.of_machine

theorem Serviced.step (h : Serviced isr tasks s)
    (hisr : ∀ m ∈ stubVectors, ∀ n ∈ stubVectors, isr m = isr n → m = n) (op : InterruptOp) :
    ∃ s', machineStep isr s op = some s' ∧ Serviced isr tasks s' := by
  cases op with
  | key scancode => exact h.key scancode
  | request line => exact h.request line
  | syscall regs text => exact h.syscall hisr regs text
  | exception vector regs => exact h.exception hisr vector regs
  | accept regs =>
    cases hstopped : s.machine.stopped with
    | true => exact ⟨s, if_pos hstopped, h⟩
    | false =>
      by_cases hany : ∃ line, s.machine.pics.Requested line
      · obtain ⟨line, hline⟩ := hany
        obtain ⟨first, hfirst, hleast⟩ := PicPair.exists_first hline
        exact ⟨_, h.accept hisr hstopped hfirst hleast regs, h.deliver hfirst⟩
      · refine ⟨s, ?_, h⟩
        rw [machineStep, if_neg (by rw [hstopped]; exact Bool.false_ne_true),
          h.idle.acknowledge_none (not_exists.mp hany)]

theorem Serviced.run (h : Serviced isr tasks s)
    (hisr : ∀ m ∈ stubVectors, ∀ n ∈ stubVectors, isr m = isr n → m = n)
    (ops : List InterruptOp) :
    ∃ s', runPartial (machineStep isr) s ops = some s' ∧ Serviced isr tasks s' := by
  induction ops generalizing s with
  | nil => exact ⟨s, rfl, h⟩
  | cons op ops ih =>
    obtain ⟨next, hstep, hnext⟩ := h.step hisr op
    obtain ⟨s', hrun, hend⟩ := ih hnext
    refine ⟨s', ?_, hend⟩
    rw [runPartial_cons, hstep, Option.bind_some, hrun]

/-- The interrupts to come: one for each line that waits, and one for each scancode behind the
first one. -/
def outstanding (m : Machine) : Nat :=
  (Finset.univ.filter fun line => m.pics.Requested line).card + (m.waiting.length - 1)

theorem deliver_stopped (m : Machine) (line : Fin 16) : (deliver m line).stopped = m.stopped := by
  rw [deliver]
  split_ifs
  · rfl
  · exact keyboardInterrupt_stopped _
  · rfl

theorem card_clear (p : PicPair) {line : Fin 16} (hline : p.Requested line) :
    (Finset.univ.filter fun other => (p.clear line).Requested other).card <
      (Finset.univ.filter fun other => p.Requested other).card := by
  apply Finset.card_lt_card
  refine ⟨fun other hmem => ?_, fun hsub => ?_⟩
  · rw [Finset.mem_filter, PicPair.requested_clear] at hmem
    exact Finset.mem_filter.mpr ⟨hmem.1, hmem.2.1⟩
  · have hmem := hsub (Finset.mem_filter.mpr ⟨Finset.mem_univ line, hline⟩)
    rw [Finset.mem_filter, PicPair.requested_clear] at hmem
    exact hmem.2.2 rfl

theorem Serviced.outstanding_deliver (h : Serviced isr tasks s) {line : Fin 16}
    (hline : s.machine.pics.Requested line) :
    outstanding (X86.deliver s.machine line) < outstanding s.machine := by
  have hclear := card_clear s.machine.pics hline
  by_cases hkey : line = 1
  · subst hkey
    obtain ⟨scancode, waiting, hcons⟩ := List.exists_cons_of_ne_nil (h.ready.mp hline)
    have hwaiting : (X86.deliver s.machine 1).waiting = waiting := by
      rw [X86.deliver, if_neg (by decide), if_pos rfl, keyboardInterrupt, Machine.inb60]
      simp only [hcons]
    have hpics : (X86.deliver s.machine 1).pics =
        if waiting = [] then s.machine.pics.clear 1
        else (s.machine.pics.clear 1).request 1 := by
      rw [X86.deliver, if_neg (by decide), if_pos rfl, keyboardInterrupt, Machine.inb60]
      simp only [hcons]
    rw [outstanding, outstanding, hwaiting, hpics, hcons, List.length_cons]
    split
    · rename_i hnil
      rw [hnil, List.length_nil]
      omega
    · rename_i hne
      have hpos := List.length_pos_of_ne_nil hne
      have hsame : (Finset.univ.filter fun other =>
          ((s.machine.pics.clear 1).request 1).Requested other) =
          Finset.univ.filter fun other => s.machine.pics.Requested other := by
        ext other
        rw [Finset.mem_filter, Finset.mem_filter, PicPair.requested_request,
          PicPair.requested_clear]
        by_cases hother : other = 1
        · simp [hother, hline]
        · simp [hother]
      rw [hsame]
      omega
  · have hsame : (X86.deliver s.machine line).waiting = s.machine.waiting ∧
        (X86.deliver s.machine line).pics = s.machine.pics.clear line := by
      rw [X86.deliver, if_neg hkey]
      split_ifs <;> exact ⟨rfl, rfl⟩
    rw [outstanding, outstanding, hsame.1, hsame.2]
    exact Nat.add_lt_add_right hclear _

/-- Taken one after another, the interrupts come to an end. -/
theorem Serviced.drains (h : Serviced isr tasks s)
    (hisr : ∀ m ∈ stubVectors, ∀ n ∈ stubVectors, isr m = isr n → m = n)
    (hrunning : s.machine.stopped = false) (regs : Registers) :
    ∃ n s', runPartial (machineStep isr) s (List.replicate n (.accept regs)) = some s' ∧
      Serviced isr tasks s' ∧ s'.arrived = s.arrived ∧ s'.requests = s.requests ∧
      ∀ line, ¬ s'.machine.pics.Requested line := by
  induction hmany : outstanding s.machine using Nat.strong_induction_on generalizing s with
  | _ many ih =>
    by_cases hany : ∃ line, s.machine.pics.Requested line
    · obtain ⟨line, hline⟩ := hany
      obtain ⟨first, hfirst, hleast⟩ := PicPair.exists_first hline
      have hstep := h.accept hisr hrunning hfirst hleast regs
      have hless := h.outstanding_deliver hfirst
      obtain ⟨n, s', hrun, hserviced, harrived, hrequests, hnone⟩ :=
        ih _ (hmany ▸ hless) (h.deliver hfirst) ((deliver_stopped _ _).trans hrunning) rfl
      refine ⟨n + 1, s', ?_, hserviced, harrived, hrequests, hnone⟩
      rw [List.replicate_succ, runPartial_cons, hstep]
      exact hrun
    · exact ⟨0, s, rfl, h, rfl, rfl, not_exists.mp hany⟩

theorem serviced_boot (isr : Nat → UInt32) (pics : PicPair) (latch : UInt8) (tasks : TaskTable)
    (screen : List TerminalOp) :
    Serviced isr (taskInit tasks) ⟨kernelInterrupts isr pics latch tasks screen, [], [], []⟩ := by
  have hnone : ∀ line, ¬ (⟨⟨∅, ∅, ∅, 32, .ready⟩, ⟨∅, ∅, ∅, 40, .ready⟩⟩ : PicPair).Requested line := by
    intro line
    rw [PicPair.Requested]
    split <;> exact Finset.notMem_empty _
  rw [kernelInterrupts]
  simp only [picRemap_eq, registerInterruptHandler]
  refine ⟨gated_boot, ⟨rfl, rfl, rfl, fun n htimer hkeyboard hsyscall => ?_⟩, idle_remapped _, rfl,
    rfl, fun line _ => ?_, ⟨[], rfl, rfl, rfl⟩, ?_, rfl, rfl⟩
  · show Function.update (Function.update (Function.update (fun _ => none) 128 _) 32 _) 33 _ n = none
    rw [Function.update_of_ne hkeyboard, Function.update_of_ne htimer,
      Function.update_of_ne hsyscall]
  · rw [if_neg (hnone line)]
    rfl
  · exact iff_of_false (hnone 1) fun hne => hne rfl

end Run

/-- What the kernel owes its devices whenever it is not inside a handler. -/
structure InterruptLaw (isr : Nat → UInt32) (tasks : TaskTable) (s : InterruptSystem) : Prop where
  serviced : Serviced isr tasks s
  /-- the waiting line of the highest priority is handled next -/
  next : s.machine.stopped = false → ∀ line, s.machine.pics.Requested line →
    (∀ other, s.machine.pics.Requested other → PicPair.rank line ≤ PicPair.rank other) →
    ∀ regs, machineStep isr s (.accept regs) =
      some { s with delivered := s.delivered ++ [line], machine := deliver s.machine line }
  /-- what has been asked for is handled once the devices are quiet -/
  drains : s.machine.stopped = false → ∀ regs, ∃ n s',
    runPartial (machineStep isr) s (List.replicate n (.accept regs)) = some s' ∧
      s'.machine.waiting = [] ∧ s'.machine.keyboard = run keyboardCallback .boot s.arrived ∧
      ∀ line, line ≠ 1 → s'.delivered.count line = s.requests.count line

/-- From the boot on, in any order of requests, scancodes, interrupts, system calls and exceptions,
no gate is missing, no request is lost and no controller is left with an interrupt in service. -/
theorem interrupt_run (isr : Nat → UInt32)
    (hisr : ∀ m ∈ stubVectors, ∀ n ∈ stubVectors, isr m = isr n → m = n) (pics : PicPair)
    (latch : UInt8) (tasks : TaskTable) (screen : List TerminalOp) (ops : List InterruptOp) :
    ∃ s, runPartial (machineStep isr)
        ⟨kernelInterrupts isr pics latch tasks screen, [], [], []⟩ ops = some s ∧
      InterruptLaw isr (taskInit tasks) s := by
  obtain ⟨s, hrun, hserviced⟩ := (serviced_boot isr pics latch tasks screen).run hisr ops
  refine ⟨s, hrun, hserviced, fun hrunning line hline hfirst regs =>
    hserviced.accept hisr hrunning hline hfirst regs, fun hrunning regs => ?_⟩
  obtain ⟨n, s', hrun', hend, harrived, hrequests, hnone⟩ := hserviced.drains hisr hrunning regs
  have hwaiting : s'.machine.waiting = [] := by
    by_contra hne
    exact hnone 1 (hend.ready.mpr hne)
  obtain ⟨read, hread, -, hkeyboard⟩ := hend.keys
  rw [hwaiting, List.append_nil, harrived] at hread
  refine ⟨n, s', hrun', hwaiting, by rw [hread, hkeyboard], fun line hline => ?_⟩
  have hcount := hend.lines line hline
  rw [if_neg (hnone line), Nat.add_zero, hrequests] at hcount
  exact hcount.symm

theorem interrupt_run_key :
    ∃ s, runPartial (machineStep UInt32.ofNat)
        ⟨kernelInterrupts UInt32.ofNat ⟨⟨∅, ∅, ∅, 8, .icw2⟩, ⟨∅, {1}, ∅, 0, .ready⟩⟩ 0
          ⟨fun _ => ⟨0, .zero taskNameMax, .ready, 0, false⟩, 0, 0⟩ [], [], [], []⟩
        [.key 30, .request 0, .key 158] = some s ∧
      InterruptLaw UInt32.ofNat
        (taskInit ⟨fun _ => ⟨0, .zero taskNameMax, .ready, 0, false⟩, 0, 0⟩) s :=
  interrupt_run UInt32.ofNat (by decide) _ 0 _ [] _

end SnsxOS.X86
