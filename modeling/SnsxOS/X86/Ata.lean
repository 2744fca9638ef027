import SnsxOS.Framework.Polling
import SnsxOS.Framework.Writer

/-!
# The ATA driver

`drivers/ata.c` against the primary bus it talks to through ports: a drive that is busy for a while
before each block of 256 words, or no drive at all, where every port reads the same value. The
drive's reaction to a command is that of programmed input with 28-bit sector numbers.
-/

namespace SnsxOS.X86

open Framework

/-! ## The bus -/

/-- What a drive holds, and how long it is busy before each of its transfers. -/
structure AtaMedium where
  sectors : List (List UInt16)
  /-- the forty characters of the name -/
  model : Bytes
  /-- the words of the identification that the driver does not read -/
  otherWords : Nat → UInt16
  /-- a packet device refuses the identification -/
  packet : Bool
  delay : Nat → Nat

/-- What a drive is about to transfer. -/
inductive AtaWork where
  /-- a sector and the number of those behind it -/
  | sector (lba left : Nat)
  | identify

inductive AtaPhase where
  | idle
  | busy (reads : Nat) (work : AtaWork)
  | transfer (words : List UInt16) (next : Option AtaWork)
  | error

structure AtaDrive where
  medium : AtaMedium
  count : UInt8
  low : UInt8
  mid : UInt8
  high : UInt8
  select : UInt8
  phase : AtaPhase
  /-- the transfers that have been started -/
  started : Nat

/-- The primary bus with its first drive, or without one. -/
inductive AtaBus where
  | empty (floating : UInt8)
  | drive (drive : AtaDrive)

def AtaMedium.identityWord (m : AtaMedium) (i : Nat) : UInt16 :=
  if 27 ≤ i ∧ i < 47 then
    ((m.model.getD (2 * (i - 27)) 0).toUInt16 <<< 8) |||
      (m.model.getD (2 * (i - 27) + 1) 0).toUInt16
  else if i = 60 then (UInt32.ofNat m.sectors.length).toUInt16
  else if i = 61 then (UInt32.ofNat m.sectors.length >>> 16).toUInt16
  else m.otherWords i

def AtaMedium.identity (m : AtaMedium) : List UInt16 := (List.range 256).map m.identityWord

/-- The transfer that a drive starts when it is no longer busy. -/
def AtaMedium.begin (m : AtaMedium) : AtaWork → AtaPhase
  | .identify => .transfer m.identity none
  | .sector lba left => match m.sectors[lba]? with
      | none => .error
      | some words =>
          .transfer words (if left = 0 then none else some (.sector (lba + 1) (left - 1)))

/-- The phase after some time. -/
def AtaMedium.proceed (m : AtaMedium) : AtaPhase → AtaPhase
  | .busy 0 work => m.begin work
  | .busy (reads + 1) work => .busy reads work
  | .idle => .idle
  | .transfer words next => .transfer words next
  | .error => .error

def AtaPhase.status : AtaPhase → UInt8
  | .idle => 0x50
  | .busy _ _ => 0x80
  | .transfer _ _ => 0x58
  | .error => 0x51

namespace AtaDrive

/-- Time passes. -/
def tick (d : AtaDrive) : AtaDrive := { d with phase := d.medium.proceed d.phase }

/-- The drive gets busy with a transfer. -/
def start (d : AtaDrive) (work : AtaWork) : AtaDrive :=
  { d with phase := .busy (d.medium.delay d.started) work, started := d.started + 1 }

def readRegister (d : AtaDrive) (port : UInt16) : UInt8 :=
  if port = 0x1F2 then d.count
  else if port = 0x1F3 then d.low
  else if port = 0x1F4 then d.mid
  else if port = 0x1F5 then d.high
  else if port = 0x1F6 then d.select
  else d.phase.status

def lba (d : AtaDrive) : Nat :=
  (d.select &&& 0x0F).toNat * 2 ^ 24 + d.high.toNat * 2 ^ 16 + d.mid.toNat * 2 ^ 8 + d.low.toNat

/-- A command: a read of sectors by their numbers, or the identification. -/
def command (d : AtaDrive) (code : UInt8) : AtaDrive :=
  if code = 0x20 ∧ d.select &&& 0x40 ≠ 0 then
    d.start (.sector d.lba (if d.count = 0 then 255 else d.count.toNat - 1))
  else if code = 0xEC then
    if d.medium.packet then { d with mid := 0x14, high := 0xEB, phase := .error }
    else d.start .identify
  else { d with phase := .error }

def latch (d : AtaDrive) (port : UInt16) (value : UInt8) : AtaDrive :=
  if port = 0x1F2 then { d with count := value }
  else if port = 0x1F3 then { d with low := value }
  else if port = 0x1F4 then { d with mid := value }
  else if port = 0x1F5 then { d with high := value }
  else if port = 0x1F6 then { d with select := value }
  else if port = 0x1F7 then d.command value
  else d

/-- A drive that is at work takes no register. -/
def writeRegister (d : AtaDrive) (port : UInt16) (value : UInt8) : AtaDrive :=
  match d.phase with
  | .busy _ _ | .transfer _ _ => d
  | .idle | .error => d.latch port value

/-- A word from the data port; behind the last one of a block the drive turns to the next. -/
def readWord (d : AtaDrive) : UInt16 × AtaDrive :=
  match d.phase with
  | .transfer [word] none => (word, { d with phase := .idle })
  | .transfer [word] (some work) => (word, d.start work)
  | .transfer (word :: words) next => (word, { d with phase := .transfer words next })
  | _ => (0, d)

end AtaDrive

namespace AtaBus

def inb (port : UInt16) : AtaBus → UInt8 × AtaBus
  | .empty floating => (floating, .empty floating)
  | .drive d => (d.readRegister port, .drive d.tick)

def outb (port : UInt16) (value : UInt8) : AtaBus → AtaBus
  | .empty floating => .empty floating
  | .drive d => .drive (d.writeRegister port value)

def inw : AtaBus → UInt16 × AtaBus
  | .empty floating => (floating.toUInt16 <<< 8 ||| floating.toUInt16, .empty floating)
  | .drive d => (d.readWord.1, .drive d.readWord.2)

/-- `insw` on the data port. -/
def insw : Nat → AtaBus → List UInt16 × AtaBus
  | 0, bus => ([], bus)
  | count + 1, bus =>
      let (word, bus) := bus.inw
      let (words, bus) := insw count bus
      (word :: words, bus)

/-- `insw` of the 256 words of a block. -/
def block (bus : AtaBus) : List UInt16 × AtaBus := bus.insw 256

end AtaBus

/-! ## The driver -/

def ataDelay (bus : AtaBus) : AtaBus :=
  ((((bus.inb 0x3F6).2.inb 0x3F6).2.inb 0x3F6).2.inb 0x3F6).2

def ataNotBusy (status : UInt8) : Option Unit := if status &&& 0x80 = 0 then some () else none

def ataWaitNotBusy (bus : AtaBus) : Bool × AtaBus :=
  let (ready, bus) := poll (AtaBus.inb 0x1F7) ataNotBusy 100000 bus
  (ready.isSome, bus)

/-- An error ends the wait for data as well. -/
def ataDrq (status : UInt8) : Option Bool :=
  if status &&& 0x01 ≠ 0 then some false
  else if status &&& 0x08 ≠ 0 then some true
  else none

def ataWaitDrq (bus : AtaBus) : Bool × AtaBus :=
  let (ready, bus) := poll (AtaBus.inb 0x1F7) ataDrq 100000 bus
  (ready.getD false, bus)

structure AtaIdentity where
  /-- forty characters and a zero -/
  model : Bytes
  lba28Sectors : UInt32
  deriving DecidableEq

/-- What `ata_identify_primary` takes from the words. -/
def ataIdentity (words : List UInt16) : AtaIdentity where
  model := ((List.range 20).flatMap fun i =>
    [(words.getD (27 + i) 0 >>> 8).toUInt8, (words.getD (27 + i) 0 &&& 0xFF).toUInt8]) ++ [0]
  lba28Sectors := ((words.getD 61 0).toUInt32 <<< 16) ||| (words.getD 60 0).toUInt32

/-- The driver goes on when an answer is good, and finds no drive otherwise. -/
def goodAnswer {α : Type} (good : α → Bool) (answer : α × AtaBus)
    (next : AtaBus → Option AtaIdentity × AtaBus) : Option AtaIdentity × AtaBus :=
  if good answer.1 then next answer.2 else (none, answer.2)

/-- `ata_identify_primary` behind its command. -/
def ataIdentifyAnswer (bus : AtaBus) : Option AtaIdentity × AtaBus :=
  goodAnswer (fun status => status != 0) (bus.inb 0x1F7) fun bus =>
    goodAnswer id (ataWaitNotBusy bus) fun bus =>
      goodAnswer (fun mid => mid == 0) (bus.inb 0x1F4) fun bus =>
        goodAnswer (fun high => high == 0) (bus.inb 0x1F5) fun bus =>
          goodAnswer id (ataWaitDrq bus) fun bus =>
            (some (ataIdentity bus.block.1), bus.block.2)

/-- `ata_identify_primary`; no identity when it returns false. -/
def ataIdentifyPrimary (bus : AtaBus) : Option AtaIdentity × AtaBus :=
  goodAnswer id (ataWaitNotBusy bus) fun bus =>
    let bus := ataDelay (bus.outb 0x1F6 0xA0)
    let bus := (((bus.outb 0x1F2 0).outb 0x1F3 0).outb 0x1F4 0).outb 0x1F5 0
    ataIdentifyAnswer (bus.outb 0x1F7 0xEC)

/-- The bytes that `insw` stores for its words. -/
def wordBytes (words : List UInt16) : Bytes :=
  words.flatMap fun (word : UInt16) => [word.toUInt8, (word >>> 8).toUInt8]

/-- A round of the loop of `ata_read28`. There is no result when it writes outside the buffer. -/
def ataReadSector (sector : Nat) (bus : AtaBus) (out : Bytes) : Option (Bool × AtaBus × Bytes) :=
  let (ready, bus) := ataWaitDrq bus
  if !ready then some (false, bus, out)
  else
    let (words, bus) := bus.block
    (store out (sector * 512) (wordBytes words)).map fun out => (true, ataDelay bus, out)

/-- The loop over some more sectors. -/
def ataReadSectors : Nat → Nat → AtaBus → Bytes → Option (Bool × AtaBus × Bytes)
  | 0, _, bus, out => some (true, bus, out)
  | left + 1, sector, bus, out =>
      (ataReadSector sector bus out).bind fun (ready, bus, out) =>
        if !ready then some (false, bus, out) else ataReadSectors left (sector + 1) bus out

def ataRead28 (bus : AtaBus) (lba : UInt32) (sectorCount : UInt8) (out : Bytes) :
    Option (Bool × AtaBus × Bytes) :=
  if sectorCount = 0 ∨ lba > 0x0FFFFFFF then some (false, bus, out)
  else
    let (ready, bus) := ataWaitNotBusy bus
    if !ready then some (false, bus, out)
    else
      let bus := bus.outb 0x1F6 ((0xE0 : UInt8) ||| ((lba >>> 24) &&& 0x0F).toUInt8)
      let bus := bus.outb 0x1F2 sectorCount
      let bus := bus.outb 0x1F3 (lba &&& 0xFF).toUInt8
      let bus := bus.outb 0x1F4 ((lba >>> 8) &&& 0xFF).toUInt8
      let bus := bus.outb 0x1F5 ((lba >>> 16) &&& 0xFF).toUInt8
      let bus := bus.outb 0x1F7 0x20
      ataReadSectors sectorCount.toNat 0 bus out

/-! ## A drive at work -/

section Transfers

variable {d : AtaDrive} {work : AtaWork} {bound : Nat}

/-- The drive is about to transfer, or already can. -/
def AtaDrive.Awaits (d : AtaDrive) (work : AtaWork) (bound : Nat) : Prop :=
  d.phase = d.medium.begin work ∨ ∃ reads ≤ bound, d.phase = .busy reads work

/-- The drive with its transfer begun. -/
def AtaDrive.begun (d : AtaDrive) (work : AtaWork) : AtaDrive :=
  { d with phase := d.medium.begin work }

theorem AtaMedium.begin_cases (m : AtaMedium) (work : AtaWork) :
    (∃ words next, m.begin work = .transfer words next) ∨ m.begin work = .error := by
  cases work with
  | identify => exact Or.inl ⟨_, _, rfl⟩
  | sector lba left =>
    rw [AtaMedium.begin]
    cases m.sectors[lba]? with
    | none => exact Or.inr rfl
    | some words => exact Or.inl ⟨_, _, rfl⟩

theorem AtaMedium.proceed_begin (m : AtaMedium) (work : AtaWork) :
    m.proceed (m.begin work) = m.begin work := by
  rcases m.begin_cases work with hbegin | hbegin
  · obtain ⟨words, next, hbegin⟩ := hbegin
    rw [hbegin]
    rfl
  · rw [hbegin]
    rfl

theorem AtaDrive.Awaits.tick (h : d.Awaits work bound) : d.tick.Awaits work bound := by
  rcases h with hbegin | hbusy
  · left
    rw [AtaDrive.tick, hbegin, d.medium.proceed_begin]
  · obtain ⟨reads, hle, hphase⟩ := hbusy
    cases reads with
    | zero =>
      left
      rw [AtaDrive.tick, hphase]
      rfl
    | succ reads =>
      right
      refine ⟨reads, Nat.le_of_succ_le hle, ?_⟩
      rw [AtaDrive.tick, hphase]
      rfl

theorem ataDelay_drive (d : AtaDrive) : ataDelay (.drive d) = .drive d.tick.tick.tick.tick := rfl

/-- The verdict on the status of a drive that has begun. -/
theorem AtaMedium.begin_status (m : AtaMedium) (work : AtaWork) :
    ataNotBusy (m.begin work).status = some () ∧ ∃ ok : Bool,
      (ok = true ↔ ∃ words next, m.begin work = .transfer words next) ∧
      ataDrq (m.begin work).status = some ok := by
  rcases m.begin_cases work with hbegin | hbegin
  · obtain ⟨words, next, hbegin⟩ := hbegin
    have hstatus : (AtaPhase.transfer words next).status = 0x58 := rfl
    rw [hbegin, hstatus]
    exact ⟨by decide, true, by simp, by decide⟩
  · have hstatus : AtaPhase.error.status = 0x51 := rfl
    rw [hbegin, hstatus]
    exact ⟨by decide, false, by simp, by decide⟩

/-- A busy drive gets to its transfer. -/
theorem AtaDrive.Awaits.decides {β : Type} {verdict : UInt8 → Option β} {b : β}
    (hbusy : verdict 0x80 = none) (hbegin : verdict (d.medium.begin work).status = some b)
    (h : d.Awaits work bound) : ∃ silent ≤ bound + 1,
      Decides (AtaBus.inb 0x1F7) verdict silent (.drive d) b (.drive (d.begun work)) := by
  have hnow : ∀ d' : AtaDrive, d'.medium = d.medium → d'.phase = d.medium.begin work →
      d'.begun work = d.begun work →
      Decides (AtaBus.inb 0x1F7) verdict 0 (.drive d') b (.drive (d.begun work)) := by
    intro d' hmedium hphase hbegun
    have hread : verdict (AtaBus.inb 0x1F7 (.drive d')).1 = some b := by
      show verdict d'.phase.status = some b
      rw [hphase, hbegin]
    have hnext : (AtaBus.inb 0x1F7 (.drive d')).2 = .drive (d.begun work) := by
      show AtaBus.drive d'.tick = _
      rw [← hbegun, AtaDrive.tick, hphase, hmedium, d.medium.proceed_begin, AtaDrive.begun, hmedium]
    rw [← hnext]
    exact .now hread
  rcases h with hphase | hphase
  · exact ⟨0, Nat.zero_le _, hnow d rfl hphase rfl⟩
  · obtain ⟨reads, hle, hphase⟩ := hphase
    refine ⟨reads + 1, Nat.succ_le_succ hle, ?_⟩
    clear hle
    induction reads generalizing d with
    | zero =>
      apply Decides.later
      · show verdict d.phase.status = none
        rw [hphase]
        exact hbusy
      · exact hnow d.tick rfl (by rw [AtaDrive.tick, hphase]; rfl) rfl
    | succ reads ih =>
      apply Decides.later
      · show verdict d.phase.status = none
        rw [hphase]
        exact hbusy
      · exact ih (d := d.tick) hbegin hnow (by rw [AtaDrive.tick, hphase]; rfl)

/-- `ata_wait_drq` waits for the transfer, or sees the error. -/
theorem AtaDrive.Awaits.waitDrq (h : d.Awaits work bound) (hbound : bound < 99999) : ∃ ok : Bool,
    (ok = true ↔ ∃ words next, d.medium.begin work = .transfer words next) ∧
      ataWaitDrq (.drive d) = (ok, .drive (d.begun work)) := by
  obtain ⟨-, ok, hok, hverdict⟩ := d.medium.begin_status work
  obtain ⟨silent, hle, hdecides⟩ := h.decides (show ataDrq 0x80 = none by decide) hverdict
  refine ⟨ok, hok, ?_⟩
  rw [ataWaitDrq, hdecides.poll_eq (by omega)]
  rfl

theorem AtaDrive.Awaits.waitNotBusy (h : d.Awaits work bound) (hbound : bound < 99999) :
    ataWaitNotBusy (.drive d) = (true, .drive (d.begun work)) := by
  obtain ⟨hready, -⟩ := d.medium.begin_status work
  obtain ⟨silent, hle, hdecides⟩ := h.decides (show ataNotBusy 0x80 = none by decide) hready
  rw [ataWaitNotBusy, hdecides.poll_eq (by omega)]
  rfl

/-- The drive behind a block. -/
def AtaDrive.behind (d : AtaDrive) : Option AtaWork → AtaDrive
  | none => { d with phase := .idle }
  | some work => d.start work

/-- `insw` takes a whole block. -/
theorem AtaDrive.insw_transfer (d : AtaDrive) (words : List UInt16) (next : Option AtaWork)
    (hne : words ≠ []) (hphase : d.phase = .transfer words next) :
    AtaBus.insw words.length (.drive d) = (words, .drive (d.behind next)) := by
  induction words generalizing d with
  | nil => exact absurd rfl hne
  | cons word words ih =>
    have hword : (AtaBus.drive d).inw = (d.readWord.1, .drive d.readWord.2) := rfl
    rw [List.length_cons, AtaBus.insw, hword]
    dsimp only
    cases words with
    | nil =>
      cases next with
      | none =>
        rw [AtaDrive.readWord, hphase]
        rfl
      | some work =>
        rw [AtaDrive.readWord, hphase]
        rfl
    | cons second words =>
      have hread : d.readWord =
          (word, { d with phase := .transfer (second :: words) next }) := by
        rw [AtaDrive.readWord, hphase]
      rw [hread]
      dsimp only
      rw [ih { d with phase := .transfer (second :: words) next } (List.cons_ne_nil _ _) rfl]
      cases next <;> rfl

end Transfers

/-! ## Sectors -/

/-- Sectors of 256 words, no more of them than 28 bits number, a name of forty characters, and
less patience needed than the driver has. -/
structure AtaMedium.Sound (m : AtaMedium) : Prop where
  sector : ∀ words ∈ m.sectors, words.length = 256
  capacity : m.sectors.length ≤ 2 ^ 28
  name : m.model.length = 40
  patience : ∀ n, m.delay n < 99999

/-- The drive takes a command. -/
def AtaDrive.Free (d : AtaDrive) : Prop := d.phase = .idle ∨ d.phase = .error

/-- A drive with the medium that takes a command. -/
def AtaBus.Ready (m : AtaMedium) (bus : AtaBus) : Prop :=
  ∃ d, bus = .drive d ∧ d.medium = m ∧ d.Free

section Reads

variable {m : AtaMedium}

theorem length_wordBytes (words : List UInt16) : (wordBytes words).length = 2 * words.length := by
  induction words with
  | nil => rfl
  | cons word words ih =>
    rw [wordBytes, List.flatMap_cons, ← wordBytes, List.length_append, ih, List.length_cons]
    simp only [List.length_cons, List.length_nil]
    omega

/-- A drive that gets busy is still waited for after the delay. -/
theorem AtaDrive.start_awaits (hm : m.Sound) {d : AtaDrive} (hmedium : d.medium = m)
    (work : AtaWork) : ∃ bound < 99999, (d.start work).Awaits work bound ∧
      ∃ next, ataDelay (.drive (d.start work)) = .drive next ∧ next.medium = m ∧
        next.Awaits work bound := by
  have hstart : (d.start work).Awaits work (m.delay d.started) :=
    Or.inr ⟨_, le_rfl, by rw [start, hmedium]⟩
  exact ⟨m.delay d.started, hm.patience _, hstart, _, ataDelay_drive _, hmedium,
    hstart.tick.tick.tick.tick⟩

/-- A sector that there is not ends the loop. -/
theorem ataReadSector_none {left sector lba bound : Nat} {d : AtaDrive} {out : Bytes}
    (hbound : bound < 99999) (hawaits : d.Awaits (.sector lba left) bound)
    (hsector : d.medium.sectors[lba]? = none) :
    ataReadSector sector (.drive d) out =
      some (false, .drive (d.begun (.sector lba left)), out) := by
  obtain ⟨ok, hok, hwait⟩ := hawaits.waitDrq hbound
  have hbegin : d.medium.begin (.sector lba left) = .error := by
    rw [AtaMedium.begin, hsector]
  have hfalse : ok = false := by
    rw [← Bool.not_eq_true, hok, hbegin]
    simp
  rw [ataReadSector, hwait, hfalse]
  simp only [Bool.not_false, if_true]

/-- A sector is stored and the drive turns to the next one. -/
theorem ataReadSector_some {left sector lba bound : Nat} {d : AtaDrive} {out : Bytes}
    {words : List UInt16} (hbound : bound < 99999) (hawaits : d.Awaits (.sector lba left) bound)
    (hsector : d.medium.sectors[lba]? = some words) (hlength : words.length = 256) :
    ataReadSector sector (.drive d) out = (store out (sector * 512) (wordBytes words)).map fun out =>
      (true, ataDelay (.drive ((d.begun (.sector lba left)).behind
        (if left = 0 then none else some (.sector (lba + 1) (left - 1))))), out) := by
  obtain ⟨ok, hok, hwait⟩ := hawaits.waitDrq hbound
  have hbegin : d.medium.begin (.sector lba left) = .transfer words
      (if left = 0 then none else some (.sector (lba + 1) (left - 1))) := by
    rw [AtaMedium.begin, hsector]
  have hne : words ≠ [] := by
    rintro rfl
    cases hlength
  have hwords := (d.begun (.sector lba left)).insw_transfer words _ hne hbegin
  rw [hlength, ← AtaBus.block] at hwords
  rw [ataReadSector, hwait, hok.mpr ⟨_, _, hbegin⟩]
  simp only [Bool.not_true, Bool.false_eq_true, if_false, hwords]

/-- The loop stores the sectors that there are, one behind the other. -/
theorem ataReadSectors_eq (hm : m.Sound) (left : Nat) {sector lba bound : Nat} {d : AtaDrive}
    {out : Bytes} (hmedium : d.medium = m) (hbound : bound < 99999)
    (hawaits : d.Awaits (.sector lba left) bound)
    (hroom : (sector + left + 1) * 512 ≤ out.length) : ∃ bus out',
      ataReadSectors (left + 1) sector (.drive d) out =
        some (decide (lba + left < m.sectors.length), bus, out') ∧
      store out (sector * 512) (((m.sectors.drop lba).take (left + 1)).flatMap wordBytes) =
        some out' ∧ bus.Ready m := by
  induction left using Nat.strong_induction_on generalizing sector lba bound d out with
  | _ left ih =>
  cases hsector : m.sectors[lba]? with
  | none =>
    have hend := List.getElem?_eq_none_iff.mp hsector
    have hdrop : m.sectors.drop lba = [] := List.drop_eq_nil_of_le hend
    have hfit : sector * 512 ≤ out.length :=
      (Nat.mul_le_mul_right 512 (by omega)).trans hroom
    refine ⟨.drive (d.begun (.sector lba left)), out, ?_, ?_, _, rfl, hmedium, Or.inr ?_⟩
    · rw [ataReadSectors, ataReadSector_none hbound hawaits (by rw [hmedium, hsector]),
        decide_eq_false (by omega)]
      rfl
    · rw [hdrop, List.take_nil, List.flatMap_nil, store_nil hfit]
    · dsimp only [AtaDrive.begun]
      rw [hmedium, AtaMedium.begin, hsector]
  | some words =>
    obtain ⟨hlt, rfl⟩ := List.getElem?_eq_some_iff.mp hsector
    have hlength := hm.sector _ (List.getElem_mem hlt)
    have hbytes : (wordBytes m.sectors[lba]).length = 512 := by
      rw [length_wordBytes, hlength]
    obtain ⟨out₁, hstore⟩ : ∃ out₁,
        store out (sector * 512) (wordBytes m.sectors[lba]) = some out₁ := by
      rw [store, if_pos (by rw [hbytes]; omega)]
      exact ⟨_, rfl⟩
    rw [ataReadSectors, ataReadSector_some hbound hawaits (by rw [hmedium, hsector]) hlength,
      hstore, Option.map_some, Option.bind_some]
    simp only [Bool.not_true, Bool.false_eq_true, if_false]
    rw [List.drop_eq_getElem_cons hlt, List.take_succ_cons, List.flatMap_cons]
    have hnext : ((sector + 1) * 512) = sector * 512 + (wordBytes m.sectors[lba]).length := by
      rw [hbytes]
      ring
    cases left with
    | zero =>
      refine ⟨.drive { d with phase := .idle }, out₁, ?_, ?_, _, rfl, hmedium, Or.inl rfl⟩
      · rw [ataReadSectors, decide_eq_true (by omega)]
        rfl
      · rw [List.take_zero, List.flatMap_nil, List.append_nil, hstore]
    | succ left =>
      obtain ⟨bound', hbound', -, d₁, hdelay, hmedium', hawaits'⟩ :=
        (d.begun (.sector lba (left + 1))).start_awaits hm hmedium (.sector (lba + 1) left)
      have hroom' : (sector + 1 + left + 1) * 512 ≤ out₁.length := by
        rw [length_store hstore]
        exact (Nat.mul_le_mul_right 512 (by omega)).trans hroom
      obtain ⟨bus, out₂, hrun, hstored, hready⟩ :=
        ih left (Nat.lt_succ_self left) hmedium' hbound' hawaits' hroom'
      refine ⟨bus, out₂, ?_, ?_, hready⟩
      · rw [if_neg (Nat.succ_ne_zero left), Nat.add_sub_cancel, AtaDrive.behind, hdelay, hrun,
          Nat.add_right_comm lba 1 left, Nat.add_assoc]
      · rw [← store_store hstore, ← hnext, hstored]

end Reads

/-! ## Commands -/

section Commands

variable {m : AtaMedium} {d : AtaDrive}

theorem AtaDrive.Free.tick (h : d.Free) : d.tick = d := by
  obtain ⟨medium, count, low, mid, high, select, phase, started⟩ := d
  rcases h with h | h
  · obtain rfl : phase = .idle := h
    rfl
  · obtain rfl : phase = .error := h
    rfl

theorem AtaDrive.Free.delay (h : d.Free) : ataDelay (.drive d) = .drive d := by
  rw [ataDelay_drive, h.tick, h.tick, h.tick, h.tick]

theorem AtaDrive.Free.waitNotBusy (h : d.Free) :
    ataWaitNotBusy (.drive d) = (true, .drive d) := by
  have hverdict : ataNotBusy (AtaBus.inb 0x1F7 (.drive d)).1 = some () := by
    rcases h with hphase | hphase
    · show ataNotBusy d.phase.status = some ()
      rw [hphase]
      decide
    · show ataNotBusy d.phase.status = some ()
      rw [hphase]
      decide
  have hnext : (AtaBus.inb 0x1F7 (.drive d)).2 = .drive d := congrArg AtaBus.drive h.tick
  have hnow := Decides.now hverdict
  rw [hnext] at hnow
  rw [ataWaitNotBusy, hnow.poll_eq (by decide)]
  rfl

theorem AtaDrive.Free.outb (h : d.Free) (port : UInt16) (value : UInt8) :
    (AtaBus.drive d).outb port value = .drive (d.latch port value) := by
  have hwrite : d.writeRegister port value = d.latch port value := by
    rcases h with hphase | hphase
    · rw [writeRegister, hphase]
    · rw [writeRegister, hphase]
  rw [← hwrite]
  rfl

theorem AtaDrive.Free.latch (h : d.Free) {port : UInt16} (hport : port ≠ 0x1F7) (value : UInt8) :
    (d.latch port value).Free := by
  rw [AtaDrive.latch, if_neg hport]
  split_ifs <;> exact h

/-- The drive with the registers of a command. -/
def AtaDrive.loaded (d : AtaDrive) (select count low mid high : UInt8) : AtaDrive :=
  { d with select := select, count := count, low := low, mid := mid, high := high }

/-- The registers are written one after another, and the command last. -/
theorem AtaDrive.Free.write_command (h : d.Free) (select count low mid high code : UInt8) :
    ((((((AtaBus.drive d).outb 0x1F6 select).outb 0x1F2 count).outb 0x1F3 low).outb 0x1F4 mid).outb
        0x1F5 high).outb 0x1F7 code = .drive ((d.loaded select count low mid high).command code) := by
  have hselect : (d.latch 0x1F6 select).Free := h.latch (by decide) select
  have hcount := hselect.latch (show (0x1F2 : UInt16) ≠ 0x1F7 by decide) count
  have hlow := hcount.latch (show (0x1F3 : UInt16) ≠ 0x1F7 by decide) low
  have hmid := hlow.latch (show (0x1F4 : UInt16) ≠ 0x1F7 by decide) mid
  have hhigh := hmid.latch (show (0x1F5 : UInt16) ≠ 0x1F7 by decide) high
  rw [h.outb, hselect.outb, hcount.outb, hlow.outb, hmid.outb, hhigh.outb]
  rfl

theorem selectByte_lba (x : UInt8) : ((0xE0 : UInt8) ||| x) &&& 0x0F = x &&& 0x0F := by
  apply UInt8.toBitVec_inj.mp
  ext i hi
  simp
  interval_cases i <;> simp

/-- Sectors are addressed by their numbers. -/
theorem selectByte_mode (x : UInt8) : ((0xE0 : UInt8) ||| x) &&& 0x40 ≠ 0 := by
  intro h
  have hbit := congrArg (fun value : UInt8 => value.toBitVec[6]) h
  simp at hbit

theorem byteAt_toNat (x k : UInt32) (hk : k.toNat < 32) :
    ((x >>> k) &&& 0xFF).toUInt8.toNat = x.toNat / 2 ^ k.toNat % 256 := by
  have hbyte : ∀ y : UInt32, (y &&& 0xFF).toUInt8 = y.toUInt8 := by
    intro y
    apply UInt8.toBitVec_inj.mp
    ext i hi
    simp
    interval_cases i <;> simp
  rw [hbyte, UInt32.toNat_toUInt8, UInt32.toNat_shiftRight, Nat.mod_eq_of_lt hk,
    Nat.shiftRight_eq_div_pow]

theorem topBits_toNat (x : UInt32) :
    (((x >>> 24) &&& 0x0F).toUInt8 &&& (0x0F : UInt8)).toNat = x.toNat / 2 ^ 24 % 16 := by
  have hbits : ((x >>> 24) &&& 0x0F).toUInt8 &&& (0x0F : UInt8) = (x >>> 24).toUInt8 &&& 0x0F := by
    apply UInt8.toBitVec_inj.mp
    ext i hi
    simp
  have hmod := Nat.and_two_pow_sub_one_eq_mod (x.toNat >>> 24 % 2 ^ 8) 4
  rw [hbits, UInt8.toNat_and, UInt32.toNat_toUInt8, UInt32.toNat_shiftRight]
  simp at hmod ⊢
  rw [hmod, Nat.shiftRight_eq_div_pow]

/-- The drive finds the number of the sector in its registers. -/
theorem loaded_lba (d : AtaDrive) (count : UInt8) {lba : UInt32} (h : lba.toNat < 2 ^ 28) :
    (d.loaded ((0xE0 : UInt8) ||| ((lba >>> 24) &&& 0x0F).toUInt8) count (lba &&& 0xFF).toUInt8
      ((lba >>> 8) &&& 0xFF).toUInt8 ((lba >>> 16) &&& 0xFF).toUInt8).lba = lba.toNat := by
  have hlow := byteAt_toNat lba 0 (by decide)
  have hmid := byteAt_toNat lba 8 (by decide)
  have hhigh := byteAt_toNat lba 16 (by decide)
  have hzero : lba >>> 0 = lba := by
    apply UInt32.toNat_inj.mp
    rw [UInt32.toNat_shiftRight]
    rfl
  rw [hzero] at hlow
  dsimp only [AtaDrive.lba, AtaDrive.loaded]
  rw [selectByte_lba, topBits_toNat, hlow, hmid, hhigh]
  simp only [UInt32.toNat_ofNat, Nat.reduceMod, Nat.reducePow, Nat.div_one]
  omega

/-- The sectors that a call asks for, as far as there are any. -/
def AtaMedium.wanted (m : AtaMedium) (lba : UInt32) (sectorCount : UInt8) : List (List UInt16) :=
  (m.sectors.drop lba.toNat).take sectorCount.toNat

/-- `ata_read28` stores the sectors that it is asked for and tells whether they were all there. -/
theorem ataRead28_eq (hm : m.Sound) {bus : AtaBus} (hready : bus.Ready m) (lba : UInt32)
    (sectorCount : UInt8) {out : Bytes} (hroom : sectorCount.toNat * 512 ≤ out.length) :
    ∃ ok bus' out', ataRead28 bus lba sectorCount out = some (ok, bus', out') ∧
      (ok = true ↔ sectorCount ≠ 0 ∧ lba.toNat + sectorCount.toNat ≤ m.sectors.length) ∧
      store out 0 ((m.wanted lba sectorCount).flatMap wordBytes) = some out' ∧ bus'.Ready m := by
  have hlimit : lba > 0x0FFFFFFF ↔ 2 ^ 28 ≤ lba.toNat := by
    rw [gt_iff_lt, UInt32.lt_iff_toNat_lt]
    simp only [UInt32.toNat_ofNat, Nat.reduceMod, Nat.reducePow]
    omega
  have hcount : sectorCount = 0 ↔ sectorCount.toNat = 0 := by
    rw [← UInt8.toNat_inj]
    rfl
  by_cases hrefused : sectorCount = 0 ∨ lba > 0x0FFFFFFF
  · refine ⟨false, bus, out, if_pos hrefused, ?_, ?_, hready⟩
    · simp only [Bool.false_eq_true, false_iff, not_and, not_le]
      intro hne
      have hfar := hlimit.mp (hrefused.resolve_left hne)
      have hpos : sectorCount.toNat ≠ 0 := fun hzero => hne (hcount.mpr hzero)
      have hcapacity := hm.capacity
      omega
    · have hnone : m.wanted lba sectorCount = [] := by
        rw [AtaMedium.wanted]
        rcases hrefused with hzero | hfar
        · rw [hcount.mp hzero, List.take_zero]
        · rw [List.drop_eq_nil_of_le (hm.capacity.trans (hlimit.mp hfar)), List.take_nil]
      rw [hnone, List.flatMap_nil, store_nil (Nat.zero_le _)]
  · obtain ⟨d, rfl, hmedium, hfree⟩ := hready
    obtain ⟨hne, hnear⟩ := not_or.mp hrefused
    have hlba : lba.toNat < 2 ^ 28 := not_le.mp fun hfar => hnear (hlimit.mpr hfar)
    obtain ⟨left, hleft⟩ := Nat.exists_eq_succ_of_ne_zero fun hzero => hne (hcount.mpr hzero)
    have hcommand := hfree.write_command ((0xE0 : UInt8) ||| ((lba >>> 24) &&& 0x0F).toUInt8)
      sectorCount (lba &&& 0xFF).toUInt8 ((lba >>> 8) &&& 0xFF).toUInt8
      ((lba >>> 16) &&& 0xFF).toUInt8 0x20
    have hloaded := loaded_lba d sectorCount hlba
    generalize hregisters : d.loaded ((0xE0 : UInt8) ||| ((lba >>> 24) &&& 0x0F).toUInt8)
      sectorCount (lba &&& 0xFF).toUInt8 ((lba >>> 8) &&& 0xFF).toUInt8
      ((lba >>> 16) &&& 0xFF).toUInt8 = registers at hcommand hloaded
    have hselect : registers.select &&& 0x40 ≠ 0 := by
      rw [← hregisters]
      exact selectByte_mode _
    have hcountReg : registers.count = sectorCount := by
      rw [← hregisters]
      rfl
    have hmedium' : registers.medium = m := by
      rw [← hregisters]
      exact hmedium
    rw [AtaDrive.command, if_pos ⟨rfl, hselect⟩, hloaded, hcountReg, if_neg hne, hleft,
      Nat.succ_sub_one] at hcommand
    obtain ⟨bound, hbound, hawaits, -⟩ :=
      registers.start_awaits hm hmedium' (.sector lba.toNat left)
    have hroom' : (0 + left + 1) * 512 ≤ out.length := by
      rw [Nat.zero_add]
      rwa [hleft] at hroom
    obtain ⟨bus, out', hrun, hstore, hready⟩ :=
      ataReadSectors_eq hm left (d := registers.start (.sector lba.toNat left)) hmedium' hbound
        hawaits hroom'
    refine ⟨decide (lba.toNat + left < m.sectors.length), bus, out', ?_, ?_, ?_, hready⟩
    · rw [ataRead28, if_neg hrefused, hfree.waitNotBusy]
      simp only [Bool.not_true, Bool.false_eq_true, if_false]
      rw [hcommand, hleft, hrun]
    · rw [decide_eq_true_iff, hleft]
      exact ⟨fun hlt => ⟨hne, hlt⟩, fun h => h.2⟩
    · rw [AtaMedium.wanted, hleft]
      rwa [Nat.zero_mul] at hstore

/-- The name is taken from the words two characters at a time. -/
theorem flatMap_pairs (n : Nat) {name : Bytes} (h : name.length = 2 * n) :
    ((List.range n).flatMap fun i => [name.getD (2 * i) 0, name.getD (2 * i + 1) 0]) = name := by
  induction n generalizing name with
  | zero =>
    rw [List.length_eq_zero_iff.mp h]
    rfl
  | succ n ih =>
    rcases name with - | ⟨first, - | ⟨second, rest⟩⟩
    · simp at h
    · simp only [List.length_cons, List.length_nil] at h
      omega
    have hrest : rest.length = 2 * n := by
      simp only [List.length_cons] at h
      omega
    rw [List.range_succ_eq_map, List.flatMap_cons, List.flatMap_map]
    have hshift : ((List.range n).flatMap fun i => [(first :: second :: rest).getD (2 * (i + 1)) 0,
        (first :: second :: rest).getD (2 * (i + 1) + 1) 0]) = rest := ih hrest
    exact congrArg (fun name => first :: second :: name) hshift

theorem AtaMedium.identity_getD (m : AtaMedium) {i : Nat} (h : i < 256) :
    m.identity.getD i 0 = m.identityWord i := by
  rw [identity, List.getD_eq_getElem?_getD, List.getElem?_map, List.getElem?_range h]
  rfl

/-- The identification gives the name and the number of sectors back. -/
theorem ataIdentity_identity (hm : m.Sound) :
    ataIdentity m.identity = ⟨m.model ++ [0], UInt32.ofNat m.sectors.length⟩ := by
  have hpair : ∀ a b : UInt8, (((a.toUInt16 <<< 8) ||| b.toUInt16) >>> 8).toUInt8 = a ∧
      (((a.toUInt16 <<< 8) ||| b.toUInt16) &&& 0xFF).toUInt8 = b := by
    intro a b
    constructor
    · apply UInt8.toBitVec_inj.mp
      ext i hi
      simp
      interval_cases i <;> simp
    · apply UInt8.toBitVec_inj.mp
      ext i hi
      simp
      interval_cases i <;> simp
  have hname : ((List.range 20).flatMap fun i => [(m.identity.getD (27 + i) 0 >>> 8).toUInt8,
      (m.identity.getD (27 + i) 0 &&& 0xFF).toUInt8]) = m.model := by
    refine Eq.trans (List.flatMap_congr fun i hi => ?_) (flatMap_pairs 20 hm.name)
    have hlt := List.mem_range.mp hi
    rw [m.identity_getD (by omega), AtaMedium.identityWord, if_pos ⟨by omega, by omega⟩,
      Nat.add_sub_cancel_left]
    obtain ⟨hfirst, hsecond⟩ := hpair (m.model.getD (2 * i) 0) (m.model.getD (2 * i + 1) 0)
    rw [hfirst, hsecond]
  have hcount : (m.identity.getD 61 0).toUInt32 <<< 16 ||| (m.identity.getD 60 0).toUInt32 =
      UInt32.ofNat m.sectors.length := by
    have hhigh : m.identityWord 61 = (UInt32.ofNat m.sectors.length >>> 16).toUInt16 := by
      rw [AtaMedium.identityWord, if_neg (by decide), if_neg (by decide), if_pos rfl]
    have hlow : m.identityWord 60 = (UInt32.ofNat m.sectors.length).toUInt16 := by
      rw [AtaMedium.identityWord, if_neg (by decide), if_pos rfl]
    rw [m.identity_getD (by decide), m.identity_getD (by decide), hhigh, hlow]
    generalize UInt32.ofNat m.sectors.length = count
    apply UInt32.toBitVec_inj.mp
    ext i hi
    simp [-UInt32.toUInt32_toUInt16]
    interval_cases i <;> simp
  rw [ataIdentity, hname, hcount]

theorem AtaDrive.inb_drive (d : AtaDrive) (port : UInt16) :
    AtaBus.inb port (.drive d) = (d.readRegister port, .drive d.tick) := rfl

theorem goodAnswer_good {α : Type} {good : α → Bool} {answer : α × AtaBus}
    (next : AtaBus → Option AtaIdentity × AtaBus) (h : good answer.1 = true) :
    goodAnswer good answer next = next answer.2 := if_pos h

theorem goodAnswer_bad {α : Type} {good : α → Bool} {answer : α × AtaBus}
    (next : AtaBus → Option AtaIdentity × AtaBus) (h : good answer.1 = false) :
    goodAnswer good answer next = (none, answer.2) := if_neg (by rw [h]; exact Bool.false_ne_true)

theorem ataIdentifyPrimary_ready (h : d.Free) : ataIdentifyPrimary (.drive d) =
    ataIdentifyAnswer (.drive ((d.loaded 0xA0 0 0 0 0).command 0xEC)) := by
  have hselect : (d.latch 0x1F6 0xA0).Free := h.latch (by decide) 0xA0
  have hdelay : ataDelay ((AtaBus.drive d).outb 0x1F6 0xA0) = (AtaBus.drive d).outb 0x1F6 0xA0 := by
    rw [h.outb, hselect.delay]
  rw [← h.write_command, ataIdentifyPrimary, h.waitNotBusy, goodAnswer_good _ rfl]
  dsimp only
  rw [hdelay]

/-- A packet device shows its signature. -/
theorem ataIdentifyAnswer_packet (h : d.Free) (hmid : d.mid ≠ 0) :
    ataIdentifyAnswer (.drive d) = (none, .drive d) := by
  have hstatus : (d.readRegister 0x1F7 != 0) = true := by
    rcases h with hphase | hphase
    · show (d.phase.status != 0) = true
      rw [hphase]
      decide
    · show (d.phase.status != 0) = true
      rw [hphase]
      decide
  have hregister : (d.readRegister 0x1F4 == 0) = false := beq_eq_false_iff_ne.mpr hmid
  rw [ataIdentifyAnswer, d.inb_drive, goodAnswer_good _ hstatus, h.tick, h.waitNotBusy,
    goodAnswer_good _ rfl, d.inb_drive, goodAnswer_bad _ hregister, h.tick]

/-- A disk transfers its identification. -/
theorem ataIdentifyAnswer_disk (hm : m.Sound) (hmedium : d.medium = m) (hmid : d.mid = 0)
    (hhigh : d.high = 0) : ataIdentifyAnswer (.drive (d.start .identify)) =
      (some ⟨m.model ++ [0], UInt32.ofNat m.sectors.length⟩,
        .drive { d with phase := .idle, started := d.started + 1 }) := by
  obtain ⟨bound, hbound, hawaits, -⟩ := d.start_awaits hm hmedium .identify
  have hstatus : ((d.start .identify).readRegister 0x1F7 != 0) = true := by
    show ((0x80 : UInt8) != 0) = true
    decide
  have hbegun : (d.start .identify).tick.begun .identify = (d.start .identify).begun .identify := rfl
  generalize hd₁ : (d.start .identify).begun .identify = d₁ at hbegun
  have htick : d₁.tick = d₁ := by
    rw [← hd₁]
    rfl
  have hphase : d₁.phase = .transfer m.identity none := by
    rw [← hd₁, ← hmedium]
    rfl
  have hawaits₁ : d₁.Awaits .identify 0 := by
    left
    rw [hphase, ← hd₁, ← hmedium]
    rfl
  have hmid₁ : (d₁.readRegister 0x1F4 == 0) = true := by
    rw [← hd₁]
    exact beq_iff_eq.mpr hmid
  have hhigh₁ : (d₁.readRegister 0x1F5 == 0) = true := by
    rw [← hd₁]
    exact beq_iff_eq.mpr hhigh
  obtain ⟨ok, hok, hdrq⟩ := hawaits₁.waitDrq (by decide)
  have hbegun₁ : d₁.begun .identify = d₁ := by
    rw [← hd₁]
    rfl
  have htrue : ok = true := by
    rw [hok, ← hd₁]
    exact ⟨_, _, rfl⟩
  have hblock : (AtaBus.drive d₁).block = (m.identity, .drive (d₁.behind none)) := by
    have hlength : m.identity.length = 256 := by
      rw [AtaMedium.identity, List.length_map, List.length_range]
    have hne : m.identity ≠ [] := by
      intro hnil
      rw [hnil] at hlength
      cases hlength
    rw [AtaBus.block, ← hlength, d₁.insw_transfer m.identity none hne hphase]
  rw [ataIdentifyAnswer, AtaDrive.inb_drive, goodAnswer_good _ hstatus,
    hawaits.tick.waitNotBusy hbound, hbegun, goodAnswer_good _ rfl, AtaDrive.inb_drive,
    goodAnswer_good _ hmid₁, htick, AtaDrive.inb_drive, goodAnswer_good _ hhigh₁, htick, hdrq, htrue,
    hbegun₁, goodAnswer_good _ rfl, hblock, ataIdentity_identity hm, ← hd₁]
  rfl

/-- `ata_identify_primary` finds a disk and no packet device. -/
theorem ataIdentifyPrimary_eq (hm : m.Sound) {bus : AtaBus} (hready : bus.Ready m) :
    (ataIdentifyPrimary bus).1 = (if m.packet then none
      else some ⟨m.model ++ [0], UInt32.ofNat m.sectors.length⟩) ∧
    (ataIdentifyPrimary bus).2.Ready m := by
  obtain ⟨d, rfl, hmedium, hfree⟩ := hready
  rw [ataIdentifyPrimary_ready hfree]
  have hcommand : (d.loaded 0xA0 0 0 0 0).command 0xEC = if m.packet then
      { d.loaded 0xA0 0 0 0 0 with mid := 0x14, high := 0xEB, phase := .error }
      else (d.loaded 0xA0 0 0 0 0).start .identify := by
    rw [AtaDrive.command, if_neg (fun hread => absurd hread.1 (by decide)), if_pos rfl, ← hmedium]
    rfl
  rw [hcommand]
  cases hpacket : m.packet with
  | true =>
    simp only [if_true]
    rw [ataIdentifyAnswer_packet (Or.inr rfl) (show (0x14 : UInt8) ≠ 0 by decide)]
    exact ⟨rfl, _, rfl, hmedium, Or.inr rfl⟩
  | false =>
    simp only [Bool.false_eq_true, if_false]
    rw [ataIdentifyAnswer_disk hm (show (d.loaded 0xA0 0 0 0 0).medium = m from hmedium) rfl rfl]
    exact ⟨rfl, _, rfl, hmedium, Or.inl rfl⟩

/-- Without a drive no identification is taken, whatever the ports read. -/
theorem ataIdentifyPrimary_empty (floating : UInt8) :
    (ataIdentifyPrimary (.empty floating)).1 = none := by
  have hread : ∀ port, AtaBus.inb port (.empty floating) = (floating, .empty floating) :=
    fun _ => rfl
  by_cases hidle : floating &&& 0x80 = 0
  · have hwait : ataWaitNotBusy (.empty floating) = (true, .empty floating) := by
      have hnow : Decides (AtaBus.inb 0x1F7) ataNotBusy 0 (.empty floating) ()
          (.empty floating) := .now (if_pos hidle)
      rw [ataWaitNotBusy, hnow.poll_eq (by decide)]
      rfl
    have hcommand : ataIdentifyPrimary (.empty floating) =
        ataIdentifyAnswer (.empty floating) := by
      rw [ataIdentifyPrimary, hwait, goodAnswer_good _ rfl]
      rfl
    rw [hcommand, ataIdentifyAnswer, hread]
    cases hzero : floating != 0 with
    | false => rw [goodAnswer_bad _ hzero]
    | true =>
      have hmid : (floating == 0) = false := by
        rw [beq_eq_false_iff_ne]
        exact bne_iff_ne.mp hzero
      rw [goodAnswer_good _ hzero, hwait, goodAnswer_good _ rfl, hread, goodAnswer_bad _ hmid]
  · have hsilent : (poll (AtaBus.inb 0x1F7) ataNotBusy 100000 (.empty floating)).1 = none := by
      apply poll_silent (I := fun bus => bus = .empty floating)
      · intro bus hbus
        rw [hbus]
        rfl
      · intro bus hbus
        rw [hbus]
        exact if_neg hidle
      · rfl
    have hwait : (ataWaitNotBusy (.empty floating)).1 = false := by
      rw [ataWaitNotBusy]
      dsimp only
      rw [hsilent]
      rfl
    rw [ataIdentifyPrimary, goodAnswer_bad _ hwait]

end Commands

/-! ## Runs -/

inductive AtaCall where
  | identify
  | read (lba : UInt32) (sectorCount : UInt8) (buffer : Bytes)

inductive AtaAnswer where
  | identity (found : Option AtaIdentity)
  | sectors (ok : Bool) (buffer : Bytes)

/-- A call of the driver; there is no answer when it writes outside its buffer. -/
def ataCall (bus : AtaBus) : AtaCall → Option (AtaAnswer × AtaBus)
  | .identify => some (.identity (ataIdentifyPrimary bus).1, (ataIdentifyPrimary bus).2)
  | .read lba sectorCount buffer =>
      (ataRead28 bus lba sectorCount buffer).map fun answer =>
        (.sectors answer.1 answer.2.2, answer.2.1)

def ataCalls (bus : AtaBus) : List AtaCall → Option (List AtaAnswer × AtaBus)
  | [] => some ([], bus)
  | call :: calls => (ataCall bus call).bind fun answer =>
      (ataCalls answer.2 calls).map fun rest => (answer.1 :: rest.1, rest.2)

/-- The buffer has room for the sectors. -/
def AtaCall.Fits : AtaCall → Prop
  | .identify => True
  | .read _ sectorCount buffer => sectorCount.toNat * 512 ≤ buffer.length

/-- The right answer: the name and size of a disk, or the sectors that there are. -/
def AtaMedium.Answers (m : AtaMedium) : AtaCall → AtaAnswer → Prop
  | .identify, .identity found => found = if m.packet then none
      else some ⟨m.model ++ [0], UInt32.ofNat m.sectors.length⟩
  | .read lba sectorCount buffer, .sectors ok buffer' =>
      (ok = true ↔ sectorCount ≠ 0 ∧ lba.toNat + sectorCount.toNat ≤ m.sectors.length) ∧
        store buffer 0 ((m.wanted lba sectorCount).flatMap wordBytes) = some buffer'
  | _, _ => False

section Runs

variable {m : AtaMedium}

theorem ataCall_answers (hm : m.Sound) {bus : AtaBus} (hready : bus.Ready m) {call : AtaCall}
    (hfits : call.Fits) : ∃ answer bus', ataCall bus call = some (answer, bus') ∧
      m.Answers call answer ∧ bus'.Ready m := by
  cases call with
  | identify =>
    obtain ⟨hfound, hready'⟩ := ataIdentifyPrimary_eq hm hready
    exact ⟨_, _, rfl, hfound, hready'⟩
  | read lba sectorCount buffer =>
    obtain ⟨ok, bus', buffer', hread, hok, hstore, hready'⟩ :=
      ataRead28_eq hm hready lba sectorCount hfits
    refine ⟨.sectors ok buffer', bus', ?_, ⟨hok, hstore⟩, hready'⟩
    rw [ataCall, hread]
    rfl

/-- Any calls on a drive get the right answers, the bytes of each buffer from the sectors asked for
in their order, and no call writes outside its buffer. Without a drive none is found. -/
theorem ata_run (hm : m.Sound) {bus : AtaBus} (hready : bus.Ready m) (calls : List AtaCall)
    (hfits : ∀ call ∈ calls, call.Fits) :
    (∃ answers bus', ataCalls bus calls = some (answers, bus') ∧
      List.Forall₂ m.Answers calls answers ∧ bus'.Ready m) ∧
    ∀ floating, (ataIdentifyPrimary (.empty floating)).1 = none := by
  refine ⟨?_, ataIdentifyPrimary_empty⟩
  induction calls generalizing bus with
  | nil => exact ⟨[], bus, rfl, .nil, hready⟩
  | cons call calls ih =>
    obtain ⟨answer, bus₁, hcall, hanswer, hready₁⟩ :=
      ataCall_answers hm hready (hfits call List.mem_cons_self)
    obtain ⟨answers, bus₂, hcalls, hanswers, hready₂⟩ :=
      ih hready₁ fun call hcall => hfits call (List.mem_cons_of_mem _ hcall)
    refine ⟨answer :: answers, bus₂, ?_, .cons hanswer hanswers, hready₂⟩
    rw [ataCalls, hcall, Option.bind_some]
    dsimp only
    rw [hcalls]
    rfl

/-- A disk of one sector. -/
def smallMedium : AtaMedium :=
  ⟨[List.replicate 256 7], List.replicate 40 32, fun _ => 0, false, fun n => n % 3⟩

theorem smallMedium_sound : smallMedium.Sound := by
  constructor
  · intro words hwords
    obtain rfl := List.mem_singleton.mp hwords
    exact List.length_replicate
  · decide
  · exact List.length_replicate
  · intro n
    have hlt := Nat.mod_lt n (show 3 > 0 by decide)
    show n % 3 < 99999
    omega

/-- It is identified and its sector read. -/
theorem ata_run_small :
    (∃ answers bus', ataCalls (.drive ⟨smallMedium, 0, 0, 0, 0, 0, .idle, 0⟩)
        [.identify, .read 0 1 (List.replicate 512 0)] = some (answers, bus') ∧
      List.Forall₂ smallMedium.Answers [.identify, .read 0 1 (List.replicate 512 0)] answers ∧
      bus'.Ready smallMedium) ∧
    ∀ floating, (ataIdentifyPrimary (.empty floating)).1 = none :=
  ata_run smallMedium_sound ⟨_, rfl, rfl, Or.inl rfl⟩ _ (by
    intro call hcall
    rcases List.mem_cons.mp hcall with rfl | hcall
    · exact trivial
    · obtain rfl := List.mem_singleton.mp hcall
      exact (List.length_replicate (n := 512)).ge)

end Runs

end SnsxOS.X86
