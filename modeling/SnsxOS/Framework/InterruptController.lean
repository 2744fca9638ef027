import Mathlib.Data.Finset.Basic
import Mathlib.Data.Finset.Fold
import Mathlib.Data.Fintype.Basic
import Mathlib.Tactic

/-!
# A pair of 8259A interrupt controllers

A controller has eight lines. A request waits until the processor acknowledges it, and is in service
from then on until the end of interrupt is written; only a line ahead of all in service is signalled
to the processor. The second controller is wired to a line of the first one, so that its interrupts
are in service in both.
-/

namespace SnsxOS.Framework

/-- The word of the initialization that the data port waits for. -/
inductive InitWord where
  | icw2
  | icw3
  | icw4
  | ready
  deriving DecidableEq

structure Pic where
  requested : Finset (Fin 8)
  inService : Finset (Fin 8)
  masked : Finset (Fin 8)
  /-- the vector of the first line -/
  base : UInt8
  step : InitWord
  deriving DecidableEq

namespace Pic

/-- The first line of a set, which has the highest priority. -/
def first (lines : Finset (Fin 8)) : Option (Fin 8) := (List.finRange 8).find? (· ∈ lines)

/-- The request that is signalled. -/
def pending (p : Pic) : Option (Fin 8) :=
  first (p.requested.filter fun line => line ∉ p.masked ∧ ∀ other ∈ p.inService, line < other)

def request (p : Pic) (line : Fin 8) : Pic := { p with requested := insert line p.requested }

/-- A line that the processor has acknowledged. -/
def serve (p : Pic) (line : Fin 8) : Pic :=
  { p with requested := p.requested.erase line, inService := insert line p.inService }

/-- The end of the interrupt in service with the highest priority. -/
def endOfInterrupt (p : Pic) : Pic :=
  match first p.inService with
  | none => p
  | some line => { p with inService := p.inService.erase line }

/-- The command port takes the first initialization word and the end of interrupt. -/
def writeCommand (p : Pic) (value : UInt8) : Pic :=
  if value &&& 0x10 ≠ 0 then
    { p with requested := ∅, inService := ∅, masked := ∅, step := .icw2 }
  else if value = 0x20 then p.endOfInterrupt
  else p

/-- The data port takes the other initialization words and then masks. -/
def writeData (p : Pic) (value : UInt8) : Pic :=
  match p.step with
  | .icw2 => { p with base := value &&& 0xF8, step := .icw3 }
  | .icw3 => { p with step := .icw4 }
  | .icw4 => { p with step := .ready }
  | .ready => { p with masked := Finset.univ.filter fun line => value.toNat.testBit line }

theorem first_eq_some {lines : Finset (Fin 8)} {line : Fin 8} :
    first lines = some line ↔ line ∈ lines ∧ ∀ other ∈ lines, line ≤ other := by
  revert lines line
  decide +kernel

theorem first_eq_none {lines : Finset (Fin 8)} : first lines = none ↔ lines = ∅ := by
  rw [first, List.find?_eq_none, Finset.eq_empty_iff_forall_notMem]
  simp

@[simp] theorem first_singleton (line : Fin 8) : first {line} = some line := by
  simp [first_eq_some]

theorem endOfInterrupt_of_inService {p : Pic} {line : Fin 8} (h : p.inService = {line}) :
    p.endOfInterrupt = { p with inService := ∅ } := by
  rw [endOfInterrupt, h, first_singleton]
  simp

end Pic

/-- The second controller is wired to line 2 of the first one. -/
def cascadeLine : Fin 8 := ⟨2, by decide⟩

structure PicPair where
  master : Pic
  slave : Pic
  deriving DecidableEq

namespace PicPair

/-- The first controller with the signal of the second one on its line. -/
def wired (p : PicPair) : Pic :=
  if p.slave.pending.isSome then p.master.request cascadeLine else p.master

/-- A device asks for an interrupt; lines 8 to 15 are those of the second controller. -/
def request (p : PicPair) (line : Fin 16) : PicPair :=
  if h : line.val < 8 then { p with master := p.master.request ⟨line, h⟩ }
  else { p with slave := p.slave.request ⟨line - 8, by omega⟩ }

def Requested (p : PicPair) (line : Fin 16) : Prop :=
  if h : line.val < 8 then ⟨line, h⟩ ∈ p.master.requested
  else (⟨line - 8, by omega⟩ : Fin 8) ∈ p.slave.requested

instance instDecidableRequested (p : PicPair) (line : Fin 16) : Decidable (p.Requested line) :=
  if h : line.val < 8 then
    decidable_of_iff (⟨line, h⟩ ∈ p.master.requested) (by rw [Requested, dif_pos h])
  else
    decidable_of_iff ((⟨line - 8, by omega⟩ : Fin 8) ∈ p.slave.requested)
      (by rw [Requested, dif_neg h])

/-- The processor acknowledges what is signalled to it and is given its vector. -/
def acknowledge (p : PicPair) : Option (UInt8 × PicPair) :=
  p.wired.pending.bind fun line =>
    if line = cascadeLine then
      p.slave.pending.map fun below =>
        (p.slave.base + UInt8.ofNat below.val, ⟨p.master.serve line, p.slave.serve below⟩)
    else some (p.master.base + UInt8.ofNat line.val, { p with master := p.master.serve line })

/-! ## One interrupt at a time -/

/-- The place of a line in the order of the priorities: those of the second controller come where
it is wired to the first one. -/
def rank (line : Fin 16) : Nat :=
  if line.val < 2 then line else if line.val < 8 then line + 8 else line - 6

def vector (p : PicPair) (line : Fin 16) : UInt8 :=
  if line.val < 8 then p.master.base + UInt8.ofNat line.val
  else p.slave.base + UInt8.ofNat (line.val - 8)

def serve (p : PicPair) (line : Fin 16) : PicPair :=
  if h : line.val < 8 then { p with master := p.master.serve ⟨line, h⟩ }
  else ⟨p.master.serve cascadeLine, p.slave.serve ⟨line - 8, by omega⟩⟩

/-- The ends of interrupt that a line calls for, that of the second controller first. -/
def finish (p : PicPair) (line : Fin 16) : PicPair :=
  let p := if 8 ≤ line.val then { p with slave := p.slave.endOfInterrupt } else p
  { p with master := p.master.endOfInterrupt }

/-- Without the request of a line. -/
def clear (p : PicPair) (line : Fin 16) : PicPair :=
  if h : line.val < 8 then
    { p with master := { p.master with requested := p.master.requested.erase ⟨line, h⟩ } }
  else
    { p with
      slave := { p.slave with requested := p.slave.requested.erase ⟨line - 8, by omega⟩ } }

/-- No line is masked and nothing is in service. -/
structure Idle (p : PicPair) : Prop where
  master_masked : p.master.masked = ∅
  slave_masked : p.slave.masked = ∅
  master_inService : p.master.inService = ∅
  slave_inService : p.slave.inService = ∅
  cascade : cascadeLine ∉ p.master.requested

variable {p : PicPair}

/-- The slave's request that is signalled. -/
theorem Idle.slave_pending (h : p.Idle) : p.slave.pending = Pic.first p.slave.requested := by
  rw [Pic.pending, h.slave_masked, h.slave_inService]
  simp

theorem Idle.wired_pending (h : p.Idle) : p.wired.pending = Pic.first p.wired.requested := by
  rw [Pic.pending]
  have hmasked : p.wired.masked = ∅ := by
    rw [wired]
    split <;> exact h.master_masked
  have hinService : p.wired.inService = ∅ := by
    rw [wired]
    split <;> exact h.master_inService
  rw [hmasked, hinService]
  simp

theorem mem_wired {line : Fin 8} : line ∈ p.wired.requested ↔
    line ∈ p.master.requested ∨ line = cascadeLine ∧ p.slave.pending.isSome := by
  rw [wired]
  split
  · rename_i hsignal
    simp [Pic.request, hsignal, or_comm]
  · rename_i hsignal
    simp [hsignal]

theorem requested_master {line : Fin 8} :
    p.Requested ⟨line, by omega⟩ ↔ line ∈ p.master.requested := by
  rw [Requested, dif_pos (show (⟨line.val, by omega⟩ : Fin 16).val < 8 from line.isLt)]

theorem requested_slave {line : Fin 8} :
    p.Requested ⟨line + 8, by omega⟩ ↔ line ∈ p.slave.requested := by
  have hbelow : ¬ (⟨line.val + 8, by omega⟩ : Fin 16).val < 8 := by
    show ¬ line.val + 8 < 8
    omega
  rw [Requested, dif_neg hbelow]
  simp only [Nat.add_sub_cancel]

/-- The first line in the order of the priorities is acknowledged. -/
theorem Idle.acknowledge_some (h : p.Idle) {line : Fin 16} (hline : p.Requested line)
    (hfirst : ∀ other, p.Requested other → rank line ≤ rank other) :
    p.acknowledge = some (p.vector line, p.serve line) := by
  rw [acknowledge, h.wired_pending]
  by_cases hmaster : line.val < 8
  · have hrequested : (⟨line, hmaster⟩ : Fin 8) ∈ p.master.requested := by
      rw [Requested, dif_pos hmaster] at hline
      exact hline
    have hother : (⟨line, hmaster⟩ : Fin 8) ≠ cascadeLine := by
      intro heq
      exact h.cascade (heq ▸ hrequested)
    have hpending : Pic.first p.wired.requested = some ⟨line, hmaster⟩ := by
      rw [Pic.first_eq_some]
      refine ⟨mem_wired.mpr (.inl hrequested), fun other hmem => ?_⟩
      rw [Fin.le_def]
      cases mem_wired.mp hmem with
      | inl hmem =>
        have hrank := hfirst _ (requested_master.mpr hmem)
        show line.val ≤ other.val
        simp only [rank] at hrank
        split_ifs at hrank <;> omega
      | inr hsignal =>
        obtain ⟨rfl, hsignal⟩ := hsignal
        obtain ⟨below, hbelow⟩ := Option.isSome_iff_exists.mp hsignal
        rw [h.slave_pending, Pic.first_eq_some] at hbelow
        have hrank := hfirst _ (requested_slave.mpr hbelow.1)
        have hin := below.isLt
        show line.val ≤ 2
        simp only [rank] at hrank
        split_ifs at hrank <;> omega
    rw [hpending, Option.bind_some, if_neg hother, vector, if_pos hmaster, serve, dif_pos hmaster]
  · have hin := line.isLt
    have hrequested : (⟨line - 8, by omega⟩ : Fin 8) ∈ p.slave.requested := by
      rw [Requested, dif_neg hmaster] at hline
      exact hline
    have hbelow : p.slave.pending = some ⟨line - 8, by omega⟩ := by
      rw [h.slave_pending, Pic.first_eq_some]
      refine ⟨hrequested, fun other hmem => ?_⟩
      have hrank := hfirst _ (requested_slave.mpr hmem)
      rw [Fin.le_def]
      show line.val - 8 ≤ other.val
      simp only [rank] at hrank
      split_ifs at hrank <;> omega
    have hpending : Pic.first p.wired.requested = some cascadeLine := by
      rw [Pic.first_eq_some]
      refine ⟨mem_wired.mpr (.inr ⟨rfl, by rw [hbelow]; rfl⟩), fun other hmem => ?_⟩
      rw [Fin.le_def]
      cases mem_wired.mp hmem with
      | inl hmem =>
        have hrank := hfirst _ (requested_master.mpr hmem)
        simp only [rank] at hrank
        show 2 ≤ other.val
        split_ifs at hrank <;> omega
      | inr hsignal => rw [hsignal.1]
    rw [hpending, Option.bind_some, if_pos rfl, hbelow, Option.map_some, vector, if_neg hmaster,
      serve, dif_neg hmaster]

theorem Idle.acknowledge_none (h : p.Idle) (hnone : ∀ line, ¬ p.Requested line) :
    p.acknowledge = none := by
  have hslave : p.slave.pending = none := by
    rw [h.slave_pending, Pic.first_eq_none, Finset.eq_empty_iff_forall_notMem]
    exact fun line hmem => hnone _ (requested_slave.mpr hmem)
  have hwired : p.wired.pending = none := by
    rw [h.wired_pending, Pic.first_eq_none, Finset.eq_empty_iff_forall_notMem]
    intro line hmem
    cases mem_wired.mp hmem with
    | inl hmem => exact hnone _ (requested_master.mpr hmem)
    | inr hsignal =>
      rw [hslave] at hsignal
      cases hsignal.2
  rw [acknowledge, hwired, Option.bind_none]

/-- The requests have a first one in the order of the priorities. -/
theorem exists_first {line : Fin 16} (hline : p.Requested line) :
    ∃ first, p.Requested first ∧ ∀ other, p.Requested other → rank first ≤ rank other := by
  have hne : (Finset.univ.filter fun line => p.Requested line).Nonempty :=
    ⟨line, Finset.mem_filter.mpr ⟨Finset.mem_univ line, hline⟩⟩
  obtain ⟨first, hfirst, hleast⟩ := Finset.exists_min_image _ rank hne
  refine ⟨first, (Finset.mem_filter.mp hfirst).2, fun other hother => hleast other ?_⟩
  exact Finset.mem_filter.mpr ⟨Finset.mem_univ other, hother⟩

/-- An interrupt that is finished has only taken its request away. -/
theorem Idle.finish_serve (h : p.Idle) (line : Fin 16) :
    (p.serve line).finish line = p.clear line := by
  have hempty : ∀ lines : Finset (Fin 8), lines = ∅ → ∀ line, insert line lines = {line} := by
    intro lines hlines line
    rw [hlines]
    rfl
  rw [finish, serve, clear]
  by_cases hmaster : line.val < 8
  · simp only [dif_pos hmaster, if_neg (Nat.not_le.mpr hmaster)]
    rw [Pic.endOfInterrupt_of_inService (hempty _ h.master_inService _)]
    simp only [Pic.serve, ← h.master_inService]
  · have hmasterIdle : ({ p.master with inService := ∅ } : Pic) = p.master := by
      rw [← h.master_inService]
    simp only [dif_neg hmaster, if_pos (Nat.le_of_not_lt hmaster)]
    rw [Pic.endOfInterrupt_of_inService (hempty _ h.master_inService _),
      Pic.endOfInterrupt_of_inService (hempty _ h.slave_inService _)]
    simp only [Pic.serve, Finset.erase_eq_of_notMem h.cascade]
    rw [hmasterIdle, ← h.slave_inService]

theorem requested_clear (line other : Fin 16) :
    (p.clear line).Requested other ↔ p.Requested other ∧ other ≠ line := by
  have hline := line.isLt
  rw [Requested, Requested, clear]
  by_cases hmaster : line.val < 8 <;> by_cases hother : other.val < 8 <;>
    simp only [hmaster, hother, dif_pos, dif_neg, not_false_eq_true, Finset.mem_erase, ne_eq,
      Fin.ext_iff]
  all_goals grind

theorem requested_request (line other : Fin 16) :
    (p.request line).Requested other ↔ p.Requested other ∨ other = line := by
  have hline := line.isLt
  rw [Requested, Requested, request]
  by_cases hmaster : line.val < 8 <;> by_cases hother : other.val < 8 <;>
    simp only [hmaster, hother, dif_pos, dif_neg, not_false_eq_true, Pic.request,
      Finset.mem_insert, Fin.ext_iff]
  all_goals grind

theorem Idle.clear (h : p.Idle) (line : Fin 16) : (p.clear line).Idle := by
  rw [PicPair.clear]
  split
  · exact ⟨h.master_masked, h.slave_masked, h.master_inService, h.slave_inService,
      fun hmem => h.cascade (Finset.mem_of_mem_erase hmem)⟩
  · exact ⟨h.master_masked, h.slave_masked, h.master_inService, h.slave_inService, h.cascade⟩

theorem Idle.request (h : p.Idle) {line : Fin 16} (hline : line.val ≠ 2) :
    (p.request line).Idle := by
  rw [PicPair.request]
  split
  · refine ⟨h.master_masked, h.slave_masked, h.master_inService, h.slave_inService, ?_⟩
    simp only [Pic.request, Finset.mem_insert, not_or]
    refine ⟨fun heq => hline ?_, h.cascade⟩
    exact (congrArg Fin.val heq).symm
  · exact ⟨h.master_masked, h.slave_masked, h.master_inService, h.slave_inService, h.cascade⟩

end PicPair

end SnsxOS.Framework
