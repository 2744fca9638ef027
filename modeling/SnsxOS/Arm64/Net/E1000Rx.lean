import SnsxOS.Arm64.Net.Packet
import SnsxOS.Framework.Ring
import SnsxOS.Framework.Transition

/-!
# The receive ring of the e1000

The driver and the network card share a ring of 32 receive descriptors. The card fills them in order
from its head while the head differs from the tail register, and sets the done bit of a descriptor
last. Its steps land between any two statements of the driver.
-/

namespace SnsxOS.Arm64

open SnsxOS.Framework

/-- `e1000_rx_desc_t`; `done` is the bit `E1000_RX_STATUS_DD` of the status. -/
structure RxDesc where
  length : UInt16
  done : Bool
  deriving DecidableEq

/-- What the card does next on the receive ring. -/
inductive RxPhase where
  | idle
  /-- write the frame to the buffer at the head -/
  | store (frame : Bytes)
  /-- write the length -/
  | measure (frame : Bytes)
  /-- set the done bit -/
  | complete (frame : Bytes)
  /-- advance the head -/
  | advance
  deriving DecidableEq

/-- The next statement of `e1000_receive_frame`. -/
inductive ReceiveCall where
  | idle
  /-- `waited <= timeout_ms` -/
  | test (waited timeout : UInt32)
  /-- the test of `desc->status` -/
  | poll (waited timeout : UInt32)
  /-- `waited += 10` -/
  | stall (waited timeout : UInt32)
  /-- `copy = desc->length`, clamped -/
  | length
  /-- `memcpy` out of the buffer -/
  | copy (copy : Nat)
  /-- `desc->status = 0` -/
  | status (frame : Bytes)
  /-- write `E1000_RDT` -/
  | tail (frame : Bytes)
  /-- advance `rx_head` and return -/
  | advance (frame : Bytes)
  deriving DecidableEq

/-- `g_e1000_rx_ring`, `g_e1000_rx_buffers`, the registers `E1000_RDH` and `E1000_RDT` and
`g_e1000.rx_head`. `arrived` lists the frames that the card has completed, `delivered` those that
`e1000_receive_frame` has returned, and `missed` counts the calls that returned false. -/
structure E1000Rx where
  ring : Fin 32 → RxDesc
  buffers : Fin 32 → Buffer netFrameMax
  rdh : Fin 32
  rdt : Fin 32
  head : Fin 32
  phase : RxPhase
  call : ReceiveCall
  arrived : List Bytes
  delivered : List Bytes
  missed : Nat

/-- The receive side of `e1000_initialize`. -/
def e1000InitializeRx : E1000Rx where
  ring := fun _ => ⟨0, false⟩
  buffers := fun _ => Buffer.zero _
  rdh := 0
  rdt := 31
  head := 0
  phase := .idle
  call := .idle
  arrived := []
  delivered := []
  missed := 0

/-- What `e1000_receive_frame` copies out of a slot. -/
def E1000Rx.frame (s : E1000Rx) (i : Fin 32) : Bytes :=
  (s.buffers i).cells.take (min (s.ring i).length.toNat netFrameMax)

inductive RxOp where
  /-- a frame reaches the card -/
  | frame (frame : Bytes)
  /-- the next step of the card -/
  | device
  /-- a call of `e1000_receive_frame` -/
  | receive (timeout : UInt32)
  /-- its next statement -/
  | driver
  deriving DecidableEq

/-- The card takes the frame if it is at rest and has a descriptor left, and loses it otherwise. -/
def rxFrameStep (s : E1000Rx) (frame : Bytes) : E1000Rx :=
  if s.phase = .idle ∧ s.rdh ≠ s.rdt ∧ frame.length < 2 ^ 16 then
    { s with phase := .store frame }
  else s

def rxDeviceStep (s : E1000Rx) : E1000Rx :=
  match s.phase with
  | .idle => s
  | .store frame =>
      { s with
        buffers := Function.update s.buffers s.rdh
          ((s.buffers s.rdh).write 0 (frame.take netFrameMax))
        phase := .measure frame }
  | .measure frame =>
      { s with
        ring := Function.update s.ring s.rdh
          { s.ring s.rdh with length := UInt16.ofNat frame.length }
        phase := .complete frame }
  | .complete frame =>
      { s with
        ring := Function.update s.ring s.rdh { s.ring s.rdh with done := true }
        phase := .advance
        arrived := s.arrived ++ [frame] }
  | .advance => { s with rdh := Ring.advance s.rdh 1, phase := .idle }

def rxDriverStep (s : E1000Rx) : E1000Rx :=
  match s.call with
  | .idle => s
  | .test waited timeout =>
      if waited ≤ timeout then { s with call := .poll waited timeout }
      else { s with call := .idle, missed := s.missed + 1 }
  | .poll waited timeout =>
      if (s.ring s.head).done then { s with call := .length }
      else { s with call := .stall waited timeout }
  | .stall waited timeout => { s with call := .test (waited + 10) timeout }
  | .length => { s with call := .copy (min (s.ring s.head).length.toNat netFrameMax) }
  | .copy copy => { s with call := .status ((s.buffers s.head).cells.take copy) }
  | .status frame =>
      { s with
        ring := Function.update s.ring s.head { s.ring s.head with done := false }
        call := .tail frame }
  | .tail frame => { s with rdt := s.head, call := .advance frame }
  | .advance frame =>
      { s with
        head := Ring.advance s.head 1
        call := .idle
        delivered := s.delivered ++ [frame] }

def rxStep (s : E1000Rx) : RxOp → E1000Rx
  | .frame frame => rxFrameStep s frame
  | .device => rxDeviceStep s
  | .receive timeout => if s.call = .idle then { s with call := .test 0 timeout } else s
  | .driver => rxDriverStep s

namespace E1000Rx

/-- The first slot that has not been handed back to the card. -/
def first (s : E1000Rx) : Fin 32 :=
  match s.call with
  | .tail _ | .advance _ => Ring.advance s.head 1
  | _ => s.head

/-- The first slot that the card has not completed. -/
def last (s : E1000Rx) : Fin 32 :=
  match s.phase with
  | .advance => Ring.advance s.rdh 1
  | _ => s.rdh

/-- The frame that has been handed back and not been returned yet. -/
def inHand (s : E1000Rx) : List Bytes :=
  match s.call with
  | .tail frame | .advance frame => [frame]
  | _ => []

/-- The slots that hold a frame for the driver. -/
def unread (s : E1000Rx) : List (Fin 32) := Ring.contents id s.first s.last

/-- The card is writing to the slot at its head. -/
def Filling (s : E1000Rx) : Prop :=
  match s.phase with
  | .store _ | .measure _ | .complete _ => True
  | _ => False

/-- The driver is reading the slot at `rx_head`. -/
def Reading (s : E1000Rx) : Prop :=
  match s.call with
  | .length | .copy _ | .status _ => True
  | _ => False

/-- The number of slots from the first unread one that the card may fill. -/
def limit (s : E1000Rx) : Nat :=
  match s.call with
  | .tail _ => 30
  | _ => 31

end E1000Rx

/-- The descriptor has been handed back to the card before a statement. -/
def ReceiveCall.handedBack : ReceiveCall → Bool
  | .tail _ | .advance _ => true
  | _ => false

theorem E1000Rx.indices_of_not_handedBack {s : E1000Rx} (h : s.call.handedBack = false) :
    s.first = s.head ∧ s.limit = 31 ∧ s.inHand = [] := by
  cases hcall : s.call <;>
    simp_all [ReceiveCall.handedBack, E1000Rx.first, E1000Rx.limit, E1000Rx.inHand]

/-- The slots from the first unread one up to the head are complete and hold what the driver has not
returned; the tail register is one or, between two statements, two slots behind them. -/
structure RxInvariant (s : E1000Rx) : Prop where
  tail : s.rdt = Ring.advance s.first s.limit
  bound : Ring.count s.first s.last ≤ s.limit
  room : s.Filling → Ring.count s.first s.last < s.limit
  done : ∀ i, (s.ring i).done = true ↔ Ring.count s.first i < Ring.count s.first s.last
  order : s.arrived.map (·.take netFrameMax) =
    s.delivered ++ s.inHand ++ Ring.contents s.frame s.first s.last
  stored : ∀ frame, s.phase = .measure frame →
    (s.buffers s.rdh).cells.take (min frame.length netFrameMax) = frame.take netFrameMax
  measured : ∀ frame, s.phase = .complete frame → s.frame s.rdh = frame.take netFrameMax
  short : ∀ frame, s.phase = .store frame ∨ s.phase = .measure frame → frame.length < 2 ^ 16
  reading : s.Reading → (s.ring s.head).done = true
  copy : ∀ copy, s.call = .copy copy → copy = min (s.ring s.head).length.toNat netFrameMax
  status : ∀ frame, s.call = .status frame → frame = s.frame s.head

theorem rxInvariant_start : RxInvariant e1000InitializeRx where
  tail := by decide
  bound := by decide
  room := False.elim
  done i := by
    have hcount : Ring.count e1000InitializeRx.first e1000InitializeRx.last = 0 := by decide
    rw [hcount]
    simp [e1000InitializeRx]
  order := (Ring.contents_self e1000InitializeRx.frame e1000InitializeRx.first).symm
  stored := by simp [e1000InitializeRx]
  measured := by simp [e1000InitializeRx]
  short := by simp [e1000InitializeRx]
  reading := False.elim
  copy := by simp [e1000InitializeRx]
  status := by simp [e1000InitializeRx]

namespace RxInvariant

variable {s : E1000Rx}

/-- The card does not fill the slot that the driver reads. -/
theorem head_ne_last (h : RxInvariant s) (hreading : s.Reading) : s.head ≠ s.last := by
  have hdone := (h.done s.head).mp (h.reading hreading)
  rintro heq
  rw [heq] at hdone
  exact absurd hdone (lt_irrefl _)

theorem limit_lt (s : E1000Rx) : s.limit < 32 := by
  unfold E1000Rx.limit
  split <;> decide

theorem head_free (h : RxInvariant s) (hne : s.last ≠ s.rdt) :
    Ring.count s.first s.last < s.limit := by
  refine lt_of_le_of_ne h.bound fun heq => hne ?_
  rw [h.tail, ← heq, Ring.advance_count]

/-- There is a free slot after the one that the card fills. -/
theorem advance_last_ne (hroom : Ring.count s.first s.last < s.limit) :
    Ring.advance s.last 1 ≠ s.first := by
  rw [Ne, Ring.advance_one_eq_iff]
  have hlimit : s.limit ≤ 31 := by
    have hlt := limit_lt s
    omega
  omega

theorem frameStep (h : RxInvariant s) (frame : Bytes) : RxInvariant (rxFrameStep s frame) := by
  unfold rxFrameStep
  split
  · rename_i hfree
    obtain ⟨hidle, hne, hshort⟩ := hfree
    have hlast : s.last = s.rdh := by simp [E1000Rx.last, hidle]
    have hroom : Ring.count s.first s.last < s.limit := h.head_free (by rw [hlast]; exact hne)
    have hdone := h.done
    have horder := h.order
    rw [hlast] at hroom hdone horder
    exact {
      tail := h.tail
      bound := hroom.le
      room := fun _ => hroom
      done := hdone
      order := horder
      stored := by simp
      measured := by simp
      short := by simpa using hshort
      reading := h.reading
      copy := h.copy
      status := h.status }
  · exact h

/-- The card writes to the slot at its head, which is neither unread nor being read. -/
theorem fill (h : RxInvariant s) (hfilling : s.Filling) (hlast : s.last = s.rdh)
    {ring : Fin 32 → RxDesc} {buffers : Fin 32 → Buffer netFrameMax} {phase : RxPhase}
    (hring : ∀ i, i ≠ s.rdh → ring i = s.ring i)
    (hbuffers : ∀ i, i ≠ s.rdh → buffers i = s.buffers i)
    (hdone : (ring s.rdh).done = (s.ring s.rdh).done)
    (hphase : { s with phase := phase }.last = s.rdh)
    (stored : ∀ frame, phase = .measure frame → frame.length < 2 ^ 16 ∧
      (buffers s.rdh).cells.take (min frame.length netFrameMax) = frame.take netFrameMax)
    (measured : ∀ frame, phase = .complete frame →
      { s with ring := ring, buffers := buffers }.frame s.rdh = frame.take netFrameMax)
    (hstore : ∀ frame, phase ≠ .store frame) :
    RxInvariant { s with ring := ring, buffers := buffers, phase := phase } := by
  have hroom := h.room hfilling
  have hwindow : Ring.count s.first { s with ring := ring, buffers := buffers, phase := phase }.last =
      Ring.count s.first s.last := congrArg (Ring.count s.first) (hphase.trans hlast.symm)
  have hframe : ∀ i, i ≠ s.rdh →
      { s with ring := ring, buffers := buffers, phase := phase }.frame i = s.frame i := by
    intro i hi
    simp [E1000Rx.frame, hring i hi, hbuffers i hi]
  have hhead : s.Reading → s.head ≠ s.rdh := by
    intro hreading
    rw [← hlast]
    exact h.head_ne_last hreading
  refine ⟨h.tail, ?_, ?_, ?_, ?_, ?_, measured, ?_, ?_, ?_, ?_⟩
  · exact hwindow.trans_le hroom.le
  · exact fun _ => hwindow.trans_lt hroom
  · intro i
    refine Iff.trans ?_ ((h.done i).trans (iff_of_eq (congrArg (Ring.count s.first i < ·) hwindow.symm)))
    by_cases hi : i = s.rdh
    · subst hi
      simp [hdone]
    · simp [hring i hi]
  · have hcontents : Ring.contents { s with ring := ring, buffers := buffers, phase := phase }.frame
        s.first s.rdh = Ring.contents s.frame s.first s.rdh := Ring.contents_congr_of_ne hframe
    have horder := h.order
    rw [hlast, ← hcontents, ← hphase] at horder
    exact horder
  · exact fun frame heq => (stored frame heq).2
  · rintro frame (heq | heq)
    · exact absurd heq (hstore frame)
    · exact (stored frame heq).1
  · intro hreading
    exact (congrArg RxDesc.done (hring _ (hhead hreading))).trans (h.reading hreading)
  · intro copy (hcopy : s.call = .copy copy)
    rw [h.copy copy hcopy, ← hring _ (hhead (by simp [E1000Rx.Reading, hcopy]))]
  · intro frame (hstatus : s.call = .status frame)
    rw [h.status frame hstatus]
    exact (hframe _ (hhead (by simp [E1000Rx.Reading, hstatus]))).symm

theorem store (h : RxInvariant s) {frame : Bytes} (hphase : s.phase = .store frame) :
    RxInvariant (rxDeviceStep s) := by
  have hlast : s.last = s.rdh := by simp [E1000Rx.last, hphase]
  have hfits : 0 + (frame.take netFrameMax).length ≤ netFrameMax := by
    rw [List.length_take, Nat.zero_add]
    exact Nat.min_le_left ..
  have hwritten := Buffer.read_write_self (s.buffers s.rdh) hfits
  rw [Buffer.read, List.drop_zero, List.length_take, Nat.min_comm] at hwritten
  simp only [rxDeviceStep, hphase]
  refine h.fill (by simp [E1000Rx.Filling, hphase]) hlast (fun _ _ => rfl)
    (fun i hi => Function.update_of_ne hi ..) rfl rfl ?_ (by simp) (by simp)
  rintro _ heq
  obtain rfl := RxPhase.measure.inj heq
  rw [Function.update_self]
  exact ⟨h.short frame (Or.inl hphase), hwritten⟩

theorem measure (h : RxInvariant s) {frame : Bytes} (hphase : s.phase = .measure frame) :
    RxInvariant (rxDeviceStep s) := by
  have hlast : s.last = s.rdh := by simp [E1000Rx.last, hphase]
  have hshort := h.short frame (Or.inr hphase)
  have hstored := h.stored frame hphase
  simp only [rxDeviceStep, hphase]
  refine h.fill (by simp [E1000Rx.Filling, hphase]) hlast
    (fun i hi => Function.update_of_ne hi ..) (fun _ _ => rfl) (by simp) rfl (by simp) ?_ (by simp)
  rintro _ heq
  obtain rfl := RxPhase.complete.inj heq
  have hlength : (UInt16.ofNat frame.length).toNat = frame.length :=
    UInt16.toNat_ofNat_of_lt hshort
  simpa [E1000Rx.frame, hlength] using hstored

theorem complete (h : RxInvariant s) {frame : Bytes} (hphase : s.phase = .complete frame) :
    RxInvariant (rxDeviceStep s) := by
  have hlast : s.last = s.rdh := by simp [E1000Rx.last, hphase]
  have hroom := h.room (by simp [E1000Rx.Filling, hphase])
  have hnext := advance_last_ne hroom
  have hmeasured := h.measured frame hphase
  have hdone := h.done
  have horder := h.order
  have hhead := h.head_ne_last
  simp only [rxDeviceStep, hphase]
  rw [hlast] at hroom hnext hdone horder hhead
  have hcount := Ring.count_push hnext
  generalize hring : Function.update s.ring s.rdh { s.ring s.rdh with done := true } = ring
  have hother : ∀ i, i ≠ s.rdh → ring i = s.ring i := by
    intro i hi
    rw [← hring]
    exact Function.update_of_ne hi ..
  have hlength : ∀ i, (ring i).length = (s.ring i).length := by
    intro i
    by_cases hi : i = s.rdh
    · subst hi
      simp [← hring]
    · rw [hother i hi]
  refine ⟨h.tail, ?_, False.elim, ?_, ?_, by simp, by simp, by simp, ?_, ?_, ?_⟩
  · exact hcount.trans_le hroom
  · intro i
    change (ring i).done = true ↔ Ring.count s.first i < Ring.count s.first (Ring.advance s.rdh 1)
    rw [hcount]
    by_cases hi : i = s.rdh
    · subst hi
      simp [← hring]
    · have hne : Ring.count s.first i ≠ Ring.count s.first s.rdh := by
        intro heq
        rw [Ring.count_eq_iff (Ring.count_lt _ _), Ring.advance_count] at heq
        exact hi heq
      rw [hother i hi, hdone i]
      omega
  · have hframe : ∀ i, { s with ring := ring }.frame i = s.frame i := by
      intro i
      simp [E1000Rx.frame, hlength i]
    have hcontents : Ring.contents { s with ring := ring }.frame s.first (Ring.advance s.rdh 1) =
        Ring.contents s.frame s.first s.rdh ++ [frame.take netFrameMax] := by
      rw [funext hframe, Ring.contents_snoc _ hnext, hmeasured]
    rw [List.map_append, horder, List.append_assoc]
    exact congrArg (s.delivered ++ s.inHand ++ ·) hcontents.symm
  · intro hreading
    exact (congrArg RxDesc.done (hother _ (hhead hreading))).trans (h.reading hreading)
  · intro copy (hcopy : s.call = .copy copy)
    rw [h.copy copy hcopy, hlength]
  · intro stored (hstatus : s.call = .status stored)
    rw [h.status stored hstatus]
    simp [E1000Rx.frame, hlength]

theorem deviceStep (h : RxInvariant s) : RxInvariant (rxDeviceStep s) := by
  cases hphase : s.phase with
  | idle => simpa only [rxDeviceStep, hphase] using h
  | store frame => exact h.store hphase
  | measure frame => exact h.measure hphase
  | complete frame => exact h.complete hphase
  | advance =>
    have hlast : s.last = Ring.advance s.rdh 1 := by simp [E1000Rx.last, hphase]
    have hbound := h.bound
    have hdone := h.done
    have horder := h.order
    rw [hlast] at hbound hdone horder
    simp only [rxDeviceStep, hphase]
    exact ⟨h.tail, hbound, False.elim, hdone, horder, by simp, by simp, by simp, h.reading,
      h.copy, h.status⟩

/-- A statement that neither clears the descriptor nor moves an index. -/
theorem proceed (h : RxInvariant s) {call : ReceiveCall} (missed : Nat)
    (hcall : s.call.handedBack = false) (hnext : call.handedBack = false)
    (reading : { s with call := call }.Reading → (s.ring s.head).done = true)
    (copy : ∀ copy, call = .copy copy → copy = min (s.ring s.head).length.toNat netFrameMax)
    (status : ∀ frame, call = .status frame → frame = s.frame s.head) :
    RxInvariant { s with call := call, missed := missed } := by
  obtain ⟨hfirst, hlimit, hinHand⟩ := E1000Rx.indices_of_not_handedBack hcall
  obtain ⟨hfirst', hlimit', hinHand'⟩ := E1000Rx.indices_of_not_handedBack
    (s := { s with call := call, missed := missed }) hnext
  have htail := h.tail
  have hbound := h.bound
  have hroom := h.room
  have hdone := h.done
  have horder := h.order
  rw [hfirst, ← hfirst', hlimit, ← hlimit'] at htail hbound hroom
  rw [hfirst, ← hfirst'] at hdone
  rw [hfirst, ← hfirst', hinHand, ← hinHand'] at horder
  exact ⟨htail, hbound, hroom, hdone, horder, h.stored, h.measured, h.short, reading, copy, status⟩

/-- The descriptor goes back to the card, whose limit it does not raise yet. -/
theorem clear (h : RxInvariant s) {frame : Bytes} (hcall : s.call = .status frame) :
    RxInvariant (rxDriverStep s) := by
  have hfirst : s.first = s.head := by simp [E1000Rx.first, hcall]
  have hlimit : s.limit = 31 := by simp [E1000Rx.limit, hcall]
  have hinHand : s.inHand = [] := by simp [E1000Rx.inHand, hcall]
  have hne := h.head_ne_last (by simp [E1000Rx.Reading, hcall])
  have htail := h.tail
  have hbound := h.bound
  have hroom := h.room
  have hdone := h.done
  have horder := h.order
  have hstatus := h.status frame hcall
  rw [hfirst, hlimit] at htail hbound hroom
  rw [hfirst] at hdone
  rw [hfirst, hinHand, List.append_nil, Ring.contents_pop _ hne, ← hstatus] at horder
  have hcount := Ring.count_pop hne
  have hturn := Ring.count_advance_one_self s.head
  simp only [rxDriverStep, hcall]
  generalize hring : Function.update s.ring s.head { s.ring s.head with done := false } = ring
  have hother : ∀ i, i ≠ s.head → ring i = s.ring i := by
    intro i hi
    rw [← hring]
    exact Function.update_of_ne hi ..
  have hlength : ∀ i, (ring i).length = (s.ring i).length := by
    intro i
    by_cases hi : i = s.head
    · subst hi
      simp [← hring]
    · rw [hother i hi]
  have hframe : ∀ i, { s with ring := ring }.frame i = s.frame i := by
    intro i
    simp [E1000Rx.frame, hlength i]
  refine ⟨?_, ?_, ?_, ?_, ?_, h.stored, ?_, h.short, False.elim, by simp, by simp⟩
  · change s.rdt = Ring.advance (Ring.advance s.head 1) 30
    rw [htail, Ring.advance_advance]
  · change Ring.count (Ring.advance s.head 1) s.last ≤ 30
    omega
  · intro hfilling
    have hfree := hroom hfilling
    change Ring.count (Ring.advance s.head 1) s.last < 30
    omega
  · intro i
    change (ring i).done = true ↔
      Ring.count (Ring.advance s.head 1) i < Ring.count (Ring.advance s.head 1) s.last
    by_cases hi : i = s.head
    · subst hi
      have hclear : (ring s.head).done = false := by simp [← hring]
      rw [hclear]
      simp only [Bool.false_eq_true, false_iff]
      omega
    · have hstep := Ring.count_pop (Ne.symm hi)
      rw [hother i hi, hdone i]
      omega
  · change s.arrived.map (·.take netFrameMax) = s.delivered ++ [frame] ++
      Ring.contents { s with ring := ring }.frame (Ring.advance s.head 1) s.last
    rw [funext hframe, horder]
    simp
  · intro measured heq
    exact (hframe s.rdh).trans (h.measured measured heq)

theorem driverStep (h : RxInvariant s) : RxInvariant (rxDriverStep s) := by
  cases hcall : s.call with
  | idle => simpa only [rxDriverStep, hcall] using h
  | status frame => exact h.clear hcall
  | tail frame =>
    have hfirst : s.first = Ring.advance s.head 1 := by simp [E1000Rx.first, hcall]
    have hlimit : s.limit = 30 := by simp [E1000Rx.limit, hcall]
    have hinHand : s.inHand = [frame] := by simp [E1000Rx.inHand, hcall]
    have hbound := h.bound
    have hroom := h.room
    have hdone := h.done
    have horder := h.order
    rw [hfirst, hlimit] at hbound hroom
    rw [hfirst] at hdone
    rw [hfirst, hinHand] at horder
    simp only [rxDriverStep, hcall]
    refine ⟨?_, hbound.trans (Nat.le_succ 30), fun hf => (hroom hf).trans (Nat.lt_succ_self 30),
      hdone, horder, h.stored, h.measured, h.short, False.elim, by simp, by simp⟩
    change s.head = Ring.advance (Ring.advance s.head 1) 31
    rw [Ring.advance_advance]
    exact (Ring.advance_size s.head).symm
  | advance frame =>
    have hfirst : s.first = Ring.advance s.head 1 := by simp [E1000Rx.first, hcall]
    have hlimit : s.limit = 31 := by simp [E1000Rx.limit, hcall]
    have hinHand : s.inHand = [frame] := by simp [E1000Rx.inHand, hcall]
    have htail := h.tail
    have hbound := h.bound
    have hroom := h.room
    have hdone := h.done
    have horder := h.order
    rw [hfirst, hlimit] at htail hbound hroom
    rw [hfirst] at hdone
    rw [hfirst, hinHand] at horder
    simp only [rxDriverStep, hcall]
    refine ⟨htail, hbound, hroom, hdone, ?_, h.stored, h.measured, h.short, False.elim, by simp,
      by simp⟩
    rw [horder]
    exact congrArg (· ++ _) (List.append_nil _).symm
  | test waited timeout =>
    simp only [rxDriverStep, hcall]
    split <;> exact h.proceed _ (by rw [hcall]; rfl) rfl False.elim (by simp) (by simp)
  | poll waited timeout =>
    simp only [rxDriverStep, hcall]
    split
    · rename_i hdone
      exact h.proceed _ (by rw [hcall]; rfl) rfl (fun _ => hdone) (by simp) (by simp)
    · exact h.proceed _ (by rw [hcall]; rfl) rfl False.elim (by simp) (by simp)
  | stall waited timeout =>
    simp only [rxDriverStep, hcall]
    exact h.proceed _ (by rw [hcall]; rfl) rfl False.elim (by simp) (by simp)
  | length =>
    have hdone := h.reading (by simp [E1000Rx.Reading, hcall])
    simp only [rxDriverStep, hcall]
    refine h.proceed _ (by rw [hcall]; rfl) rfl (fun _ => hdone) ?_ (by simp)
    rintro _ heq
    exact (ReceiveCall.copy.inj heq).symm
  | copy copy =>
    have hdone := h.reading (by simp [E1000Rx.Reading, hcall])
    have hcopy := h.copy copy hcall
    simp only [rxDriverStep, hcall]
    refine h.proceed _ (by rw [hcall]; rfl) rfl (fun _ => hdone) (by simp) ?_
    rintro _ heq
    rw [← ReceiveCall.status.inj heq, hcopy]
    rfl

theorem step (s : E1000Rx) (op : RxOp) (h : RxInvariant s) : RxInvariant (rxStep s op) := by
  cases op with
  | frame frame => exact h.frameStep frame
  | device => exact h.deviceStep
  | driver => exact h.driverStep
  | receive timeout =>
    simp only [rxStep]
    split
    · rename_i hcall
      exact h.proceed _ (by rw [hcall]; rfl) rfl False.elim (by simp) (by simp)
    · exact h

end RxInvariant

end SnsxOS.Arm64
