import SnsxOS.Arm64.Net.E1000Rx

/-!
# The e1000 driver

The driver and the network card share a ring of 8 transmit descriptors besides the receive ring. The
card fetches them in order from its head up to the tail register, and sets the done bit of a
descriptor only after it has read the buffer. The two rings are used by one thread of the driver.
-/

namespace SnsxOS.Arm64

open SnsxOS.Framework

/-! ## The transmit ring -/

/-- `e1000_tx_desc_t`; `done` is the bit `E1000_TX_STATUS_DD` of the status. -/
structure TxDesc where
  length : UInt16
  cmd : UInt8
  done : Bool
  deriving DecidableEq

/-- `E1000_TX_CMD_EOP | E1000_TX_CMD_IFCS | E1000_TX_CMD_RS` -/
def e1000TxCmd : UInt8 := 0x01 ||| 0x02 ||| 0x08

/-- What the card does next on the transmit ring. -/
inductive TxPhase where
  | idle
  /-- read the buffer at the head -/
  | fetch
  /-- set the done bit -/
  | complete (frame : Bytes)
  /-- advance the head -/
  | advance
  deriving DecidableEq

/-- The next statement of `e1000_send_frame` after the test of the length. -/
inductive SendCall where
  | idle
  /-- the test of `desc->status` -/
  | test (frame : Bytes)
  /-- `memcpy` into the buffer -/
  | copy (frame : Bytes)
  /-- `desc->length = len` -/
  | length (frame : Bytes)
  /-- `desc->cmd` -/
  | cmd (frame : Bytes)
  /-- `desc->status = 0` -/
  | status (frame : Bytes)
  /-- write `E1000_TDT` -/
  | tail (frame : Bytes)
  /-- the waiting loop -/
  | poll (wait : Nat)
  /-- advance `tx_tail` and return -/
  | advance (result : Bool)
  deriving DecidableEq

/-- `g_e1000_tx_ring`, `g_e1000_tx_buffers`, the registers `E1000_TDH` and `E1000_TDT` and
`g_e1000.tx_tail`. `submitted` lists the frames that have been handed to the card, `transmitted`
those that the card has read and completed, `results` what `e1000_send_frame` returned. -/
structure E1000Tx where
  ring : Fin 8 → TxDesc
  buffers : Fin 8 → Buffer netFrameMax
  tdh : Fin 8
  tdt : Fin 8
  txTail : Fin 8
  phase : TxPhase
  call : SendCall
  submitted : List Bytes
  transmitted : List Bytes
  results : List Bool

/-- The transmit side of `e1000_initialize`. -/
def e1000InitializeTx : E1000Tx where
  ring := fun _ => ⟨0, 0, true⟩
  buffers := fun _ => Buffer.zero _
  tdh := 0
  tdt := 0
  txTail := 0
  phase := .idle
  call := .idle
  submitted := []
  transmitted := []
  results := []

/-- What the card reads from a slot. -/
def E1000Tx.frame (s : E1000Tx) (i : Fin 8) : Bytes :=
  (s.buffers i).cells.take (s.ring i).length.toNat

inductive TxOp where
  /-- the next step of the card -/
  | device
  /-- a call of `e1000_send_frame` -/
  | send (frame : Bytes)
  /-- its next statement -/
  | driver
  deriving DecidableEq

def txDeviceStep (s : E1000Tx) : E1000Tx :=
  match s.phase with
  | .idle => if s.tdh ≠ s.tdt then { s with phase := .fetch } else s
  | .fetch => { s with phase := .complete (s.frame s.tdh) }
  | .complete frame =>
      { s with
        ring := Function.update s.ring s.tdh { s.ring s.tdh with done := true }
        phase := .advance
        transmitted := s.transmitted ++ [frame] }
  | .advance => { s with tdh := Ring.advance s.tdh 1, phase := .idle }

def txSendStep (s : E1000Tx) (frame : Bytes) : E1000Tx :=
  if frame.length = 0 ∨ netFrameMax < frame.length then { s with results := s.results ++ [false] }
  else { s with call := .test frame }

def txDriverStep (s : E1000Tx) : E1000Tx :=
  match s.call with
  | .idle => s
  | .test frame =>
      if (s.ring s.txTail).done then { s with call := .copy frame }
      else { s with call := .idle, results := s.results ++ [false] }
  | .copy frame =>
      { s with
        buffers := Function.update s.buffers s.txTail ((s.buffers s.txTail).write 0 frame)
        call := .length frame }
  | .length frame =>
      { s with
        ring := Function.update s.ring s.txTail
          { s.ring s.txTail with length := UInt16.ofNat frame.length }
        call := .cmd frame }
  | .cmd frame =>
      { s with
        ring := Function.update s.ring s.txTail { s.ring s.txTail with cmd := e1000TxCmd }
        call := .status frame }
  | .status frame =>
      { s with
        ring := Function.update s.ring s.txTail { s.ring s.txTail with done := false }
        call := .tail frame }
  | .tail frame =>
      { s with
        tdt := Ring.advance s.txTail 1
        call := .poll 0
        submitted := s.submitted ++ [frame] }
  | .poll wait =>
      if wait < 1000 then
        if (s.ring s.txTail).done then { s with call := .advance true }
        else { s with call := .poll (wait + 1) }
      else { s with call := .advance false }
  | .advance result =>
      { s with
        txTail := Ring.advance s.txTail 1
        call := .idle
        results := s.results ++ [result] }

def txStep (s : E1000Tx) : TxOp → E1000Tx
  | .device => txDeviceStep s
  | .send frame => if s.call = .idle then txSendStep s frame else s
  | .driver => txDriverStep s

namespace E1000Tx

/-- The first slot that the card has not completed. -/
def first (s : E1000Tx) : Fin 8 :=
  match s.phase with
  | .advance => Ring.advance s.tdh 1
  | _ => s.tdh

/-- The slot after the last one that has been handed to the card. -/
def next (s : E1000Tx) : Fin 8 :=
  match s.call with
  | .poll _ | .advance _ => Ring.advance s.txTail 1
  | _ => s.txTail

/-- The slots that have been handed to the card and are not completed. -/
def outstanding (s : E1000Tx) : List (Fin 8) :=
  Ring.window id s.first (s.submitted.length - s.transmitted.length)

/-- The driver is writing to the slot at `tx_tail`. -/
def Writing (s : E1000Tx) : Prop :=
  match s.call with
  | .copy _ | .length _ | .cmd _ | .status _ => True
  | _ => False

/-- One for the slot whose done bit is clear and which has not been handed over yet. -/
def cleared (s : E1000Tx) : Nat :=
  match s.call with
  | .tail _ => 1
  | _ => 0

end E1000Tx

/-- The card is reading the slot at its head. -/
def E1000Tx.Fetching (s : E1000Tx) : Prop :=
  match s.phase with
  | .fetch | .complete _ => True
  | _ => False

/-- From the first slot that is not completed, `n` slots belong to the card and hold the frames it
still owes; the done bit is set in all the others, but for one that is being handed over. -/
structure TxInvariant (s : E1000Tx) (n : Nat) : Prop where
  room : n + s.cleared ≤ 8
  next : s.next = Ring.advance s.first n
  tdt : s.tdt = s.next
  done : ∀ i, (s.ring i).done = true ↔ n + s.cleared ≤ Ring.count s.first i
  order : s.submitted = s.transmitted ++ Ring.window s.frame s.first n
  fetching : s.Fetching → 0 < n
  fetched : ∀ frame, s.phase = .complete frame → frame = s.frame s.tdh
  writing : s.Writing → (s.ring s.txTail).done = true
  short : ∀ frame, s.call = .test frame ∨ s.call = .copy frame ∨ s.call = .length frame →
    frame.length ≤ netFrameMax
  copied : ∀ frame, s.call = .length frame → (s.buffers s.txTail).cells.take frame.length = frame
  measured : ∀ frame, s.call = .cmd frame ∨ s.call = .status frame ∨ s.call = .tail frame →
    s.frame s.txTail = frame

theorem txInvariant_start : TxInvariant e1000InitializeTx 0 where
  room := by decide
  next := by decide
  tdt := by decide
  done i := by simp [e1000InitializeTx, E1000Tx.cleared]
  order := rfl
  fetching := False.elim
  fetched := by simp [e1000InitializeTx]
  writing := False.elim
  short := by simp [e1000InitializeTx]
  copied := by simp [e1000InitializeTx]
  measured := by simp [e1000InitializeTx]

namespace TxInvariant

variable {s : E1000Tx} {n : Nat}

/-- The slot that the driver writes lies after the slots of the card. -/
theorem tail_eq (h : TxInvariant s n) (hwriting : s.Writing) :
    n < 8 ∧ s.txTail = Ring.advance s.first n ∧ s.cleared = 0 := by
  have hcleared : s.cleared = 0 ∧ s.next = s.txTail := by
    cases hcall : s.call <;>
      simp_all [E1000Tx.Writing, E1000Tx.cleared, E1000Tx.next]
  have hdone := (h.done s.txTail).mp (h.writing hwriting)
  have hlt := Ring.count_lt s.first s.txTail
  refine ⟨by omega, ?_, hcleared.1⟩
  rw [← hcleared.2, h.next]

theorem head_ne_tail (h : TxInvariant s n) (hwriting : s.Writing) (hfetching : s.Fetching) :
    s.tdh ≠ s.txTail := by
  obtain ⟨hlt, htail, -⟩ := h.tail_eq hwriting
  have hpos := h.fetching hfetching
  have hfirst : s.first = s.tdh := by
    cases hphase : s.phase <;> simp_all [E1000Tx.Fetching, E1000Tx.first]
  have hne := Ring.advance_inj s.first (Nat.zero_lt_succ 7) hlt
  rw [Ring.advance_zero, ← htail, hfirst] at hne
  rw [Ne, hne]
  omega

/-- The driver writes to the slot at `tx_tail`, which the card does not own. -/
theorem write (h : TxInvariant s n) (hwriting : s.Writing) {ring : Fin 8 → TxDesc}
    {buffers : Fin 8 → Buffer netFrameMax} {call : SendCall}
    (hring : ∀ i, i ≠ s.txTail → ring i = s.ring i)
    (hbuffers : ∀ i, i ≠ s.txTail → buffers i = s.buffers i)
    (hdone : (ring s.txTail).done = (s.ring s.txTail).done)
    (hcall : { s with call := call }.Writing)
    (short : ∀ frame, call = .test frame ∨ call = .copy frame ∨ call = .length frame →
      frame.length ≤ netFrameMax)
    (copied : ∀ frame, call = .length frame →
      (buffers s.txTail).cells.take frame.length = frame)
    (measured : ∀ frame, call = .cmd frame ∨ call = .status frame →
      { s with ring := ring, buffers := buffers }.frame s.txTail = frame) :
    TxInvariant { s with ring := ring, buffers := buffers, call := call } n := by
  obtain ⟨hlt, htail, hcleared⟩ := h.tail_eq hwriting
  have hnext : s.next = s.txTail := by
    cases hcall : s.call <;> simp_all [E1000Tx.Writing, E1000Tx.next]
  have hcall' : { s with ring := ring, buffers := buffers, call := call }.cleared = 0 ∧
      { s with ring := ring, buffers := buffers, call := call }.next = s.txTail ∧
      ∀ frame, call ≠ .tail frame := by
    cases call <;> simp_all [E1000Tx.Writing, E1000Tx.next, E1000Tx.cleared]
  have hframe : ∀ i, i ≠ s.txTail →
      { s with ring := ring, buffers := buffers, call := call }.frame i = s.frame i := by
    intro i hi
    simp [E1000Tx.frame, hring i hi, hbuffers i hi]
  refine ⟨?_, ?_, ?_, ?_, ?_, h.fetching, ?_, ?_, short, copied, ?_⟩
  · rw [hcall'.1]
    exact hlt.le
  · exact hcall'.2.1.trans htail
  · exact h.tdt.trans (hnext.trans hcall'.2.1.symm)
  · intro i
    rw [hcall'.1, ← hcleared]
    refine Iff.trans ?_ (h.done i)
    by_cases hi : i = s.txTail
    · subst hi
      simp [hdone]
    · simp [hring i hi]
  · refine h.order.trans (congrArg (s.transmitted ++ ·) ?_)
    exact (Ring.window_congr_of_ne hlt fun i hi => hframe i (by rw [htail]; exact hi)).symm
  · intro frame (hphase : s.phase = .complete frame)
    rw [h.fetched frame hphase]
    refine (hframe _ ?_).symm
    exact h.head_ne_tail hwriting (by simp [E1000Tx.Fetching, hphase])
  · intro _
    exact hdone.trans (h.writing hwriting)
  · rintro frame (heq | heq | heq)
    · exact measured frame (Or.inl heq)
    · exact measured frame (Or.inr heq)
    · exact absurd heq (hcall'.2.2 frame)

theorem complete {frame : Bytes} (h : TxInvariant s (n + 1)) (hphase : s.phase = .complete frame) :
    TxInvariant (txDeviceStep s) n := by
  have hfirst : s.first = s.tdh := by simp [E1000Tx.first, hphase]
  have hfetched := h.fetched frame hphase
  have hroom := h.room
  have hnext := h.next
  have hdone := h.done
  have horder := h.order
  rw [hfirst] at hnext hdone horder
  have hturn := Ring.count_advance_one_self s.tdh
  simp only [txDeviceStep, hphase]
  generalize hring : Function.update s.ring s.tdh { s.ring s.tdh with done := true } = ring
  have hother : ∀ i, i ≠ s.tdh → ring i = s.ring i := by
    intro i hi
    rw [← hring]
    exact Function.update_of_ne hi ..
  have hset : (ring s.tdh).done = true := by simp [← hring]
  have hframe : ∀ i, { s with ring := ring }.frame i = s.frame i := by
    intro i
    by_cases hi : i = s.tdh
    · subst hi
      simp [E1000Tx.frame, ← hring]
    · simp [E1000Tx.frame, hother i hi]
  refine ⟨?_, ?_, h.tdt, ?_, ?_, False.elim, by simp, ?_, h.short, h.copied, ?_⟩
  · change n + s.cleared ≤ 8
    omega
  · change s.next = Ring.advance (Ring.advance s.tdh 1) n
    rw [hnext, Ring.advance_advance, Nat.add_comm 1]
  · intro i
    change (ring i).done = true ↔ n + s.cleared ≤ Ring.count (Ring.advance s.tdh 1) i
    by_cases hi : i = s.tdh
    · subst hi
      rw [hset]
      simp only [true_iff]
      omega
    · have hcount := Ring.count_pop (Ne.symm hi)
      rw [hother i hi, hdone i]
      omega
  · change s.submitted = s.transmitted ++ [frame] ++
      Ring.window { s with ring := ring }.frame (Ring.advance s.tdh 1) n
    rw [funext hframe, horder, Ring.window_pop, ← hfetched]
    simp
  · intro hwriting
    change (ring s.txTail).done = true
    by_cases hi : s.txTail = s.tdh
    · rw [hi, hset]
    · rw [hother _ hi]
      exact h.writing hwriting
  · intro measured hcall
    exact (hframe s.txTail).trans (h.measured measured hcall)

theorem deviceStep (h : TxInvariant s n) : ∃ m, TxInvariant (txDeviceStep s) m := by
  cases hphase : s.phase with
  | idle =>
    simp only [txDeviceStep, hphase]
    split
    · rename_i hne
      have hfirst : s.first = s.tdh := by simp [E1000Tx.first, hphase]
      have hpos : 0 < n := by
        refine Nat.pos_of_ne_zero ?_
        rintro rfl
        rw [h.tdt, h.next, Ring.advance_zero, hfirst] at hne
        exact hne rfl
      have hnext := h.next
      have hdone := h.done
      have horder := h.order
      rw [hfirst] at hnext hdone horder
      exact ⟨n, h.room, hnext, h.tdt, hdone, horder, fun _ => hpos, by simp, h.writing, h.short,
        h.copied, h.measured⟩
    · exact ⟨n, h⟩
  | fetch =>
    have hfirst : s.first = s.tdh := by simp [E1000Tx.first, hphase]
    have hpos := h.fetching (by simp [E1000Tx.Fetching, hphase])
    have hnext := h.next
    have hdone := h.done
    have horder := h.order
    rw [hfirst] at hnext hdone horder
    simp only [txDeviceStep, hphase]
    refine ⟨n, h.room, hnext, h.tdt, hdone, horder, fun _ => hpos, ?_, h.writing, h.short, h.copied,
      h.measured⟩
    rintro frame heq
    exact (TxPhase.complete.inj heq).symm
  | complete frame =>
    have hpos := h.fetching (by simp [E1000Tx.Fetching, hphase])
    obtain ⟨m, rfl⟩ := Nat.exists_eq_succ_of_ne_zero hpos.ne'
    exact ⟨m, h.complete hphase⟩
  | advance =>
    have hfirst : s.first = Ring.advance s.tdh 1 := by simp [E1000Tx.first, hphase]
    have hnext := h.next
    have hdone := h.done
    have horder := h.order
    rw [hfirst] at hnext hdone horder
    simp only [txDeviceStep, hphase]
    exact ⟨n, h.room, hnext, h.tdt, hdone, horder, False.elim, by simp, h.writing, h.short,
      h.copied, h.measured⟩

/-- A statement that moves no index and leaves the descriptors alone. -/
theorem proceed (h : TxInvariant s n) {call : SendCall} (results : List Bool)
    (hnext : { s with call := call }.next = s.next)
    (hcleared : { s with call := call }.cleared = s.cleared)
    (writing : { s with call := call }.Writing → (s.ring s.txTail).done = true)
    (short : ∀ frame, call = .test frame ∨ call = .copy frame ∨ call = .length frame →
      frame.length ≤ netFrameMax)
    (copied : ∀ frame, call ≠ .length frame)
    (measured : ∀ frame, call ≠ .cmd frame ∧ call ≠ .status frame ∧ call ≠ .tail frame) :
    TxInvariant { s with call := call, results := results } n := by
  have hroom := h.room
  have hdone := h.done
  rw [← hcleared] at hroom hdone
  refine ⟨hroom, hnext.trans h.next, h.tdt.trans hnext.symm, hdone, h.order, h.fetching, h.fetched,
    writing, short, fun frame heq => absurd heq (copied frame), ?_⟩
  rintro frame (heq | heq | heq)
  · exact absurd heq (measured frame).1
  · exact absurd heq (measured frame).2.1
  · exact absurd heq (measured frame).2.2

/-- The done bit is cleared before the slot is handed over. -/
theorem clear (h : TxInvariant s n) {frame : Bytes} (hcall : s.call = .status frame) :
    TxInvariant (txDriverStep s) n := by
  have hwriting : s.Writing := by simp [E1000Tx.Writing, hcall]
  have hmeasured := h.measured frame (Or.inr (Or.inl hcall))
  have hnext : s.next = s.txTail := by simp [E1000Tx.next, hcall]
  have htdt := h.tdt
  have hdone := h.done
  obtain ⟨hlt, htail, hcleared⟩ := h.tail_eq hwriting
  rw [hnext] at htdt
  rw [hcleared] at hdone
  simp only [txDriverStep, hcall]
  generalize hring : Function.update s.ring s.txTail { s.ring s.txTail with done := false } = ring
  have hother : ∀ i, i ≠ s.txTail → ring i = s.ring i := by
    intro i hi
    rw [← hring]
    exact Function.update_of_ne hi ..
  have hclear : (ring s.txTail).done = false := by simp [← hring]
  have hframe : ∀ i, { s with ring := ring }.frame i = s.frame i := by
    intro i
    by_cases hi : i = s.txTail
    · subst hi
      simp [E1000Tx.frame, ← hring]
    · simp [E1000Tx.frame, hother i hi]
  have hcount : Ring.count s.first s.txTail = n := by rw [htail, Ring.count_advance hlt]
  refine ⟨hlt, htail, htdt, ?_, ?_, h.fetching, ?_, False.elim, by simp, by simp, ?_⟩
  · intro i
    change (ring i).done = true ↔ n + 1 ≤ Ring.count s.first i
    by_cases hi : i = s.txTail
    · subst hi
      rw [hclear]
      simp only [Bool.false_eq_true, false_iff]
      omega
    · have hne : Ring.count s.first i ≠ n := by
        intro heq
        rw [Ring.count_eq_iff hlt, ← htail] at heq
        exact hi heq
      rw [hother i hi, hdone i]
      omega
  · change s.submitted = s.transmitted ++ Ring.window { s with ring := ring }.frame s.first n
    rw [funext hframe]
    exact h.order
  · intro fetched heq
    exact (h.fetched fetched heq).trans (hframe s.tdh).symm
  · rintro measured (heq | heq | heq)
    · cases heq
    · cases heq
    · rw [← SendCall.tail.inj heq]
      exact (hframe s.txTail).trans hmeasured

/-- The slot is handed over by the write to the tail register. -/
theorem handOver (h : TxInvariant s n) {frame : Bytes} (hcall : s.call = .tail frame) :
    TxInvariant (txDriverStep s) (n + 1) := by
  have hmeasured := h.measured frame (Or.inr (Or.inr hcall))
  have hcleared : s.cleared = 1 := by simp [E1000Tx.cleared, hcall]
  have hnext : s.next = s.txTail := by simp [E1000Tx.next, hcall]
  have hroom := h.room
  have hdone := h.done
  have htail := h.next
  rw [hcleared] at hroom hdone
  rw [hnext] at htail
  simp only [txDriverStep, hcall]
  refine ⟨hroom, ?_, rfl, hdone, ?_, fun _ => Nat.succ_pos n, h.fetched, False.elim, by simp,
    by simp, by simp⟩
  · change Ring.advance s.txTail 1 = Ring.advance s.first (n + 1)
    rw [htail, Ring.advance_advance]
  · change s.submitted ++ [frame] = s.transmitted ++ Ring.window s.frame s.first (n + 1)
    rw [Ring.window_snoc, ← htail, hmeasured, h.order, List.append_assoc]

theorem driverStep (h : TxInvariant s n) : ∃ m, TxInvariant (txDriverStep s) m := by
  cases hcall : s.call with
  | idle => exact ⟨n, by simpa only [txDriverStep, hcall] using h⟩
  | test frame =>
    have hshort := h.short frame (Or.inl hcall)
    simp only [txDriverStep, hcall]
    split
    · rename_i hdone
      exact ⟨n, h.proceed _ (by simp [E1000Tx.next, hcall]) (by simp [E1000Tx.cleared, hcall])
        (fun _ => hdone) (by simpa using hshort) (by simp) (by simp)⟩
    · exact ⟨n, h.proceed _ (by simp [E1000Tx.next, hcall]) (by simp [E1000Tx.cleared, hcall])
        False.elim (by simp) (by simp) (by simp)⟩
  | copy frame =>
    have hshort := h.short frame (Or.inr (Or.inl hcall))
    have hwritten : ((s.buffers s.txTail).write 0 frame).read 0 frame.length = frame :=
      Buffer.read_write_self _ (by simpa using hshort)
    rw [Buffer.read, List.drop_zero] at hwritten
    simp only [txDriverStep, hcall]
    refine ⟨n, h.write (by simp [E1000Tx.Writing, hcall]) (fun _ _ => rfl)
      (fun i hi => Function.update_of_ne hi ..) rfl trivial (by simpa using hshort) ?_ (by simp)⟩
    rintro _ heq
    rw [← SendCall.length.inj heq, Function.update_self]
    exact hwritten
  | length frame =>
    have hshort := h.short frame (Or.inr (Or.inr hcall))
    have hcopied := h.copied frame hcall
    have hlength : (UInt16.ofNat frame.length).toNat = frame.length := by
      apply UInt16.toNat_ofNat_of_lt
      exact hshort.trans_lt (by decide)
    simp only [txDriverStep, hcall]
    refine ⟨n, h.write (by simp [E1000Tx.Writing, hcall]) (fun i hi => Function.update_of_ne hi ..)
      (fun _ _ => rfl) (by simp) trivial (by simp) (by simp) ?_⟩
    rintro _ (heq | heq)
    · rw [← SendCall.cmd.inj heq]
      simpa [E1000Tx.frame, hlength] using hcopied
    · cases heq
  | cmd frame =>
    have hmeasured := h.measured frame (Or.inl hcall)
    simp only [txDriverStep, hcall]
    refine ⟨n, h.write (by simp [E1000Tx.Writing, hcall]) (fun i hi => Function.update_of_ne hi ..)
      (fun _ _ => rfl) (by simp) trivial (by simp) (by simp) ?_⟩
    rintro _ (heq | heq)
    · cases heq
    · rw [← SendCall.status.inj heq]
      simpa [E1000Tx.frame] using hmeasured
  | status frame => exact ⟨n, h.clear hcall⟩
  | tail frame => exact ⟨n + 1, h.handOver hcall⟩
  | poll wait =>
    simp only [txDriverStep, hcall]
    split
    · split <;>
        exact ⟨n, h.proceed _ (by simp [E1000Tx.next, hcall]) (by simp [E1000Tx.cleared, hcall])
          False.elim (by simp) (by simp) (by simp)⟩
    · exact ⟨n, h.proceed _ (by simp [E1000Tx.next, hcall]) (by simp [E1000Tx.cleared, hcall])
        False.elim (by simp) (by simp) (by simp)⟩
  | advance result =>
    have hnext : s.next = Ring.advance s.txTail 1 := by simp [E1000Tx.next, hcall]
    have hcleared : s.cleared = 0 := by simp [E1000Tx.cleared, hcall]
    have hroom := h.room
    have hdone := h.done
    have htail := h.next
    have htdt := h.tdt
    rw [hcleared] at hroom hdone
    rw [hnext] at htail htdt
    simp only [txDriverStep, hcall]
    exact ⟨n, hroom, htail, htdt, hdone, h.order, h.fetching, h.fetched, False.elim, by simp,
      by simp, by simp⟩

theorem sendStep (h : TxInvariant s n) (hcall : s.call = .idle) (frame : Bytes) :
    TxInvariant (txSendStep s frame) n := by
  unfold txSendStep
  split
  · exact h.proceed _ rfl rfl h.writing h.short (by simp [hcall]) (by simp [hcall])
  · rename_i hlength
    have hshort : frame.length ≤ netFrameMax := by omega
    exact h.proceed _ (by simp [E1000Tx.next, hcall]) (by simp [E1000Tx.cleared, hcall])
      False.elim (by simpa using hshort) (by simp) (by simp)

end TxInvariant

theorem txInvariant_step (s : E1000Tx) (op : TxOp) (h : ∃ n, TxInvariant s n) :
    ∃ n, TxInvariant (txStep s op) n := by
  obtain ⟨n, hn⟩ := h
  cases op with
  | device => exact hn.deviceStep
  | driver => exact hn.driverStep
  | send frame =>
    simp only [txStep]
    split
    · rename_i hcall
      exact ⟨n, hn.sendStep hcall frame⟩
    · exact ⟨n, hn⟩

/-! ## The card and its driver -/

structure E1000Rings where
  rx : E1000Rx
  tx : E1000Tx

/-- `e1000_initialize`, as far as the rings go. -/
def e1000InitializeRings : E1000Rings := ⟨e1000InitializeRx, e1000InitializeTx⟩

inductive E1000Op where
  /-- a frame reaches the card -/
  | frame (frame : Bytes)
  /-- the next step of the card on the receive ring -/
  | rxDevice
  /-- the next step of the card on the transmit ring -/
  | txDevice
  /-- a call of `e1000_receive_frame` -/
  | receive (timeout : UInt32)
  /-- a call of `e1000_send_frame` -/
  | send (frame : Bytes)
  /-- the next statement of the call in progress -/
  | driver
  deriving DecidableEq

/-- The driver runs one call at a time. -/
def e1000Step (s : E1000Rings) : E1000Op → E1000Rings
  | .frame frame => { s with rx := rxStep s.rx (.frame frame) }
  | .rxDevice => { s with rx := rxStep s.rx .device }
  | .txDevice => { s with tx := txStep s.tx .device }
  | .receive timeout =>
      if s.tx.call = .idle then { s with rx := rxStep s.rx (.receive timeout) } else s
  | .send frame => if s.rx.call = .idle then { s with tx := txStep s.tx (.send frame) } else s
  | .driver =>
      if s.rx.call = .idle then { s with tx := txStep s.tx .driver }
      else { s with rx := rxStep s.rx .driver }

theorem e1000_invariant_step (s : E1000Rings) (op : E1000Op)
    (h : RxInvariant s.rx ∧ ∃ n, TxInvariant s.tx n) :
    RxInvariant (e1000Step s op).rx ∧ ∃ n, TxInvariant (e1000Step s op).tx n := by
  obtain ⟨hrx, htx⟩ := h
  cases op with
  | frame frame => exact ⟨hrx.step _ (.frame frame), htx⟩
  | rxDevice => exact ⟨hrx.step _ .device, htx⟩
  | txDevice => exact ⟨hrx, txInvariant_step _ .device htx⟩
  | receive timeout =>
    simp only [e1000Step]
    split
    · exact ⟨hrx.step _ (.receive timeout), htx⟩
    · exact ⟨hrx, htx⟩
  | send frame =>
    simp only [e1000Step]
    split
    · exact ⟨hrx, txInvariant_step _ (.send frame) htx⟩
    · exact ⟨hrx, htx⟩
  | driver =>
    simp only [e1000Step]
    split
    · exact ⟨hrx, txInvariant_step _ .driver htx⟩
    · exact ⟨hrx.step _ .driver, htx⟩

theorem RxInvariant.mem_unread {s : E1000Rx} (h : RxInvariant s) (i : Fin 32) :
    i ∈ s.unread ↔ (s.ring i).done = true := by
  rw [h.done i]
  exact Ring.mem_window_id (Ring.count_lt _ _).le

/-- Who owns what at any moment: the frames that the card has completed are those that have been
returned, the one in hand and the unread ones, in order; the driver reads a descriptor only while
its done bit is set, and the card writes to no unread slot; the frames handed to the card are those
it has read and those it still owes, and the driver writes to no slot that the card still owes. -/
structure E1000Law (s : E1000Rings) : Prop where
  delivered : s.rx.arrived.map (·.take netFrameMax) =
    s.rx.delivered ++ s.rx.inHand ++ s.rx.unread.map s.rx.frame
  reads : s.rx.Reading → (s.rx.ring s.rx.head).done = true ∧ s.rx.head ∈ s.rx.unread
  fills : s.rx.Filling → s.rx.rdh ∉ s.rx.unread
  transmitted : s.tx.submitted = s.tx.transmitted ++ s.tx.outstanding.map s.tx.frame
  writes : s.tx.Writing → s.tx.txTail ∉ s.tx.outstanding

theorem e1000_law (ops : List E1000Op) : E1000Law (run e1000Step e1000InitializeRings ops) := by
  obtain ⟨hrx, n, htx⟩ := run_invariant e1000_invariant_step
    (s := e1000InitializeRings) ⟨rxInvariant_start, 0, txInvariant_start⟩ ops
  generalize run e1000Step e1000InitializeRings ops = s at hrx htx
  have howed : s.tx.submitted.length - s.tx.transmitted.length = n := by
    simp [htx.order]
  refine ⟨?_, ?_, ?_, ?_, ?_⟩
  · rw [hrx.order, E1000Rx.unread, Ring.contents, Ring.contents, Ring.map_window]
    rfl
  · intro hreading
    exact ⟨hrx.reading hreading, (hrx.mem_unread _).mpr (hrx.reading hreading)⟩
  · intro hfilling
    have hlast : s.rx.last = s.rx.rdh := by
      cases hphase : s.rx.phase <;> simp_all [E1000Rx.Filling, E1000Rx.last]
    rw [hrx.mem_unread, hrx.done, hlast]
    exact lt_irrefl _
  · rw [E1000Tx.outstanding, howed, Ring.map_window]
    exact htx.order
  · intro hwriting
    obtain ⟨hlt, htail, -⟩ := htx.tail_eq hwriting
    rw [E1000Tx.outstanding, howed, Ring.mem_window_id hlt.le, htail, Ring.count_advance hlt]
    exact lt_irrefl n

end SnsxOS.Arm64
