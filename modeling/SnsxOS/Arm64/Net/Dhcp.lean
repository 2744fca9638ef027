import SnsxOS.Framework.Transition
import SnsxOS.Arm64.Net.Frames
import SnsxOS.Arm64.Net.Udp

/-!
# Waiting for a DHCP reply

The receive loop of `netstack_wait_for_dhcp`. The options of every reply to the transaction go
into one offer, also those of a reply that is then passed over for its type. What each option of
the accepted offer was set by is read off the replies before it.
-/

namespace SnsxOS.Arm64

open Framework

def netPortDhcpServer : UInt16 := 67

def netPortDhcpClient : UInt16 := 68

structure DhcpOffer where
  valid : Bool
  messageType : UInt8
  yourIp : UInt32
  serverId : UInt32
  subnetMask : UInt32
  router : UInt32
  dns : UInt32
  leaseSeconds : UInt32
  deriving DecidableEq

def DhcpOffer.zero : DhcpOffer := ⟨false, 0, 0, 0, 0, 0, 0, 0⟩

/-- The options of the option area with their data, walked up to the end mark or to the first
one that does not fit. The first argument counts the bytes that still belong to the last one. -/
def dhcpOptions : Nat → Bytes → List (UInt8 × Bytes)
  | _, [] => []
  | skip + 1, _ :: rest => dhcpOptions skip rest
  | 0, [_] => []
  | 0, option :: optionLen :: rest =>
      if option = 0 then dhcpOptions 0 (optionLen :: rest)
      else if option = 255 then []
      else if rest.length < optionLen.toNat then []
      else (option, rest.take optionLen.toNat) ::
        dhcpOptions (optionLen.toNat + 1) (optionLen :: rest)

/-- Store the data of an option in the offer. -/
def DhcpOffer.store (offer : DhcpOffer) (option : UInt8 × Bytes) : DhcpOffer :=
  let data := option.2
  if option.1 = 53 ∧ 1 ≤ data.length then { offer with messageType := netByte data 0 }
  else if option.1 = 54 ∧ 4 ≤ data.length then { offer with serverId := netReadBe32 data 0 }
  else if option.1 = 1 ∧ 4 ≤ data.length then { offer with subnetMask := netReadBe32 data 0 }
  else if option.1 = 3 ∧ 4 ≤ data.length then { offer with router := netReadBe32 data 0 }
  else if option.1 = 6 ∧ 4 ≤ data.length then { offer with dns := netReadBe32 data 0 }
  else if option.1 = 51 ∧ 4 ≤ data.length then { offer with leaseSeconds := netReadBe32 data 0 }
  else offer

/-- What a reply brings: the address and the options. -/
structure DhcpReply where
  yourIp : UInt32
  options : List (UInt8 × Bytes)
  deriving DecidableEq

/-- The reply to the transaction that a datagram holds, if it is one. -/
def dhcpReply (clientMac : Bytes) (xid : UInt32) (datagram : UdpDatagram) : Option DhcpReply :=
  let payload := datagram.payload
  if datagram.srcPort ≠ netPortDhcpServer ∨ datagram.dstPort ≠ netPortDhcpClient ∨
      payload.length < 244 then none
  else if netByte payload 0 ≠ 2 ∨ netReadBe32 payload 4 ≠ xid then none
  else if (payload.drop 28).take 6 ≠ clientMac then none
  else if (payload.drop 236).take 4 ≠ [99, 130, 83, 99] then none
  else some ⟨netReadBe32 payload 16, dhcpOptions 0 (payload.drop 240)⟩

def DhcpOffer.apply (offer : DhcpOffer) (reply : DhcpReply) : DhcpOffer :=
  run DhcpOffer.store { offer with yourIp := reply.yourIp } reply.options

/-- The reply received with a frame. -/
def dhcpReceive (clientMac : Bytes) (xid : UInt32) (memory frame : Bytes) : Option DhcpReply :=
  (netReceiveUdp memory frame).bind (dhcpReply clientMac xid)

/-- The receive loop over what each wait cycle delivers. -/
def dhcpWait (clientMac : Bytes) (xid : UInt32) (expectedType : UInt8) (offer : DhcpOffer)
    (memory : Bytes) : List (Option Bytes) → Option DhcpOffer
  | [] => none
  | none :: events => dhcpWait clientMac xid expectedType offer memory events
  | some frame :: events =>
      match dhcpReceive clientMac xid memory frame with
      | none => dhcpWait clientMac xid expectedType offer (netReceive memory frame) events
      | some reply =>
          if (offer.apply reply).messageType ≠ expectedType then
            dhcpWait clientMac xid expectedType (offer.apply reply) (netReceive memory frame) events
          else some { offer.apply reply with valid := true }

/-- The number of wait cycles. -/
def dhcpWaitCycles : Nat := 220

def netstackWaitForDhcp (clientMac : Bytes) (xid : UInt32) (expectedType : UInt8)
    (memory : Bytes) (events : List (Option Bytes)) : Option DhcpOffer :=
  dhcpWait clientMac xid expectedType .zero memory (events.take dhcpWaitCycles)

section Fields

/-- The fields of an offer that an option sets. -/
inductive DhcpField where
  | messageType | serverId | subnetMask | router | dns | leaseSeconds
  deriving DecidableEq

def DhcpField.code : DhcpField → UInt8
  | .messageType => 53
  | .serverId => 54
  | .subnetMask => 1
  | .router => 3
  | .dns => 6
  | .leaseSeconds => 51

/-- The number of bytes that is read. -/
def DhcpField.size : DhcpField → Nat
  | .messageType => 1
  | _ => 4

def DhcpField.value (field : DhcpField) (data : Bytes) : UInt32 :=
  if field = .messageType then (netByte data 0).toUInt32 else netReadBe32 data 0

def DhcpOffer.get (offer : DhcpOffer) : DhcpField → UInt32
  | .messageType => offer.messageType.toUInt32
  | .serverId => offer.serverId
  | .subnetMask => offer.subnetMask
  | .router => offer.router
  | .dns => offer.dns
  | .leaseSeconds => offer.leaseSeconds

/-- The value an option gives to the field. -/
def DhcpField.read (field : DhcpField) (option : UInt8 × Bytes) : Option UInt32 :=
  if option.1 = field.code ∧ field.size ≤ option.2.length then some (field.value option.2) else none

/-- The value a reply gives to the field: that of the last option for it. -/
def DhcpReply.get (reply : DhcpReply) (field : DhcpField) : Option UInt32 :=
  (reply.options.filterMap field.read).getLast?

/-- Storing an option changes the field it is for and no other. -/
theorem get_store (offer : DhcpOffer) (option : UInt8 × Bytes) (field : DhcpField) :
    (offer.store option).get field = (field.read option).getD (offer.get field) := by
  obtain ⟨code, data⟩ := option
  by_cases hread : code = field.code ∧ field.size ≤ data.length
  · rw [DhcpField.read, if_pos hread, Option.getD_some]
    obtain ⟨rfl, hsize⟩ := hread
    cases field <;> simp_all [DhcpOffer.store, DhcpOffer.get, DhcpField.code, DhcpField.size,
      DhcpField.value]
  · rw [DhcpField.read, if_neg hread, Option.getD_none]
    cases field <;> simp only [DhcpOffer.store] <;> split_ifs <;> first | rfl | contradiction

theorem get_apply (offer : DhcpOffer) (reply : DhcpReply) (field : DhcpField) :
    (offer.apply reply).get field = (reply.get field).getD (offer.get field) := by
  have hrun := run_overwrite (fun s : DhcpOffer => s.get field) field.read
    (fun s option => get_store s option field) { offer with yourIp := reply.yourIp } reply.options
  rw [DhcpOffer.apply, hrun, DhcpReply.get]
  cases field <;> rfl

theorem store_keeps (offer : DhcpOffer) (option : UInt8 × Bytes) :
    (offer.store option).valid = offer.valid ∧ (offer.store option).yourIp = offer.yourIp := by
  rw [DhcpOffer.store]
  split_ifs <;> exact ⟨rfl, rfl⟩

theorem apply_keeps (offer : DhcpOffer) (reply : DhcpReply) :
    (offer.apply reply).valid = offer.valid ∧ (offer.apply reply).yourIp = reply.yourIp :=
  run_invariant (I := fun s => s.valid = offer.valid ∧ s.yourIp = reply.yourIp)
    (fun s option h => ⟨(store_keeps s option).1.trans h.1, (store_keeps s option).2.trans h.2⟩)
    (s := { offer with yourIp := reply.yourIp }) ⟨rfl, rfl⟩ reply.options

/-- An offer is made up of its address and its fields. -/
theorem offer_ext {offer offer' : DhcpOffer} (hvalid : offer.valid = offer'.valid)
    (hip : offer.yourIp = offer'.yourIp) (h : ∀ field, offer.get field = offer'.get field) :
    offer = offer' := by
  have htype : offer.messageType = offer'.messageType := by
    have htypes := congrArg UInt32.toUInt8 (h .messageType)
    simpa [DhcpOffer.get] using htypes
  have hserver := h .serverId
  have hmask := h .subnetMask
  have hrouter := h .router
  have hdns := h .dns
  have hlease := h .leaseSeconds
  cases offer
  cases offer'
  simp only [DhcpOffer.get] at *
  subst_vars
  rfl

end Fields

section Wait

variable {clientMac : Bytes} {xid : UInt32} {expectedType : UInt8}

/-- The replies to the transaction among the frames of some wait cycles. -/
def dhcpReplies (clientMac : Bytes) (xid : UInt32) (memory : Bytes) :
    List (Option Bytes) → List DhcpReply
  | [] => []
  | none :: events => dhcpReplies clientMac xid memory events
  | some frame :: events =>
      (dhcpReceive clientMac xid memory frame).toList ++
        dhcpReplies clientMac xid (netReceive memory frame) events

/-- Waiting on after cycles that brought nothing acceptable. -/
theorem dhcpWait_append {offer : DhcpOffer} {memory : Bytes} {before : List (Option Bytes)}
    (h : dhcpWait clientMac xid expectedType offer memory before = none)
    (events : List (Option Bytes)) :
    dhcpWait clientMac xid expectedType offer memory (before ++ events) =
      dhcpWait clientMac xid expectedType
        (run DhcpOffer.apply offer (dhcpReplies clientMac xid memory before))
        (netMemory memory before) events := by
  induction before generalizing offer memory with
  | nil => rfl
  | cons event before ih =>
    cases event with
    | none => exact ih h
    | some frame =>
      rw [dhcpWait] at h
      rw [List.cons_append, dhcpWait, dhcpReplies]
      cases hreply : dhcpReceive clientMac xid memory frame with
      | none =>
        rw [hreply] at h
        exact ih h
      | some reply =>
        rw [hreply] at h
        dsimp only at h ⊢
        by_cases htype : (offer.apply reply).messageType ≠ expectedType
        · rw [if_pos htype] at h ⊢
          exact ih h
        · rw [if_neg htype] at h
          cases h

/-- A wait that succeeds does so at some frame. -/
theorem dhcpWait_split {offer : DhcpOffer} {memory : Bytes} {events : List (Option Bytes)}
    {accepted : DhcpOffer}
    (h : dhcpWait clientMac xid expectedType offer memory events = some accepted) :
    ∃ before frame after, events = before ++ some frame :: after ∧
      dhcpWait clientMac xid expectedType offer memory before = none ∧
      dhcpWait clientMac xid expectedType offer memory (before ++ [some frame]) =
        some accepted := by
  induction events generalizing offer memory with
  | nil => cases h
  | cons event events ih =>
    cases event with
    | none =>
      obtain ⟨before, frame, after, rfl, hbefore, haccepted⟩ := ih h
      exact ⟨none :: before, frame, after, rfl, hbefore, haccepted⟩
    | some frame =>
      rw [dhcpWait] at h
      cases hreply : dhcpReceive clientMac xid memory frame with
      | none =>
        rw [hreply] at h
        obtain ⟨before, last, after, rfl, hbefore, haccepted⟩ := ih h
        refine ⟨some frame :: before, last, after, rfl, ?_, ?_⟩
        · rw [dhcpWait, hreply]
          exact hbefore
        · rw [List.cons_append, dhcpWait, hreply]
          exact haccepted
      | some reply =>
        rw [hreply] at h
        dsimp only at h
        by_cases htype : (offer.apply reply).messageType ≠ expectedType
        · rw [if_pos htype] at h
          obtain ⟨before, last, after, rfl, hbefore, haccepted⟩ := ih h
          refine ⟨some frame :: before, last, after, rfl, ?_, ?_⟩
          · rw [dhcpWait, hreply]
            dsimp only
            rw [if_pos htype]
            exact hbefore
          · rw [List.cons_append, dhcpWait, hreply]
            dsimp only
            rw [if_pos htype]
            exact haccepted
        · rw [if_neg htype] at h
          refine ⟨[], frame, events, rfl, rfl, ?_⟩
          rw [List.nil_append, dhcpWait, hreply]
          dsimp only
          rw [if_neg htype]
          exact h

/-- A single frame is accepted for the type it leaves in the offer. -/
theorem dhcpWait_single {offer accepted : DhcpOffer} {memory frame : Bytes} :
    dhcpWait clientMac xid expectedType offer memory [some frame] = some accepted ↔
      ∃ reply, dhcpReceive clientMac xid memory frame = some reply ∧
        (offer.apply reply).messageType = expectedType ∧
        accepted = { offer.apply reply with valid := true } := by
  rw [dhcpWait]
  cases hreply : dhcpReceive clientMac xid memory frame with
  | none => simp [dhcpWait]
  | some reply =>
    dsimp only
    by_cases htype : (offer.apply reply).messageType = expectedType
    · rw [if_neg (not_not.mpr htype)]
      simp [htype, eq_comm]
    · rw [if_pos htype]
      simp [dhcpWait, htype]

/-- The value a field takes from the replies passed over: that of the last one with an option
for it. -/
def dhcpCarried (clientMac : Bytes) (xid : UInt32) (memory : Bytes) (before : List (Option Bytes))
    (field : DhcpField) : UInt32 :=
  ((dhcpReplies clientMac xid memory before).filterMap fun reply => reply.get field).getLast?.getD 0

/-- The accepted reply reads the same over the initial buffer as over what the frames before it
left there, and a field for which it has no option was last set to zero before, if it was set. -/
def DhcpOwnFields (clientMac : Bytes) (xid : UInt32) (memory : Bytes)
    (before : List (Option Bytes)) (frame : Bytes) : Prop :=
  ∃ alone seen, dhcpReceive clientMac xid memory frame = some alone ∧
    dhcpReceive clientMac xid (netMemory memory before) frame = some seen ∧
    alone.yourIp = seen.yourIp ∧ ∀ field : DhcpField, (alone.get field).getD 0 =
      (seen.get field).getD (dhcpCarried clientMac xid memory before field)

/-- For a frame with honest lengths only the options it lacks matter. -/
theorem dhcpOwnFields_of_checked {memory frame : Bytes} {before : List (Option Bytes)}
    {seen : DhcpReply}
    (hchecked : UdpChecked (netReceive memory frame) (min frame.length netFrameMax))
    (hseen : dhcpReceive clientMac xid (netMemory memory before) frame = some seen) :
    DhcpOwnFields clientMac xid memory before frame ↔ ∀ field : DhcpField,
      seen.get field = none → dhcpCarried clientMac xid memory before field = 0 := by
  have halone : dhcpReceive clientMac xid memory frame = some seen := by
    rw [← hseen, dhcpReceive, dhcpReceive, netReceiveUdp_of_checked hchecked]
  constructor
  · rintro ⟨alone, seen', hreceived, hseen', _, hfields⟩ field hnone
    obtain rfl := Option.some.inj (halone.symm.trans hreceived)
    obtain rfl := Option.some.inj (hseen.symm.trans hseen')
    have hfield := hfields field
    rw [hnone, Option.getD_none, Option.getD_none] at hfield
    exact hfield.symm
  · intro hfields
    refine ⟨seen, seen, halone, hseen, rfl, fun field => ?_⟩
    cases hget : seen.get field with
    | none => rw [Option.getD_none, Option.getD_none, hfields field hget]
    | some value => rw [Option.getD_some, Option.getD_some]

theorem get_zero (field : DhcpField) : DhcpOffer.zero.get field = 0 := by
  cases field <;> rfl

/-- What the offer holds after the replies that were passed over. -/
theorem get_run_apply (replies : List DhcpReply) (field : DhcpField) :
    (run DhcpOffer.apply .zero replies).get field =
      (replies.filterMap fun reply => reply.get field).getLast?.getD 0 := by
  rw [run_overwrite (fun s : DhcpOffer => s.get field) (fun reply : DhcpReply => reply.get field)
    (fun s reply => get_apply s reply field), get_zero]

theorem run_apply_valid (replies : List DhcpReply) :
    (run DhcpOffer.apply .zero replies).valid = false :=
  run_invariant (I := fun s : DhcpOffer => s.valid = false)
    (fun s reply h => (apply_keeps s reply).1.trans h) rfl replies

/-- The accepted offer is that of its own frame exactly when the frame sets its own fields. -/
theorem dhcpWait_own_iff {memory frame : Bytes} {before : List (Option Bytes)}
    {accepted : DhcpOffer}
    (hbefore : dhcpWait clientMac xid expectedType .zero memory before = none)
    (h : dhcpWait clientMac xid expectedType .zero memory (before ++ [some frame]) =
      some accepted) :
    dhcpWait clientMac xid expectedType .zero memory [some frame] = some accepted ↔
      DhcpOwnFields clientMac xid memory before frame := by
  rw [dhcpWait_append hbefore, dhcpWait_single] at h
  obtain ⟨seen, hseen, htype, rfl⟩ := h
  have hvalid := run_apply_valid (dhcpReplies clientMac xid memory before)
  have hget : ∀ field, ((run DhcpOffer.apply .zero
      (dhcpReplies clientMac xid memory before)).apply seen).get field =
        (seen.get field).getD (dhcpCarried clientMac xid memory before field) :=
    fun field => by rw [get_apply, get_run_apply, dhcpCarried]
  generalize run DhcpOffer.apply .zero (dhcpReplies clientMac xid memory before) = carried at *
  have halone : ∀ (reply : DhcpReply) field,
      (DhcpOffer.zero.apply reply).get field = (reply.get field).getD 0 :=
    fun reply field => by rw [get_apply, get_zero]
  rw [dhcpWait_single]
  constructor
  · rintro ⟨alone, hreceived, _, hsame⟩
    refine ⟨alone, seen, hreceived, hseen, ?_, fun field => ?_⟩
    · have hip := congrArg DhcpOffer.yourIp hsame
      exact ((apply_keeps _ alone).2.symm.trans hip.symm).trans (apply_keeps carried seen).2
    · have hfield := congrArg (fun offer : DhcpOffer => offer.get field) hsame
      rw [← halone, ← hget]
      cases field <;> exact hfield.symm
  · rintro ⟨alone, seen', hreceived, hseen', hip, hfields⟩
    obtain rfl := Option.some.inj (hseen.symm.trans hseen')
    have hsame : DhcpOffer.zero.apply alone = carried.apply seen := by
      apply offer_ext
      · rw [(apply_keeps _ _).1, (apply_keeps _ _).1, hvalid]
        rfl
      · rw [(apply_keeps _ _).2, (apply_keeps _ _).2, hip]
      · intro field
        rw [halone, hget, hfields]
    exact ⟨alone, hreceived, by rw [hsame, htype], by rw [hsame]⟩

/-- A wait that succeeds returns the offer of the frame it stopped at alone exactly when that
frame sets its own fields. -/
theorem netstackWaitForDhcp_own_iff {memory : Bytes} {events : List (Option Bytes)}
    {accepted : DhcpOffer}
    (h : netstackWaitForDhcp clientMac xid expectedType memory events = some accepted) :
    ∃ before frame after, events = before ++ some frame :: after ∧
      netstackWaitForDhcp clientMac xid expectedType memory before = none ∧
      netstackWaitForDhcp clientMac xid expectedType memory (before ++ [some frame]) =
        some accepted ∧
      (netstackWaitForDhcp clientMac xid expectedType memory [some frame] = some accepted ↔
        DhcpOwnFields clientMac xid memory before frame) := by
  obtain ⟨before, frame, after, hevents, hbefore, haccepted⟩ := dhcpWait_split h
  have hlength : before.length + 1 ≤ dhcpWaitCycles := by
    have hle := congrArg List.length hevents
    rw [List.length_take, List.length_append, List.length_cons] at hle
    omega
  refine ⟨before, frame, after ++ events.drop dhcpWaitCycles, ?_, ?_, ?_, ?_⟩
  · calc events = events.take dhcpWaitCycles ++ events.drop dhcpWaitCycles :=
          (List.take_append_drop dhcpWaitCycles events).symm
      _ = before ++ some frame :: (after ++ events.drop dhcpWaitCycles) := by
          rw [hevents, List.append_assoc, List.cons_append]
  · rw [netstackWaitForDhcp, List.take_of_length_le (by omega)]
    exact hbefore
  · rw [netstackWaitForDhcp, List.take_of_length_le (by simpa using hlength)]
    exact haccepted
  · exact dhcpWait_own_iff hbefore haccepted

/-- A wait that goes on has not seen the type it waits for. -/
theorem dhcpWait_type_ne {offer : DhcpOffer} {memory : Bytes} {before : List (Option Bytes)}
    (htype : offer.messageType ≠ expectedType)
    (h : dhcpWait clientMac xid expectedType offer memory before = none) :
    (run DhcpOffer.apply offer (dhcpReplies clientMac xid memory before)).messageType ≠
      expectedType := by
  induction before generalizing offer memory with
  | nil => exact htype
  | cons event before ih =>
    cases event with
    | none => exact ih htype h
    | some frame =>
      rw [dhcpWait] at h
      rw [dhcpReplies]
      cases hreply : dhcpReceive clientMac xid memory frame with
      | none =>
        rw [hreply] at h
        exact ih htype h
      | some reply =>
        rw [hreply] at h
        dsimp only at h
        by_cases hnext : (offer.apply reply).messageType ≠ expectedType
        · rw [if_pos hnext] at h
          exact ih hnext h
        · rw [if_neg hnext] at h
          cases h

/-- The frame at which a wait stops brings the address, and the type by an option of its own. -/
theorem netstackWaitForDhcp_carries {memory : Bytes} {events : List (Option Bytes)}
    {accepted : DhcpOffer} (htype : expectedType ≠ 0)
    (h : netstackWaitForDhcp clientMac xid expectedType memory events = some accepted) :
    ∃ before frame seen, some frame ∈ events ∧
      dhcpReceive clientMac xid (netMemory memory before) frame = some seen ∧
      seen.get .messageType = some expectedType.toUInt32 ∧ seen.yourIp = accepted.yourIp := by
  obtain ⟨before, frame, after, hevents, hbefore, haccepted⟩ := dhcpWait_split h
  have hmem : some frame ∈ events := by
    apply List.mem_of_mem_take (i := dhcpWaitCycles)
    rw [hevents]
    exact List.mem_append_right before List.mem_cons_self
  have hcarried := dhcpWait_type_ne (show DhcpOffer.zero.messageType ≠ _ from htype.symm) hbefore
  rw [dhcpWait_append hbefore, dhcpWait_single] at haccepted
  generalize run DhcpOffer.apply .zero (dhcpReplies clientMac xid memory before) = carried at *
  obtain ⟨seen, hseen, hstopped, rfl⟩ := haccepted
  refine ⟨before, frame, seen, hmem, hseen, ?_, (apply_keeps carried seen).2.symm⟩
  have hget := get_apply carried seen .messageType
  rw [DhcpOffer.get, hstopped] at hget
  cases hown : seen.get .messageType with
  | none =>
    rw [hown, Option.getD_none] at hget
    have hsame := congrArg UInt32.toUInt8 hget
    simp only [DhcpOffer.get, UInt8.toUInt8_toUInt32] at hsame
    exact absurd hsame.symm hcarried
  | some value => rw [hget, hown, Option.getD_some]

end Wait

section Stray

def leaseMac : Bytes := [2, 0, 0, 0, 0, 1]

/-- A reply to transaction 7 with the given address and option area. -/
def leasePayload (yourIp : UInt32) (options : Bytes) : Bytes :=
  [2, 1, 6, 0] ++ netWriteBe32 7 ++ List.replicate 8 0 ++ netWriteBe32 yourIp ++
    List.replicate 8 0 ++ leaseMac ++ List.replicate 202 0 ++ [99, 130, 83, 99] ++ options

def leaseFrame (serverIp yourIp : UInt32) (options : Bytes) : Bytes :=
  netBuildUdpFrame leaseMac 0 ⟨none, serverIp, 0xFFFFFFFF, netPortDhcpServer, netPortDhcpClient,
    leasePayload yourIp options⟩

/-- A second offer, from 10.0.2.66, that names this host as the router. -/
def strayFrame : Bytes :=
  leaseFrame 0x0A000242 0x0A000264 [53, 1, 2, 3, 4, 10, 0, 2, 66, 255]

/-- The acknowledgement of the server at 10.0.2.2, for a network without a router. -/
def ackFrame : Bytes :=
  leaseFrame 0x0A000202 0x0A00020F [53, 1, 5, 54, 4, 10, 0, 2, 2, 6, 4, 10, 0, 2, 3, 255]

theorem strayFrame_passed : netstackWaitForDhcp leaseMac 7 5 [] [some strayFrame] = none := by
  decide +kernel

theorem ackFrame_accepted : netstackWaitForDhcp leaseMac 7 5 [] [some strayFrame, some ackFrame] =
    some ⟨true, 5, 0x0A00020F, 0x0A000202, 0, 0x0A000242, 0x0A000203, 0⟩ := by
  decide +kernel

/-- Alone, the acknowledgement gives its own lease. -/
theorem ackFrame_alone : netstackWaitForDhcp leaseMac 7 5 [] [some ackFrame] =
    some ⟨true, 5, 0x0A00020F, 0x0A000202, 0, 0, 0x0A000203, 0⟩ := by
  decide +kernel

/-- The router of an offer that was passed over becomes the router of the lease. -/
theorem not_netstackWaitForDhcp_own : ¬ ∀ (clientMac : Bytes) (xid : UInt32)
    (expectedType : UInt8) (memory : Bytes) (before : List (Option Bytes)) (frame : Bytes)
    (accepted : DhcpOffer),
    netstackWaitForDhcp clientMac xid expectedType memory before = none →
      netstackWaitForDhcp clientMac xid expectedType memory (before ++ [some frame]) =
        some accepted →
      netstackWaitForDhcp clientMac xid expectedType memory [some frame] = some accepted := by
  intro h
  have halone := h leaseMac 7 5 [] [some strayFrame] ackFrame _ strayFrame_passed ackFrame_accepted
  rw [ackFrame_alone] at halone
  exact absurd (Option.some.inj halone) (by decide)

/-- Without the stray offer the lease is that of the acknowledgement. -/
theorem netstackWaitForDhcp_own_iff_ack : ∃ before frame after,
    [some ackFrame] = before ++ some frame :: after ∧
      netstackWaitForDhcp leaseMac 7 5 [] before = none ∧
      netstackWaitForDhcp leaseMac 7 5 [] (before ++ [some frame]) =
        some ⟨true, 5, 0x0A00020F, 0x0A000202, 0, 0, 0x0A000203, 0⟩ ∧
      (netstackWaitForDhcp leaseMac 7 5 [] [some frame] =
          some ⟨true, 5, 0x0A00020F, 0x0A000202, 0, 0, 0x0A000203, 0⟩ ↔
        DhcpOwnFields leaseMac 7 [] before frame) :=
  netstackWaitForDhcp_own_iff ackFrame_alone

end Stray

end SnsxOS.Arm64
