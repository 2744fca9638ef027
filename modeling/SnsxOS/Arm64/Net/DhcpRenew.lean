import SnsxOS.Arm64.Net.DhcpPayload
import SnsxOS.Arm64.Net.Ipv4Text
import SnsxOS.Arm64.Net.Link

/-!
# Renewing a lease

`netstack_renew_dhcp` from the device to the stored lease: a DISCOVER and the wait for an offer, a
REQUEST and the wait for its acknowledgement. Whether a frame is sent, and what each wait cycle
delivers, is given with the call, as is the memory from the receive buffer on that each wait
starts with.

A call that fails leaves the lease and its texts alone. The lease of a call that succeeds is that
of the frame at which the second wait stopped.
-/

namespace SnsxOS.Arm64

open Framework

/-- The address texts of `g_network`. -/
structure AddressTexts where
  ipv4 : Bytes
  subnetMask : Bytes
  gateway : Bytes
  dnsServer : Bytes
  deriving DecidableEq

def addressTextSize : Nat := 24

def netstackSyncStrings (stack : Netstack) : AddressTexts :=
  if stack.configured then {
    ipv4 := netIpToString stack.clientIp addressTextSize
    subnetMask := netIpToString stack.subnetMask addressTextSize
    gateway := netIpToString stack.gatewayIp addressTextSize
    dnsServer := netIpToString stack.dnsIp addressTextSize }
  else {
    ipv4 := strcopyLimit (ascii "Unassigned") addressTextSize
    subnetMask := strcopyLimit (ascii "-") addressTextSize
    gateway := strcopyLimit (ascii "-") addressTextSize
    dnsServer := strcopyLimit (ascii "-") addressTextSize }

/-- The records that a renewal reads and writes. -/
structure RenewState where
  link : LinkState
  texts : AddressTexts
  /-- `g_desktop.hostname` -/
  hostname : Bytes

def RenewState.withStack (s : RenewState) (stack : Netstack) : RenewState :=
  { s with link := { s.link with stack := stack } }

/-- What happens from the sending of a message to the end of the wait for the answer. -/
structure DhcpPhase where
  sent : Bool
  memory : Bytes
  events : List (Option Bytes)

/-- The offer that a phase ends with, if it does not fail. -/
def DhcpPhase.offer (phase : DhcpPhase) (clientMac : Bytes) (xid : UInt32)
    (expectedType : UInt8) : Option DhcpOffer :=
  if phase.sent = false then none
  else (netstackWaitForDhcp clientMac xid expectedType phase.memory phase.events).filter (·.valid)

/-- The frame for a message that was built. -/
def dhcpFrame (stack : Netstack) (built : Bytes × Nat) : Bytes :=
  netBuildUdpFrame stack.clientMac stack.nextIpId ⟨none, 0, 0xFFFFFFFF, netPortDhcpClient,
    netPortDhcpServer, built.1.take built.2⟩

/-- The stack with a frame more sent from it. -/
def Netstack.framed (stack : Netstack) : Netstack :=
  { stack with nextIpId := stack.nextIpId + 1 }

def Netstack.lease (stack : Netstack) (offer : DhcpOffer) : Netstack :=
  { stack with
    configured := true
    staticProfile := false
    clientIp := offer.yourIp
    subnetMask := if offer.subnetMask ≠ 0 then offer.subnetMask else netIpMake 255 255 255 0
    gatewayIp := offer.router
    dnsIp := offer.dns
    leaseSeconds := offer.leaseSeconds
    gatewayMacValid := false }

/-- What a call returns and leaves, with the frames it hands to `net_frame_send`. -/
structure DhcpRenewal where
  result : Bool
  state : RenewState
  frames : List Bytes

/-- The part of `netstack_renew_dhcp` from the choice of a transaction on. There is no result where
a message does not fit the array. -/
def renewExchange (payload : Buffer 320) (discover request : DhcpPhase) (s : RenewState)
    (xid : UInt32) (stack : Netstack) : Option DhcpRenewal :=
  match netstackBuildDhcpPayload s.hostname stack.clientMac payload.cells 320 1 xid 0 0 with
  | none => none
  | some first =>
      if first.2 = 0 then some ⟨false, s.withStack stack, []⟩
      else
        match discover.offer stack.clientMac xid 2 with
        | none => some ⟨false, s.withStack stack.framed, [dhcpFrame stack first]⟩
        | some offer =>
            match netstackBuildDhcpPayload s.hostname stack.clientMac first.1 320 3 xid
                offer.yourIp offer.serverId with
            | none => none
            | some second =>
                let frames := [dhcpFrame stack first, dhcpFrame stack.framed second]
                let stack := stack.framed.framed
                match request.offer stack.clientMac xid 5 with
                | none => some ⟨false, s.withStack stack, frames⟩
                | some ack =>
                    let stack := stack.lease ack
                    some ⟨true, { s.withStack stack with
                      texts := netstackSyncStrings stack }, frames⟩

/-- The transaction of a call over a device, and the stack with it. -/
def renewStack (s : RenewState) (mac : Bytes) : UInt32 × Netstack :=
  netstackRandomNext { s.link.stack with clientMac := mac }

/-- `netstack_renew_dhcp` with its messages and the frames received; `payload` is the array on its
stack. -/
def netstackRenewDhcpOnWire (payload : Buffer 320) (discover request : DhcpPhase)
    (s : RenewState) : Option DhcpRenewal :=
  if s.link.network.initialized = false then some ⟨false, s, []⟩
  else
    match s.link.deviceMac with
    | none => some ⟨false, s, []⟩
    | some mac =>
        renewExchange payload discover request s (renewStack s mac).1 (renewStack s mac).2

section Outcome

variable {s : RenewState} {mac : Bytes} {payload : Buffer 320} {discover request : DhcpPhase}

theorem netstackRenewDhcpOnWire_idle (h : s.link.network.initialized = false) :
    netstackRenewDhcpOnWire payload discover request s = some ⟨false, s, []⟩ := by
  rw [netstackRenewDhcpOnWire, if_pos h]

theorem netstackRenewDhcpOnWire_no_device (hready : s.link.network.initialized = true)
    (hmac : s.link.deviceMac = none) :
    netstackRenewDhcpOnWire payload discover request s = some ⟨false, s, []⟩ := by
  rw [netstackRenewDhcpOnWire, if_neg (by simp [hready]), hmac]

theorem netstackRenewDhcpOnWire_device (hready : s.link.network.initialized = true)
    (hmac : s.link.deviceMac = some mac) :
    netstackRenewDhcpOnWire payload discover request s =
      renewExchange payload discover request s (renewStack s mac).1 (renewStack s mac).2 := by
  rw [netstackRenewDhcpOnWire, if_neg (by simp [hready]), hmac]

/-- The frame of a message. -/
def dhcpMessageFrame (s : RenewState) (stack : Netstack) (messageType : UInt8)
    (xid requestedIp serverId : UInt32) : Bytes :=
  netBuildUdpFrame stack.clientMac stack.nextIpId ⟨none, 0, 0xFFFFFFFF, netPortDhcpClient,
    netPortDhcpServer, dhcpMessage ((cString s.hostname).take 31) stack.clientMac messageType xid
      requestedIp serverId⟩

/-- An exchange without the array that its messages are built in. -/
def renewalOf (discover request : DhcpPhase) (s : RenewState) (xid : UInt32) (stack : Netstack) :
    DhcpRenewal :=
  let first := dhcpMessageFrame s stack 1 xid 0 0
  match discover.offer stack.clientMac xid 2 with
  | none => ⟨false, s.withStack stack.framed, [first]⟩
  | some offer =>
      let frames := [first, dhcpMessageFrame s stack.framed 3 xid offer.yourIp offer.serverId]
      let stack := stack.framed.framed
      match request.offer stack.clientMac xid 5 with
      | none => ⟨false, s.withStack stack, frames⟩
      | some ack =>
          let stack := stack.lease ack
          ⟨true, { s.withStack stack with texts := netstackSyncStrings stack }, frames⟩

theorem dhcpFrame_padded (stack : Netstack) (text : Bytes) :
    dhcpFrame stack (padded 320 text, text.length) = netBuildUdpFrame stack.clientMac
      stack.nextIpId ⟨none, 0, 0xFFFFFFFF, netPortDhcpClient, netPortDhcpServer, text⟩ := by
  rw [dhcpFrame]
  dsimp only
  rw [take_padded]

/-- Both messages fit the array. -/
theorem renewExchange_eq {stack : Netstack} (hmac : stack.clientMac.length = 6) (xid : UInt32) :
    renewExchange payload discover request s xid stack =
      some (renewalOf discover request s xid stack) := by
  have hhost : ((cString s.hostname).take 31).length ≤ 31 :=
    List.length_take_le 31 (cString s.hostname)
  have hlength := dhcpMessage_length_le hmac hhost 1 xid 0 0
  have hpositive : (dhcpMessage ((cString s.hostname).take 31) stack.clientMac 1 xid 0 0).length ≠
      0 := by
    rw [dhcpMessage, List.length_append]
    simp
  have hfirst := netstackBuildDhcpPayload_eq hmac s.hostname payload.cells 1 xid 0 0
    (show 295 ≤ 320 by omega) payload.length_cells
  unfold renewExchange
  simp only [hfirst]
  rw [if_neg hpositive, renewalOf, dhcpFrame_padded]
  cases discover.offer stack.clientMac xid 2 with
  | none => rfl
  | some offer =>
    dsimp only
    have hsecond := netstackBuildDhcpPayload_eq hmac s.hostname
      (padded 320 (dhcpMessage ((cString s.hostname).take 31) stack.clientMac 1 xid 0 0)) 3 xid
      offer.yourIp offer.serverId (show 295 ≤ 320 by omega) (padded_length (by omega))
    rw [hsecond]
    dsimp only
    rw [dhcpFrame_padded]
    cases request.offer stack.framed.framed.clientMac xid 5 with
    | none => rfl
    | some ack => rfl

/-- How far the exchange gets, for the record of the stack. -/
def dhcpExchange (discover request : DhcpPhase) (clientMac : Bytes) (xid : UInt32) :
    DhcpExchange :=
  match discover.offer clientMac xid 2 with
  | none => .noOffer
  | some _ =>
      match request.offer clientMac xid 5 with
      | none => .noAck
      | some ack => .leased ack

theorem framed_framed (stack : Netstack) :
    stack.framed.framed = { stack with nextIpId := stack.nextIpId + 2 } := by
  rw [Netstack.framed, Netstack.framed, UInt16.add_assoc]
  rfl

theorem renewStack_clientMac (s : RenewState) (mac : Bytes) :
    (renewStack s mac).2.clientMac = mac := rfl

theorem renewalOf_link (s : RenewState) (mac : Bytes) :
    let exchange := dhcpExchange discover request mac (renewStack s mac).1
    let r := renewalOf discover request s (renewStack s mac).1 (renewStack s mac).2
    let result := netstackExchangeDhcp exchange { s.link.stack with clientMac := mac }
    (r.result, r.state.link) = (result.1, { s.link with stack := result.2 }) := by
  dsimp only
  rw [renewalOf, dhcpExchange, framed_framed]
  dsimp only
  rw [renewStack_clientMac]
  cases discover.offer mac (renewStack s mac).1 2 with
  | none => rfl
  | some offer =>
    dsimp only
    cases request.offer mac (renewStack s mac).1 5 with
    | none => rfl
    | some ack => rfl

/-- On the records of the link the call is a renewal with the exchange that its frames make. -/
theorem netstackRenewDhcpOnWire_link
    (hlength : ∀ mac, s.link.deviceMac = some mac → mac.length = 6) :
    ∃ exchange r, netstackRenewDhcpOnWire payload discover request s = some r ∧
      (r.result, r.state.link) = netstackRenewDhcp exchange s.link := by
  by_cases hready : s.link.network.initialized = false
  · refine ⟨.noOffer, _, netstackRenewDhcpOnWire_idle hready, ?_⟩
    rw [netstackRenewDhcp, if_pos hready]
  have hready : s.link.network.initialized = true := by simpa using hready
  cases hmac : s.link.deviceMac with
  | none =>
    refine ⟨.noOffer, _, netstackRenewDhcpOnWire_no_device hready hmac, ?_⟩
    rw [netstackRenewDhcp, if_neg (by simp [hready]), hmac]
  | some mac =>
    refine ⟨dhcpExchange discover request mac (renewStack s mac).1, _,
      (netstackRenewDhcpOnWire_device hready hmac).trans
        (renewExchange_eq (hlength mac hmac) _), ?_⟩
    rw [netstackRenewDhcp, if_neg (by simp [hready]), hmac]
    exact renewalOf_link s mac

end Outcome

/-- The lease and its texts are as before. -/
structure SameLease (s s' : RenewState) : Prop where
  configured : s'.link.stack.configured = s.link.stack.configured
  staticProfile : s'.link.stack.staticProfile = s.link.stack.staticProfile
  clientIp : s'.link.stack.clientIp = s.link.stack.clientIp
  subnetMask : s'.link.stack.subnetMask = s.link.stack.subnetMask
  gatewayIp : s'.link.stack.gatewayIp = s.link.stack.gatewayIp
  dnsIp : s'.link.stack.dnsIp = s.link.stack.dnsIp
  leaseSeconds : s'.link.stack.leaseSeconds = s.link.stack.leaseSeconds
  gatewayMac : s'.link.stack.gatewayMac = s.link.stack.gatewayMac
  gatewayMacValid : s'.link.stack.gatewayMacValid = s.link.stack.gatewayMacValid
  texts : s'.texts = s.texts

/-- The frame acknowledges the address to the client: read over an empty buffer, where nothing but
the frame can bring the cookie and the type. -/
def Acknowledges (clientMac : Bytes) (xid yourIp : UInt32) (frame : Bytes) : Prop :=
  ∃ reply, dhcpReceive clientMac xid [] frame = some reply ∧
    reply.get .messageType = some 5 ∧ reply.yourIp = yourIp

/-- The transaction of a message in its frame. -/
def frameXid (frame : Bytes) : UInt32 := netReadBe32 frame (42 + 4)

/-- The address of the lease is that of a received acknowledgement of the DISCOVER. -/
def LeaseAcknowledged (discover request : DhcpPhase) (r : DhcpRenewal) : Prop :=
  ∃ sent frame, r.frames.head? = some sent ∧ some frame ∈ discover.events ++ request.events ∧
    Acknowledges r.state.link.stack.clientMac (frameXid sent) r.state.link.stack.clientIp frame

/-- Every datagram that the wait is given was received as far as it is announced. -/
def DhcpPhase.Received (phase : DhcpPhase) : Prop :=
  ∀ frame, some frame ∈ phase.events →
    PayloadReceived (netReceive [] frame) (min frame.length netFrameMax)

section Renewal

variable {s : RenewState} {mac : Bytes} {payload : Buffer 320} {discover request : DhcpPhase}

theorem SameLease.refl (s : RenewState) : SameLease s s :=
  ⟨rfl, rfl, rfl, rfl, rfl, rfl, rfl, rfl, rfl, rfl⟩

theorem sameLease_renewStack (s : RenewState) (mac : Bytes) :
    SameLease s (s.withStack (renewStack s mac).2) :=
  ⟨rfl, rfl, rfl, rfl, rfl, rfl, rfl, rfl, rfl, rfl⟩

theorem SameLease.framed {stack : Netstack} (h : SameLease s (s.withStack stack)) :
    SameLease s (s.withStack stack.framed) :=
  ⟨h.configured, h.staticProfile, h.clientIp, h.subnetMask, h.gatewayIp, h.dnsIp, h.leaseSeconds,
    h.gatewayMac, h.gatewayMacValid, h.texts⟩

/-- An exchange that fails has only taken the address of the device and drawn numbers. -/
theorem renewalOf_sameLease (mac : Bytes) (xid : UInt32)
    (h : (renewalOf discover request s xid (renewStack s mac).2).result = false) :
    SameLease s (renewalOf discover request s xid (renewStack s mac).2).state := by
  have hstart := sameLease_renewStack s mac
  generalize (renewStack s mac).2 = stack at h hstart ⊢
  rw [renewalOf] at h ⊢
  dsimp only at h ⊢
  split
  · exact hstart.framed
  · rename_i offer hoffer
    rw [hoffer] at h
    dsimp only at h
    split
    · exact hstart.framed.framed
    · rename_i ack hack
      rw [hack] at h
      cases h

theorem DhcpPhase.wait_of_offer {phase : DhcpPhase} {xid : UInt32} {expectedType : UInt8}
    {offer : DhcpOffer} (h : phase.offer mac xid expectedType = some offer) :
    netstackWaitForDhcp mac xid expectedType phase.memory phase.events = some offer := by
  rw [DhcpPhase.offer] at h
  split at h
  · cases h
  · exact (Option.filter_eq_some_iff.mp h).1

/-- The frame at which a wait stops is an acknowledgement by itself, where all datagrams were
received as announced. -/
theorem acknowledges_of_offer {xid : UInt32} {ack : DhcpOffer} (hreceived : request.Received)
    (h : request.offer mac xid 5 = some ack) :
    ∃ frame, some frame ∈ request.events ∧ Acknowledges mac xid ack.yourIp frame := by
  obtain ⟨before, frame, seen, hmem, hseen, htype, hip⟩ :=
    netstackWaitForDhcp_carries (by decide) (DhcpPhase.wait_of_offer h)
  refine ⟨frame, hmem, seen, ?_, htype, hip⟩
  rw [← hseen, dhcpReceive, dhcpReceive, netReceiveUdp_of_received (hreceived frame hmem)]

/-- The frame of a message carries its transaction. -/
theorem frameXid_message {stack : Netstack} (hlength : stack.clientMac.length = 6)
    (messageType : UInt8) (xid requestedIp serverId : UInt32) :
    frameXid (dhcpMessageFrame s stack messageType xid requestedIp serverId) = xid := by
  have hmessage := netReadBe32_dhcpMessage ((cString s.hostname).take 31) stack.clientMac
    messageType xid requestedIp serverId []
  rw [List.append_nil] at hmessage
  rw [dhcpMessageFrame, frameXid, netReadBe32_netBuildUdpFrame hlength rfl]
  exact hmessage

theorem renewalOf_acknowledged {xid : UInt32} {stack : Netstack}
    (hlength : stack.clientMac.length = 6) (hreceived : request.Received)
    (h : (renewalOf discover request s xid stack).result = true) :
    LeaseAcknowledged discover request (renewalOf discover request s xid stack) := by
  rw [renewalOf] at h ⊢
  cases hoffer : discover.offer stack.clientMac xid 2 with
  | none =>
    rw [hoffer] at h
    cases h
  | some offer =>
    rw [hoffer] at h
    dsimp only at h ⊢
    cases hack : request.offer stack.framed.framed.clientMac xid 5 with
    | none =>
      rw [hack] at h
      cases h
    | some ack =>
      obtain ⟨frame, hmem, hframe⟩ := acknowledges_of_offer hreceived hack
      refine ⟨_, frame, rfl, List.mem_append_right _ hmem, ?_⟩
      rw [frameXid_message hlength]
      exact hframe

end Renewal


/-- A call that fails leaves the lease and its texts as they were. A call that succeeds after a
second wait in which every datagram was received as announced has taken the address from an
acknowledgement of its DISCOVER. -/
theorem netstackRenewDhcpOnWire_sound {s : RenewState}
    (hlength : ∀ mac, s.link.deviceMac = some mac → mac.length = 6) (payload : Buffer 320)
    (discover request : DhcpPhase) :
    ∃ r, netstackRenewDhcpOnWire payload discover request s = some r ∧
      (r.result = false → SameLease s r.state) ∧
      (request.Received → r.result = true → LeaseAcknowledged discover request r) := by
  cases hready : s.link.network.initialized with
  | false =>
    refine ⟨_, netstackRenewDhcpOnWire_idle hready, fun _ => SameLease.refl s, fun _ h => ?_⟩
    cases h
  | true =>
    cases hmac : s.link.deviceMac with
    | none =>
      refine ⟨_, netstackRenewDhcpOnWire_no_device hready hmac, fun _ => SameLease.refl s,
        fun _ h => ?_⟩
      cases h
    | some mac =>
      exact ⟨_, (netstackRenewDhcpOnWire_device hready hmac).trans
        (renewExchange_eq (hlength mac hmac) _), renewalOf_sameLease mac _,
        renewalOf_acknowledged (hlength mac hmac)⟩

section Stale

/-- A card that is up, on a stack whose next transaction is 7. -/
def renewStart : RenewState where
  link := ⟨{ Netstack.zero with xid := 0xC9083BDE }, { Network.zero with initialized := true },
    ⟨none, true, true, leaseMac⟩, 0⟩
  texts := netstackSyncStrings .zero
  hostname := ascii "snsx"

theorem renewStart_length : ∀ mac, renewStart.link.deviceMac = some mac → mac.length = 6 := by
  intro mac h
  obtain rfl : leaseMac = mac := Option.some.inj h
  rfl

/-- The offer of 10.0.2.15. -/
def offered : DhcpPhase :=
  ⟨true, [], [some (leaseFrame 0x0A000202 0x0A00020F [53, 1, 2, 54, 4, 10, 0, 2, 2, 255])]⟩

/-- The exchange that starts with the offer. -/
def startRenewal (request : DhcpPhase) : DhcpRenewal :=
  renewalOf offered request renewStart (renewStack renewStart leaseMac).1
    (renewStack renewStart leaseMac).2

theorem startRenewal_eq (payload : Buffer 320) (request : DhcpPhase) :
    netstackRenewDhcpOnWire payload offered request renewStart = some (startRenewal request) :=
  (netstackRenewDhcpOnWire_device rfl rfl).trans (renewExchange_eq rfl _)

def acknowledged : DhcpPhase := ⟨true, [], [some ackFrame]⟩

theorem acknowledged_received : acknowledged.Received := by
  intro frame hframe
  obtain rfl : frame = ackFrame := Option.some.inj (List.mem_singleton.mp hframe)
  exact UdpChecked.payloadReceived (by decide +kernel)

/-- The offer is acknowledged, and the lease is that of the acknowledgement. -/
theorem netstackRenewDhcpOnWire_sound_acknowledged :
    ∃ r, netstackRenewDhcpOnWire (Buffer.zero 320) offered acknowledged renewStart = some r ∧
      r.result = true ∧ LeaseAcknowledged offered acknowledged r := by
  obtain ⟨r, hr, -, hlease⟩ := netstackRenewDhcpOnWire_sound renewStart_length (Buffer.zero 320)
    offered acknowledged
  have hresult : r.result = true := by
    obtain rfl := Option.some.inj ((startRenewal_eq _ _).symm.trans hr)
    decide +kernel
  exact ⟨r, hr, hresult, hlease acknowledged_received hresult⟩

/-- An acknowledgement of 10.0.2.99 that does not come from the port of a server. -/
def foreignFrame : Bytes :=
  netBuildUdpFrame leaseMac 0 ⟨none, 0x0A000263, 0xFFFFFFFF, netPortDhcpClient, netPortDhcpClient,
    leasePayload 0x0A000263 [53, 1, 5, 255]⟩

/-- A reply for 10.0.2.66 that ends before its options. -/
def shortFrame : Bytes := (leaseFrame 0x0A000202 0x0A000242 [53, 1, 5, 255]).take 282

/-- The options of the foreign frame are read behind the short one. -/
def stale : DhcpPhase := ⟨true, [], [some foreignFrame, some shortFrame]⟩

instance (clientMac : Bytes) (xid yourIp : UInt32) (frame : Bytes) :
    Decidable (Acknowledges clientMac xid yourIp frame) :=
  inferInstanceAs (Decidable (∃ reply ∈ dhcpReceive clientMac xid [] frame,
    reply.get .messageType = some 5 ∧ reply.yourIp = yourIp))

theorem stale_not_acknowledged : ∀ event ∈ offered.events ++ stale.events, ∀ frame ∈ event,
    ¬ Acknowledges leaseMac 7 0x0A000242 frame := by
  decide +kernel

theorem stale_leased : (startRenewal stale).result = true ∧
    (startRenewal stale).state.link.stack.clientIp = 0x0A000242 ∧
    (startRenewal stale).state.link.stack.clientMac = leaseMac ∧
    (startRenewal stale).frames.head?.map frameXid = some 7 := by
  decide +kernel

/-- The address of a short frame becomes the lease, though no received frame acknowledges it. -/
theorem not_netstackRenewDhcpOnWire_sound : ¬ ∀ (s : RenewState) (payload : Buffer 320)
    (discover request : DhcpPhase) (r : DhcpRenewal),
    (∀ mac, s.link.deviceMac = some mac → mac.length = 6) →
      netstackRenewDhcpOnWire payload discover request s = some r → r.result = true →
        LeaseAcknowledged discover request r := by
  intro h
  obtain ⟨hresult, hip, hmac, hxid⟩ := stale_leased
  obtain ⟨sent, frame, hsent, hmem, hframe⟩ := h renewStart (Buffer.zero 320) offered stale
    (startRenewal stale) renewStart_length (startRenewal_eq _ _) hresult
  rw [hsent, Option.map_some] at hxid
  rw [hmac, hip, Option.some.inj hxid] at hframe
  exact stale_not_acknowledged (some frame) hmem frame rfl hframe

end Stale

end SnsxOS.Arm64
