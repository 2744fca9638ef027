import SnsxOS.Arm64.Net.DhcpRenew

/-!
# The DHCP handshake

A renewal together with the servers of its network. A server writes whole messages: every field
of the lease has an option, in any order and among any other options. It answers frames of the
client, and a message it has sent may arrive late, more than once, in another order or never.

The lease of the client is always one that a server acknowledged, for the request in which the
client named the address and the server of an offer.
-/

namespace SnsxOS.Arm64

open Framework

/-- The payload of a datagram is cut out of the frame where the parser says. -/
theorem netSlice_eq {memory : Bytes} {offset length : Nat} (h : offset + length ≤ memory.length) :
    netSlice memory offset length = (memory.drop offset).take length := by
  apply List.ext_getElem
  · rw [netSlice, List.length_map, List.length_range, List.length_take, List.length_drop]
    omega
  · intro i hi _
    have hlength : i < length := by simpa [netSlice] using hi
    simp [netSlice, netByte, List.getElem?_eq_getElem (show offset + i < memory.length by omega)]

/-- A datagram that was built is received as it went in. -/
theorem netUdpDatagram_build {clientMac : Bytes} {frame : UdpFrame} (hclient : clientMac.length = 6)
    (hdest : ∀ mac ∈ frame.dstMac, mac.length = 6)
    (hpayload : frame.payload.length ≤ netUdpPayloadMax) (ipId : UInt16) (rest : Bytes) :
    netUdpDatagram (netBuildUdpFrame clientMac ipId frame ++ rest)
        (netBuildUdpFrame clientMac ipId frame).length =
      some ⟨frame.srcIp, frame.dstIp, frame.srcPort, frame.dstPort, frame.payload⟩ := by
  have hmax : netUdpPayloadMax = 2006 := rfl
  have hlength := netBuildUdpFrame_length hclient hdest ipId
  have hinside : 42 + frame.payload.length ≤
      (netBuildUdpFrame clientMac ipId frame ++ rest).length := by
    rw [List.length_append, hlength]
    exact Nat.le_add_right _ _
  rw [netUdpDatagram, netParseUdpPacket_build hclient hdest (by omega), Option.map_some,
    netSlice_eq hinside, payload_netBuildUdpFrame hclient hdest]

theorem netReceiveUdp_build {clientMac : Bytes} {frame : UdpFrame} (hclient : clientMac.length = 6)
    (hdest : ∀ mac ∈ frame.dstMac, mac.length = 6)
    (hpayload : frame.payload.length ≤ netUdpPayloadMax) (ipId : UInt16) (memory : Bytes) :
    netReceiveUdp memory (netBuildUdpFrame clientMac ipId frame) =
      some ⟨frame.srcIp, frame.dstIp, frame.srcPort, frame.dstPort, frame.payload⟩ := by
  have hmax : netUdpPayloadMax = 2006 := rfl
  have hlength := netBuildUdpFrame_length hclient hdest ipId
  have hfits : (netBuildUdpFrame clientMac ipId frame).length ≤ netFrameMax := by
    rw [hlength, netFrameMax]
    omega
  rw [netReceiveUdp, netReceive, List.take_of_length_le hfits, Nat.min_eq_left hfits]
  exact netUdpDatagram_build hclient hdest hpayload ipId _

/-! ## Messages of a server -/

structure DhcpLease where
  yourIp : UInt32
  subnetMask : UInt32
  router : UInt32
  dns : UInt32
  leaseSeconds : UInt32
  deriving DecidableEq

/-- What a message of a server says, and to whom. -/
structure DhcpEntry where
  messageType : UInt8
  clientMac : Bytes
  xid : UInt32
  serverId : UInt32
  lease : DhcpLease
  deriving DecidableEq

/-- The offer that a client reads off the message. -/
def DhcpEntry.offer (entry : DhcpEntry) : DhcpOffer where
  valid := true
  messageType := entry.messageType
  yourIp := entry.lease.yourIp
  serverId := entry.serverId
  subnetMask := entry.lease.subnetMask
  router := entry.lease.router
  dns := entry.lease.dns
  leaseSeconds := entry.lease.leaseSeconds

/-- The fixed part of a message where a client does not look, and the headers of its frame. -/
structure DhcpEnvelope where
  hops : UInt8
  times : Bytes
  relays : Bytes
  names : Bytes
  serverMac : Bytes
  dstMac : Option Bytes
  srcIp : UInt32
  dstIp : UInt32
  ipId : UInt16
  times_length : times.length = 8
  relays_length : relays.length = 8
  names_length : names.length = 202
  serverMac_length : serverMac.length = 6
  dstMac_length : ∀ mac ∈ dstMac, mac.length = 6

/-- A message of a server. The last option for each field holds its value. -/
structure DhcpServerMessage where
  entry : DhcpEntry
  envelope : DhcpEnvelope
  options : List (UInt8 × Bytes)
  clientMac_length : entry.clientMac.length = 6
  proper : ∀ option ∈ options, ProperOption option
  complete : ∀ field, (DhcpReply.mk entry.lease.yourIp options).get field =
    some (entry.offer.get field)
  fits : (encodeOptions options).length ≤ 1765

namespace DhcpServerMessage

variable (m : DhcpServerMessage)

/-- The fields in front of the options. -/
def header : Bytes :=
  [2, 1, 6, m.envelope.hops] ++ netWriteBe32 m.entry.xid ++ m.envelope.times ++
    netWriteBe32 m.entry.lease.yourIp ++ m.envelope.relays ++ m.entry.clientMac ++
      m.envelope.names ++ [99, 130, 83, 99]

def payload : Bytes := m.header ++ (encodeOptions m.options ++ [255])

def datagram : UdpFrame :=
  ⟨m.envelope.dstMac, m.envelope.srcIp, m.envelope.dstIp, netPortDhcpServer, netPortDhcpClient,
    m.payload⟩

def frame : Bytes := netBuildUdpFrame m.envelope.serverMac m.envelope.ipId m.datagram

theorem header_length : m.header.length = 240 := by
  simp [header, netWriteBe32_length, m.envelope.times_length, m.envelope.relays_length,
    m.envelope.names_length, m.clientMac_length]

theorem payload_length_le : m.payload.length ≤ netUdpPayloadMax := by
  have hmax : netUdpPayloadMax = 2006 := rfl
  have hfits := m.fits
  rw [payload, List.length_append, m.header_length, List.length_append, List.length_singleton]
  omega

/-- The option for the type takes three bytes at least. -/
theorem le_payload_length : 244 ≤ m.payload.length := by
  have hoptions : 3 ≤ (encodeOptions m.options).length := by
    have htype := m.complete .messageType
    rw [DhcpReply.get] at htype
    have hread := List.mem_of_getLast? htype
    obtain ⟨option, hmem, hoption⟩ := List.mem_filterMap.mp hread
    have hsize : 1 ≤ option.2.length := by
      by_contra hshort
      rw [DhcpField.read, if_neg (fun h => hshort h.2)] at hoption
      cases hoption
    obtain ⟨before, after, hsplit⟩ := List.append_of_mem hmem
    change m.options = _ at hsplit
    rw [hsplit, encodeOptions_append, encodeOptions, encodeOptions, List.flatMap_cons]
    simp only [List.length_append, encodeOption, List.length_cons]
    omega
  rw [payload, List.length_append, m.header_length, List.length_append, List.length_singleton]
  omega

/-- What a wait reads off the payload, wherever the message was sent from. -/
theorem dhcpReply_payload (clientMac : Bytes) (xid : UInt32) :
    dhcpReply clientMac xid ⟨m.envelope.srcIp, m.envelope.dstIp, netPortDhcpServer,
        netPortDhcpClient, m.payload⟩ =
      if m.entry.clientMac = clientMac ∧ m.entry.xid = xid then
        some ⟨m.entry.lease.yourIp, m.options⟩
      else none := by
  have htimes := m.envelope.times_length
  have hrelays := m.envelope.relays_length
  have hnames := m.envelope.names_length
  have hmac := m.clientMac_length
  have hlong := m.le_payload_length
  have hxid : netReadBe32 m.payload 4 = m.entry.xid := by
    simp only [payload, header, List.append_assoc]
    exact netReadBe32_write [2, 1, 6, m.envelope.hops] _ m.entry.xid rfl
  have hip : netReadBe32 m.payload 16 = m.entry.lease.yourIp := by
    have hfront : m.payload = ([2, 1, 6, m.envelope.hops] ++ netWriteBe32 m.entry.xid ++
        m.envelope.times) ++ (netWriteBe32 m.entry.lease.yourIp ++ (m.envelope.relays ++
          (m.entry.clientMac ++ (m.envelope.names ++ ([99, 130, 83, 99] ++
            (encodeOptions m.options ++ [255])))))) := by
      simp only [payload, header, List.append_assoc]
    rw [hfront]
    apply netReadBe32_write
    simp [netWriteBe32_length, htimes]
  have hclient : (m.payload.drop 28).take 6 = m.entry.clientMac := by
    have hfront : m.payload = ([2, 1, 6, m.envelope.hops] ++ netWriteBe32 m.entry.xid ++
        m.envelope.times ++ netWriteBe32 m.entry.lease.yourIp ++ m.envelope.relays) ++
          (m.entry.clientMac ++ (m.envelope.names ++ ([99, 130, 83, 99] ++
            (encodeOptions m.options ++ [255])))) := by
      simp only [payload, header, List.append_assoc]
    rw [hfront, List.drop_left' (by simp [netWriteBe32_length, htimes, hrelays]),
      List.take_left' hmac]
  have hcookie : (m.payload.drop 236).take 4 = [99, 130, 83, 99] := by
    have hfront : m.payload = ([2, 1, 6, m.envelope.hops] ++ netWriteBe32 m.entry.xid ++
        m.envelope.times ++ netWriteBe32 m.entry.lease.yourIp ++ m.envelope.relays ++
          m.entry.clientMac ++ m.envelope.names) ++ ([99, 130, 83, 99] ++
            (encodeOptions m.options ++ [255])) := by
      simp only [payload, header, List.append_assoc]
    rw [hfront, List.drop_left' (by simp [netWriteBe32_length, htimes, hrelays, hnames, hmac])]
    rfl
  have hoptions : dhcpOptions 0 (m.payload.drop 240) = m.options := by
    rw [payload, List.drop_left' m.header_length]
    exact dhcpOptions_encode m.proper []
  have hreply : netByte m.payload 0 = 2 := by
    simp only [payload, header, List.append_assoc]
    rfl
  simp only [dhcpReply, hxid, hip, hclient, hcookie, hoptions, hreply]
  by_cases hxid' : m.entry.xid = xid
  · by_cases hmac' : m.entry.clientMac = clientMac
    · simp [hxid', hmac', hlong]
    · simp [hxid', hmac']
  · simp [hxid']

/-- The frame brings its payload, whatever the receive buffer held before. -/
theorem netReceiveUdp_frame (memory : Bytes) :
    netReceiveUdp memory m.frame = some ⟨m.envelope.srcIp, m.envelope.dstIp, netPortDhcpServer,
      netPortDhcpClient, m.payload⟩ :=
  netReceiveUdp_build m.envelope.serverMac_length m.envelope.dstMac_length m.payload_length_le
    m.envelope.ipId memory

theorem dhcpReceive_frame (clientMac : Bytes) (xid : UInt32) (memory : Bytes) :
    dhcpReceive clientMac xid memory m.frame =
      if m.entry.clientMac = clientMac ∧ m.entry.xid = xid then
        some ⟨m.entry.lease.yourIp, m.options⟩
      else none := by
  rw [dhcpReceive, netReceiveUdp_frame, Option.bind_some, dhcpReply_payload]

/-- Read on top of any offer, the message leaves nothing of it. -/
theorem apply_options (offer : DhcpOffer) :
    { offer.apply ⟨m.entry.lease.yourIp, m.options⟩ with valid := true } = m.entry.offer := by
  apply offer_ext
  · rfl
  · exact (apply_keeps offer ⟨m.entry.lease.yourIp, m.options⟩).2
  · intro field
    have hget := get_apply offer ⟨m.entry.lease.yourIp, m.options⟩ field
    rw [m.complete field, Option.getD_some] at hget
    rw [← hget]
    cases field <;> rfl

end DhcpServerMessage


/-! ## Waiting for a server -/

section Wait

variable {clientMac : Bytes} {xid : UInt32} {expectedType : UInt8}

/-- A frame that is no offer to the client and no acknowledgement, in any transaction and whatever
the buffer held before: no reply at all, or one of another type, such as a refusal. -/
def ForeignFrame (clientMac frame : Bytes) : Prop :=
  ∀ xid memory reply, dhcpReceive clientMac xid memory frame = some reply →
    ∃ type : UInt8, reply.get .messageType = some type.toUInt32 ∧ type ≠ 2 ∧ type ≠ 5

/-- Every received frame is a message that was sent, or foreign. -/
def FromServers (clientMac : Bytes) (sent : List DhcpServerMessage)
    (events : List (Option Bytes)) : Prop :=
  ∀ frame, some frame ∈ events → ForeignFrame clientMac frame ∨ ∃ m ∈ sent, m.frame = frame

/-- The message answers the transaction with the type that is waited for. -/
def DhcpEntry.Expected (entry : DhcpEntry) (clientMac : Bytes) (xid : UInt32)
    (expectedType : UInt8) : Prop :=
  entry.clientMac = clientMac ∧ entry.xid = xid ∧ entry.messageType = expectedType

theorem ForeignFrame.apply_messageType {frame memory : Bytes} {reply : DhcpReply}
    (h : ForeignFrame clientMac frame)
    (hreceive : dhcpReceive clientMac xid memory frame = some reply)
    (hexpected : expectedType = 2 ∨ expectedType = 5) (offer : DhcpOffer) :
    (offer.apply reply).messageType ≠ expectedType := by
  obtain ⟨type, htype, hoffer, hack⟩ := h xid memory reply hreceive
  have hget := get_apply offer reply .messageType
  rw [htype, Option.getD_some] at hget
  have hsame : (offer.apply reply).messageType = type := UInt8.toUInt32_inj.mp hget
  rw [hsame]
  rcases hexpected with rfl | rfl
  · exact hoffer
  · exact hack

/-- A wait that succeeds ends with the offer of one message. -/
theorem netstackWaitForDhcp_sent {memory : Bytes} {events : List (Option Bytes)}
    {accepted : DhcpOffer} {sent : List DhcpServerMessage}
    (hexpected : expectedType = 2 ∨ expectedType = 5)
    (hevents : FromServers clientMac sent events)
    (h : netstackWaitForDhcp clientMac xid expectedType memory events = some accepted) :
    ∃ m ∈ sent, m.entry.Expected clientMac xid expectedType ∧ accepted = m.entry.offer := by
  obtain ⟨before, frame, after, hsplit, hbefore, haccepted⟩ := dhcpWait_split h
  have hmem : some frame ∈ events := by
    apply List.mem_of_mem_take (i := dhcpWaitCycles)
    rw [hsplit]
    exact List.mem_append_right before List.mem_cons_self
  rw [dhcpWait_append hbefore, dhcpWait_single] at haccepted
  obtain ⟨reply, hreceive, htype, rfl⟩ := haccepted
  rcases hevents frame hmem with hforeign | ⟨m, hm, rfl⟩
  · exact absurd htype (hforeign.apply_messageType hreceive hexpected _)
  · rw [m.dhcpReceive_frame] at hreceive
    by_cases hmatch : m.entry.clientMac = clientMac ∧ m.entry.xid = xid
    · rw [if_pos hmatch] at hreceive
      obtain rfl := Option.some.inj hreceive
      have happly := m.apply_options (run DhcpOffer.apply .zero
        (dhcpReplies clientMac xid memory before))
      refine ⟨m, hm, ⟨hmatch.1, hmatch.2, ?_⟩, happly⟩
      rw [← htype]
      exact (congrArg DhcpOffer.messageType happly).symm
    · rw [if_neg hmatch] at hreceive
      cases hreceive

/-- A frame that the wait passes over. -/
def PassedOver (clientMac : Bytes) (xid : UInt32) (expectedType : UInt8) (frame : Bytes) : Prop :=
  ForeignFrame clientMac frame ∨
    ∃ m : DhcpServerMessage, m.frame = frame ∧ ¬ m.entry.Expected clientMac xid expectedType

theorem dhcpWait_passedOver {offer : DhcpOffer} {memory : Bytes} {before : List (Option Bytes)}
    (hexpected : expectedType = 2 ∨ expectedType = 5)
    (h : ∀ frame, some frame ∈ before → PassedOver clientMac xid expectedType frame) :
    dhcpWait clientMac xid expectedType offer memory before = none := by
  induction before generalizing offer memory with
  | nil => rfl
  | cons event before ih =>
    have hrest : ∀ frame, some frame ∈ before → PassedOver clientMac xid expectedType frame :=
      fun frame hframe => h frame (List.mem_cons_of_mem _ hframe)
    cases event with
    | none => exact ih hrest
    | some frame =>
      rw [dhcpWait]
      rcases h frame List.mem_cons_self with hforeign | ⟨m, rfl, hother⟩
      · cases hreceive : dhcpReceive clientMac xid memory frame with
        | none => exact ih hrest
        | some reply =>
          dsimp only
          rw [if_pos (hforeign.apply_messageType hreceive hexpected offer)]
          exact ih hrest
      · rw [m.dhcpReceive_frame]
        by_cases hmatch : m.entry.clientMac = clientMac ∧ m.entry.xid = xid
        · have happly := congrArg DhcpOffer.messageType (m.apply_options offer)
          have htype : (offer.apply ⟨m.entry.lease.yourIp, m.options⟩).messageType ≠
              expectedType := fun heq => hother ⟨hmatch.1, hmatch.2, happly.symm.trans heq⟩
          rw [if_pos hmatch]
          dsimp only
          rw [if_pos htype]
          exact ih hrest
        · rw [if_neg hmatch]
          exact ih hrest

/-- The message comes before the wait gives up, and nothing acceptable before it. -/
structure DhcpPhase.Delivers (phase : DhcpPhase) (clientMac : Bytes) (xid : UInt32)
    (expectedType : UInt8) (m : DhcpServerMessage) : Prop where
  sent : phase.sent = true
  inTime : ∃ before after, phase.events = before ++ some m.frame :: after ∧
    before.length < dhcpWaitCycles ∧
    ∀ frame, some frame ∈ before → PassedOver clientMac xid expectedType frame

/-- A wait ends with the offer of the message that comes in time. -/
theorem DhcpPhase.Delivers.offer {phase : DhcpPhase} {m : DhcpServerMessage}
    (h : phase.Delivers clientMac xid expectedType m)
    (hwaits : expectedType = 2 ∨ expectedType = 5)
    (hexpected : m.entry.Expected clientMac xid expectedType) :
    phase.offer clientMac xid expectedType = some m.entry.offer := by
  obtain ⟨hmac, hxid, htype⟩ := hexpected
  obtain ⟨before, after, hevents, hlength, hbefore⟩ := h.inTime
  have hnone : dhcpWait clientMac xid expectedType .zero phase.memory before = none :=
    dhcpWait_passedOver hwaits hbefore
  obtain ⟨cycles, hcycles⟩ := Nat.exists_eq_add_of_lt hlength
  have htake : phase.events.take dhcpWaitCycles =
      before ++ some m.frame :: after.take cycles := by
    rw [hevents, hcycles, Nat.add_assoc, List.take_length_add_append, List.take_succ_cons]
  have happly := m.apply_options (run DhcpOffer.apply .zero
    (dhcpReplies clientMac xid phase.memory before))
  have hmessage := congrArg DhcpOffer.messageType happly
  have hwait : netstackWaitForDhcp clientMac xid expectedType phase.memory phase.events =
      some m.entry.offer := by
    rw [netstackWaitForDhcp, htake, dhcpWait_append hnone, dhcpWait, m.dhcpReceive_frame,
      if_pos ⟨hmac, hxid⟩]
    dsimp only
    rw [if_neg (not_not.mpr (hmessage.trans htype)), happly]
  rw [DhcpPhase.offer, if_neg (by simp [h.sent]), hwait]
  rfl

end Wait


/-! ## What a server reads -/

/-- A frame of a client as a server reads it. -/
structure DhcpRequest where
  clientMac : Bytes
  xid : UInt32
  options : List (UInt8 × Bytes)
  deriving DecidableEq

def dhcpRequest (frame : Bytes) : Option DhcpRequest :=
  (netUdpDatagram frame frame.length).bind fun datagram =>
    if datagram.dstPort ≠ netPortDhcpServer ∨ datagram.payload.length < 244 ∨
        netByte datagram.payload 0 ≠ 1 then none
    else some ⟨(datagram.payload.drop 28).take 6, netReadBe32 datagram.payload 4,
      dhcpOptions 0 (datagram.payload.drop 240)⟩

/-- A server offers to who asks for offers, and acknowledges to who asks for its address. -/
def DhcpEntry.Answers (entry : DhcpEntry) (asked : DhcpRequest) : Prop :=
  entry.clientMac = asked.clientMac ∧ entry.xid = asked.xid ∧
    (entry.messageType = 2 ∧ (53, [1]) ∈ asked.options ∨
      entry.messageType = 5 ∧ (53, [3]) ∈ asked.options ∧
        (50, netWriteBe32 entry.lease.yourIp) ∈ asked.options ∧
          (54, netWriteBe32 entry.serverId) ∈ asked.options)

/-- The name of the host in its messages. -/
def RenewState.host (s : RenewState) : Bytes := (cString s.hostname).take 31

/-- The message of a client is read as it was meant. -/
theorem dhcpRequest_message {stack : Netstack} (hmac : stack.clientMac.length = 6)
    (s : RenewState) (messageType : UInt8) (xid requestedIp serverId : UInt32) :
    dhcpRequest (dhcpMessageFrame s stack messageType xid requestedIp serverId) =
      some ⟨stack.clientMac, xid, dhcpRequestOptions s.host messageType requestedIp serverId⟩ := by
  have hmax : netUdpPayloadMax = 2006 := rfl
  have hhost : s.host.length ≤ 31 := List.length_take_le 31 _
  have hproper := dhcpRequestOptions_proper hhost messageType requestedIp serverId
  have hheader := dhcpHeader_length hmac xid
  have hxid := netReadBe32_dhcpMessage s.host stack.clientMac messageType xid requestedIp
    serverId []
  have hlength := dhcpMessage_length_le hmac hhost messageType xid requestedIp serverId
  have hoptions : dhcpOptions 0
      ((dhcpMessage s.host stack.clientMac messageType xid requestedIp serverId).drop 240) =
        dhcpRequestOptions s.host messageType requestedIp serverId := by
    rw [dhcpMessage, List.append_assoc, List.drop_left' hheader]
    exact dhcpOptions_encode hproper []
  have hclient : ((dhcpMessage s.host stack.clientMac messageType xid requestedIp serverId).drop
      28).take 6 = stack.clientMac := by
    simp only [dhcpMessage, dhcpHeader, List.append_assoc]
    exact List.take_left' hmac
  have hlong : 244 ≤
      (dhcpMessage s.host stack.clientMac messageType xid requestedIp serverId).length := by
    rw [dhcpMessage, encodeOptions_request]
    simp only [List.length_append, List.length_cons, List.length_nil, hheader]
    omega
  have hfirst : netByte
      (dhcpMessage s.host stack.clientMac messageType xid requestedIp serverId) 0 = 1 := rfl
  rw [List.append_nil] at hxid
  have hframe : dhcpMessageFrame s stack messageType xid requestedIp serverId =
      netBuildUdpFrame stack.clientMac stack.nextIpId ⟨none, 0, 0xFFFFFFFF, netPortDhcpClient,
        netPortDhcpServer,
        dhcpMessage s.host stack.clientMac messageType xid requestedIp serverId⟩ := rfl
  generalize dhcpMessage s.host stack.clientMac messageType xid requestedIp serverId = message at *
  have hread := netUdpDatagram_build hmac
    (show ∀ mac ∈ (UdpFrame.mk none 0 0xFFFFFFFF netPortDhcpClient netPortDhcpServer
      message).dstMac, mac.length = 6 by simp)
    (show message.length ≤ netUdpPayloadMax by omega) stack.nextIpId []
  rw [List.append_nil] at hread
  rw [dhcpRequest, hframe, hread, Option.bind_some]
  simp [hlong, hfirst, hclient, hxid, hoptions]

/-! ## One renewal -/

/-- What a lease sets in the stack, and its texts. -/
structure LeaseView where
  configured : Bool
  staticProfile : Bool
  clientIp : UInt32
  subnetMask : UInt32
  gatewayIp : UInt32
  dnsIp : UInt32
  leaseSeconds : UInt32
  texts : AddressTexts
  deriving DecidableEq

def RenewState.view (s : RenewState) : LeaseView where
  configured := s.link.stack.configured
  staticProfile := s.link.stack.staticProfile
  clientIp := s.link.stack.clientIp
  subnetMask := s.link.stack.subnetMask
  gatewayIp := s.link.stack.gatewayIp
  dnsIp := s.link.stack.dnsIp
  leaseSeconds := s.link.stack.leaseSeconds
  texts := s.texts

/-- A lease in use: without a mask it is for a network of class C. -/
def DhcpLease.view (lease : DhcpLease) : LeaseView :=
  let mask := if lease.subnetMask ≠ 0 then lease.subnetMask else netIpMake 255 255 255 0
  { configured := true
    staticProfile := false
    clientIp := lease.yourIp
    subnetMask := mask
    gatewayIp := lease.router
    dnsIp := lease.dns
    leaseSeconds := lease.leaseSeconds
    texts := {
      ipv4 := netIpToString lease.yourIp addressTextSize
      subnetMask := netIpToString mask addressTextSize
      gateway := netIpToString lease.router addressTextSize
      dnsServer := netIpToString lease.dns addressTextSize } }

/-- The lease of an acknowledgement in use. -/
theorem view_lease (s : RenewState) (stack : Netstack) (entry : DhcpEntry) :
    RenewState.view { s.withStack (stack.lease entry.offer) with
      texts := netstackSyncStrings (stack.lease entry.offer) } = entry.lease.view := by
  have htexts : netstackSyncStrings (stack.lease entry.offer) = entry.lease.view.texts := by
    have hconfigured : (stack.lease entry.offer).configured = true := rfl
    rw [netstackSyncStrings, if_pos hconfigured]
    rfl
  rw [RenewState.view, htexts]
  rfl

/-- A frame that the client sends: it asks for offers, or for the address of an offer. -/
def ClientFrame (mac : Bytes) (sent : List DhcpServerMessage) (frame : Bytes) : Prop :=
  ∃ xid host, dhcpRequest frame = some ⟨mac, xid, dhcpRequestOptions host 1 0 0⟩ ∨
    ∃ m ∈ sent, m.entry.Expected mac xid 2 ∧ dhcpRequest frame =
      some ⟨mac, xid, dhcpRequestOptions host 3 m.entry.lease.yourIp m.entry.serverId⟩

theorem ClientFrame.mono {mac frame : Bytes} {sent more : List DhcpServerMessage}
    (h : ClientFrame mac sent frame) : ClientFrame mac (sent ++ more) frame := by
  obtain ⟨xid, host, hdiscover | ⟨m, hm, hrequest⟩⟩ := h
  · exact ⟨xid, host, .inl hdiscover⟩
  · exact ⟨xid, host, .inr ⟨m, List.mem_append_left _ hm, hrequest⟩⟩

/-- What a renewal among servers comes to. -/
structure RenewalAmong (mac : Bytes) (sent : List DhcpServerMessage) (s : RenewState)
    (r : DhcpRenewal) : Prop where
  device : r.state.link.deviceMac = s.link.deviceMac
  frames : ∀ frame ∈ r.frames, ClientFrame mac sent frame
  view : r.state.view = s.view ∨ ∃ m ∈ sent, m.entry.clientMac = mac ∧
    m.entry.messageType = 5 ∧ r.state.view = m.entry.lease.view

theorem offer_sent {mac : Bytes} {sent : List DhcpServerMessage} {phase : DhcpPhase} {xid : UInt32}
    {expectedType : UInt8} {offer : DhcpOffer} (hexpected : expectedType = 2 ∨ expectedType = 5)
    (hevents : FromServers mac sent phase.events)
    (h : phase.offer mac xid expectedType = some offer) :
    ∃ m ∈ sent, m.entry.Expected mac xid expectedType ∧ offer = m.entry.offer :=
  netstackWaitForDhcp_sent hexpected hevents (DhcpPhase.wait_of_offer h)

theorem renewalOf_among {mac : Bytes} {sent : List DhcpServerMessage} {s : RenewState}
    {stack : Netstack} {discover request : DhcpPhase} (hmac : mac.length = 6)
    (hstack : stack.clientMac = mac) (hview : (s.withStack stack).view = s.view)
    (hdiscover : FromServers mac sent discover.events)
    (hrequest : FromServers mac sent request.events) (xid : UInt32) :
    RenewalAmong mac sent s (renewalOf discover request s xid stack) := by
  subst hstack
  have hfirst : ClientFrame stack.clientMac sent (dhcpMessageFrame s stack 1 xid 0 0) :=
    ⟨xid, s.host, .inl (dhcpRequest_message hmac s 1 xid 0 0)⟩
  rw [renewalOf]
  cases hoffer : discover.offer stack.clientMac xid 2 with
  | none => exact ⟨rfl, by simpa using hfirst, .inl hview⟩
  | some offer =>
    obtain ⟨m, hm, hexpected, rfl⟩ := offer_sent (.inl rfl) hdiscover hoffer
    have hread := dhcpRequest_message (show stack.framed.clientMac.length = 6 from hmac) s 3 xid
      m.entry.offer.yourIp m.entry.offer.serverId
    have hsecond : ClientFrame stack.clientMac sent (dhcpMessageFrame s stack.framed 3 xid
        m.entry.offer.yourIp m.entry.offer.serverId) :=
      ⟨xid, s.host, .inr ⟨m, hm, hexpected, hread⟩⟩
    have hframes : ∀ frame ∈ [dhcpMessageFrame s stack 1 xid 0 0, dhcpMessageFrame s stack.framed 3
        xid m.entry.offer.yourIp m.entry.offer.serverId],
          ClientFrame stack.clientMac sent frame := by
      simpa using ⟨hfirst, hsecond⟩
    dsimp only
    cases hack : request.offer stack.framed.framed.clientMac xid 5 with
    | none => exact ⟨rfl, hframes, .inl hview⟩
    | some ack =>
      obtain ⟨m', hm', ⟨hmac', -, htype⟩, rfl⟩ := offer_sent (.inr rfl) hrequest hack
      exact ⟨rfl, hframes, .inr ⟨m', hm', hmac', htype, view_lease s stack.framed.framed m'.entry⟩⟩

theorem netstackRenewDhcpOnWire_among {mac : Bytes} {sent : List DhcpServerMessage}
    {s : RenewState} {payload : Buffer 320} {discover request : DhcpPhase} {r : DhcpRenewal}
    (hmac : mac.length = 6) (hdevice : ∀ mac', s.link.deviceMac = some mac' → mac' = mac)
    (hdiscover : FromServers mac sent discover.events)
    (hrequest : FromServers mac sent request.events)
    (h : netstackRenewDhcpOnWire payload discover request s = some r) :
    RenewalAmong mac sent s r := by
  cases hready : s.link.network.initialized with
  | false =>
    rw [netstackRenewDhcpOnWire_idle hready] at h
    obtain rfl := Option.some.inj h
    exact ⟨rfl, by simp, .inl rfl⟩
  | true =>
    cases hfound : s.link.deviceMac with
    | none =>
      rw [netstackRenewDhcpOnWire_no_device hready hfound] at h
      obtain rfl := Option.some.inj h
      exact ⟨rfl, by simp, .inl rfl⟩
    | some mac' =>
      obtain rfl := hdevice mac' hfound
      rw [netstackRenewDhcpOnWire_device hready hfound, renewExchange_eq hmac] at h
      obtain rfl := Option.some.inj h
      exact renewalOf_among hmac (renewStack_clientMac s mac') rfl hdiscover hrequest _

/-! ## A client among servers -/

/-- The client, the frames it has sent and the messages that servers have sent. -/
structure DhcpWorld where
  client : RenewState
  frames : List Bytes
  sent : List DhcpServerMessage

/-- Some frame of the client asked for the message. -/
def AskedFor (frames : List Bytes) (entry : DhcpEntry) : Prop :=
  ∃ frame ∈ frames, ∃ asked, dhcpRequest frame = some asked ∧ entry.Answers asked

/-- A renewal, with what servers send until it ends, or anything else that leaves a lease alone or
replaces it by none. What a renewal receives was sent by then, at whatever time. -/
inductive DhcpWorld.Step (mac : Bytes) : DhcpWorld → DhcpWorld → Prop
  | renew {w : DhcpWorld} {r : DhcpRenewal} (payload : Buffer 320) (discover request : DhcpPhase)
      (more : List DhcpServerMessage)
      (call : netstackRenewDhcpOnWire payload discover request w.client = some r)
      (answers : ∀ m ∈ more, m.entry.clientMac = mac → AskedFor (w.frames ++ r.frames) m.entry)
      (discovered : FromServers mac (w.sent ++ more) discover.events)
      (requested : FromServers mac (w.sent ++ more) request.events) :
      Step mac w ⟨r.state, w.frames ++ r.frames, w.sent ++ more⟩
  | other {w : DhcpWorld} (client : RenewState)
      (device : ∀ mac', client.link.deviceMac = some mac' → mac' = mac)
      (view : client.view = w.client.view ∨ client.link.stack.configured = false ∨
        client.link.stack.staticProfile = true) :
      Step mac w { w with client := client }

/-- The stack has a lease, and not the fixed profile. -/
def RenewState.Leased (s : RenewState) : Prop :=
  s.link.stack.configured = true ∧ s.link.stack.staticProfile = false

/-- What holds between the client and its servers. -/
structure DhcpWorld.Agrees (mac : Bytes) (w : DhcpWorld) : Prop where
  device : ∀ mac', w.client.link.deviceMac = some mac' → mac' = mac
  frames : ∀ frame ∈ w.frames, ClientFrame mac w.sent frame
  answers : ∀ m ∈ w.sent, m.entry.clientMac = mac → AskedFor w.frames m.entry
  lease : w.client.Leased → ∃ m ∈ w.sent, m.entry.clientMac = mac ∧ m.entry.messageType = 5 ∧
    w.client.view = m.entry.lease.view

theorem AskedFor.mono {frames : List Bytes} {entry : DhcpEntry} (h : AskedFor frames entry)
    (more : List Bytes) : AskedFor (frames ++ more) entry := by
  obtain ⟨frame, hframe, hasked⟩ := h
  exact ⟨frame, List.mem_append_left _ hframe, hasked⟩

theorem leased_of_view {s : RenewState} {lease : DhcpLease} (h : s.view = lease.view) :
    s.Leased :=
  ⟨congrArg LeaseView.configured h, congrArg LeaseView.staticProfile h⟩

theorem leased_congr {s s' : RenewState} (h : s'.view = s.view) : s'.Leased ↔ s.Leased := by
  have hconfigured : s'.link.stack.configured = s.link.stack.configured :=
    congrArg LeaseView.configured h
  have hprofile : s'.link.stack.staticProfile = s.link.stack.staticProfile :=
    congrArg LeaseView.staticProfile h
  rw [RenewState.Leased, RenewState.Leased, hconfigured, hprofile]

/-- Every step keeps the agreement. -/
theorem DhcpWorld.Agrees.step {mac : Bytes} {w w' : DhcpWorld} (h : w.Agrees mac)
    (hmac : mac.length = 6) (hstep : DhcpWorld.Step mac w w') : w'.Agrees mac := by
  cases hstep with
  | renew payload discover request more call answers discovered requested =>
    have hamong := netstackRenewDhcpOnWire_among hmac h.device discovered requested call
    constructor
    case device =>
      intro mac' hmac'
      exact h.device mac' (hamong.device.symm.trans hmac')
    case frames =>
      intro frame hframe
      rcases List.mem_append.mp hframe with hold | hnew
      · exact (h.frames frame hold).mono
      · exact hamong.frames frame hnew
    case answers =>
      intro m hm hclient
      rcases List.mem_append.mp hm with hold | hnew
      · exact (h.answers m hold hclient).mono _
      · exact answers m hnew hclient
    case lease =>
      intro hleased
      rcases hamong.view with hview | hack
      · obtain ⟨m, hm, hclient, htype, hlease⟩ := h.lease ((leased_congr hview).mp hleased)
        exact ⟨m, List.mem_append_left _ hm, hclient, htype, hview.trans hlease⟩
      · exact hack
  | other client device view =>
    refine ⟨device, h.frames, h.answers, fun hleased => ?_⟩
    rcases view with hview | hidle | hfixed
    · obtain ⟨m, hm, hclient, htype, hlease⟩ := h.lease ((leased_congr hview).mp hleased)
      exact ⟨m, hm, hclient, htype, hview.trans hlease⟩
    · exact absurd (hleased.1.symm.trans hidle) (by decide)
    · exact absurd (hfixed.symm.trans hleased.2) (by decide)

theorem DhcpWorld.Agrees.run {mac : Bytes} {w w' : DhcpWorld} (h : w.Agrees mac)
    (hmac : mac.length = 6) (hrun : Relation.ReflTransGen (DhcpWorld.Step mac) w w') :
    w'.Agrees mac := by
  induction hrun with
  | refl => exact h
  | tail _ hstep ih => exact ih.step hmac hstep

/-- The handshake behind an acknowledgement: an offer of the same server for the same address in
the same transaction, each asked for by the client. -/
structure Handshake (mac : Bytes) (frames : List Bytes) (offer ack : DhcpEntry) : Prop where
  offerType : offer.messageType = 2
  ackType : ack.messageType = 5
  toClient : offer.clientMac = mac ∧ ack.clientMac = mac
  transaction : ack.xid = offer.xid
  server : ack.serverId = offer.serverId
  address : ack.lease.yourIp = offer.lease.yourIp
  offered : AskedFor frames offer
  acknowledged : AskedFor frames ack

theorem netWriteBe32_inj {a b : UInt32} (h : netWriteBe32 a = netWriteBe32 b) : a = b := by
  have hread := netReadBe32_write [] [] a rfl
  rw [h] at hread
  exact hread.symm.trans (netReadBe32_write [] [] b rfl)

/-- An option of a message by its code. -/
theorem mem_dhcpRequestOptions {host : Bytes} {messageType : UInt8} {requestedIp serverId : UInt32}
    {option : UInt8 × Bytes}
    (h : option ∈ dhcpRequestOptions host messageType requestedIp serverId) :
    (option.1 = 53 → option.2 = [messageType]) ∧
      (option.1 = 50 → option.2 = netWriteBe32 requestedIp) ∧
        (option.1 = 54 → option.2 = netWriteBe32 serverId) := by
  simp only [dhcpRequestOptions, List.mem_append, List.mem_ite_nil_right, List.mem_singleton] at h
  rcases h with (((rfl | ⟨_, rfl⟩) | ⟨_, rfl⟩) | rfl) | ⟨_, rfl⟩
  · simp
  · simp
  · simp
  · simp
  · simp

/-- What an acknowledgement was asked for with. -/
theorem DhcpWorld.Agrees.handshake {mac : Bytes} {w : DhcpWorld} (h : w.Agrees mac)
    {m : DhcpServerMessage} (hm : m ∈ w.sent) (hclient : m.entry.clientMac = mac)
    (htype : m.entry.messageType = 5) :
    ∃ m' ∈ w.sent, Handshake mac w.frames m'.entry m.entry := by
  obtain ⟨frame, hframe, asked, hasked, hmac, hxid, hanswers⟩ := h.answers m hm hclient
  rcases hanswers with ⟨hoffer, -⟩ | ⟨-, hrequest, haddress, hserver⟩
  · rw [htype] at hoffer
    cases hoffer
  obtain ⟨xid, host, hdiscover | ⟨m', hm', hexpected, hfor⟩⟩ := h.frames frame hframe
  · obtain rfl := Option.some.inj (hasked.symm.trans hdiscover)
    exact absurd ((mem_dhcpRequestOptions hrequest).1 rfl) (by decide)
  · obtain rfl := Option.some.inj (hasked.symm.trans hfor)
    obtain ⟨hmac', hxid', htype'⟩ := hexpected
    refine ⟨m', hm', htype', htype, ⟨hmac', hclient⟩, hxid.trans hxid'.symm, ?_, ?_,
      h.answers m' hm' hmac', h.answers m hm hclient⟩
    · exact netWriteBe32_inj ((mem_dhcpRequestOptions hserver).2.2 rfl)
    · exact netWriteBe32_inj ((mem_dhcpRequestOptions haddress).2.1 rfl)

/-! ## A server that serves -/

/-- A server: the address it is known by, the lease it has for each client, and how it writes its
messages. -/
structure DhcpServer where
  ip : UInt32
  allot : Bytes → DhcpLease
  message : UInt8 → (mac : Bytes) → mac.length = 6 → UInt32 → DhcpServerMessage
  entry : ∀ messageType mac hmac xid, (message messageType mac hmac xid).entry =
    ⟨messageType, mac, xid, ip, allot mac⟩

/-- The answer to a frame, if it is for this server. -/
def DhcpServer.answer (server : DhcpServer) (frame : Bytes) : Option DhcpServerMessage :=
  (dhcpRequest frame).bind fun asked =>
    if hmac : asked.clientMac.length = 6 then
      if (53, [1]) ∈ asked.options then some (server.message 2 asked.clientMac hmac asked.xid)
      else if (53, [3]) ∈ asked.options ∧
          (50, netWriteBe32 (server.allot asked.clientMac).yourIp) ∈ asked.options ∧
            (54, netWriteBe32 server.ip) ∈ asked.options then
        some (server.message 5 asked.clientMac hmac asked.xid)
      else none
    else none

section Served

variable {server : DhcpServer} {mac frame : Bytes}

/-- The answers of a server are answers. -/
theorem DhcpServer.answers {m : DhcpServerMessage} (h : server.answer frame = some m) :
    ∃ asked, dhcpRequest frame = some asked ∧ m.entry.Answers asked := by
  rw [DhcpServer.answer] at h
  obtain ⟨asked, hasked, hanswer⟩ := Option.bind_eq_some_iff.mp h
  refine ⟨asked, hasked, ?_⟩
  split_ifs at hanswer with hmac hdiscover hrequest
  · obtain rfl := Option.some.inj hanswer
    rw [server.entry]
    exact ⟨rfl, rfl, .inl ⟨rfl, hdiscover⟩⟩
  · obtain rfl := Option.some.inj hanswer
    rw [server.entry]
    exact ⟨rfl, rfl, .inr ⟨rfl, hrequest⟩⟩

theorem DhcpServer.answer_discover (hmac : mac.length = 6) {xid : UInt32} {host : Bytes}
    (h : dhcpRequest frame = some ⟨mac, xid, dhcpRequestOptions host 1 0 0⟩) :
    server.answer frame = some (server.message 2 mac hmac xid) := by
  have hdiscover : ((53, [1]) : UInt8 × Bytes) ∈ dhcpRequestOptions host 1 0 0 := by
    simp [dhcpRequestOptions]
  rw [DhcpServer.answer, h, Option.bind_some, dif_pos hmac, if_pos hdiscover]

theorem DhcpServer.answer_request (hmac : mac.length = 6) {xid : UInt32} {host : Bytes}
    (hip : server.ip ≠ 0) (hallot : (server.allot mac).yourIp ≠ 0)
    (h : dhcpRequest frame =
      some ⟨mac, xid, dhcpRequestOptions host 3 (server.allot mac).yourIp server.ip⟩) :
    server.answer frame = some (server.message 5 mac hmac xid) := by
  have hdiscover : ((53, [1]) : UInt8 × Bytes) ∉
      dhcpRequestOptions host 3 (server.allot mac).yourIp server.ip :=
    fun hmem => absurd ((mem_dhcpRequestOptions hmem).1 rfl) (by decide)
  have hrequest : ((53, [3]) : UInt8 × Bytes) ∈
      dhcpRequestOptions host 3 (server.allot mac).yourIp server.ip ∧
        (50, netWriteBe32 (server.allot mac).yourIp) ∈
          dhcpRequestOptions host 3 (server.allot mac).yourIp server.ip ∧
            (54, netWriteBe32 server.ip) ∈
              dhcpRequestOptions host 3 (server.allot mac).yourIp server.ip := by
    simp [dhcpRequestOptions, hip, hallot]
  rw [DhcpServer.answer, h, Option.bind_some, dif_pos hmac, if_neg hdiscover, if_pos hrequest]

/-- The network brings the answer of the server to a frame in time, if there is a frame. -/
def DhcpServer.Serves (server : DhcpServer) (mac : Bytes) (phase : DhcpPhase)
    (expectedType : UInt8) (frame : Option Bytes) : Prop :=
  ∀ sent ∈ frame, ∀ m, server.answer sent = some m →
    phase.Delivers mac (frameXid sent) expectedType m

/-- A renewal that ends with the lease of a server, which has answered both its frames. -/
structure RenewedBy (server : DhcpServer) (mac : Bytes) (hmac : mac.length = 6) (xid : UInt32)
    (r : DhcpRenewal) : Prop where
  result : r.result = true
  view : r.state.view = (server.allot mac).view
  answered : ∃ first second, r.frames = [first, second] ∧
    server.answer first = some (server.message 2 mac hmac xid) ∧
    server.answer second = some (server.message 5 mac hmac xid)

theorem renewalOf_first (s : RenewState) (stack : Netstack) (discover request : DhcpPhase)
    (xid : UInt32) : (renewalOf discover request s xid stack).frames[0]? =
      some (dhcpMessageFrame s stack 1 xid 0 0) := by
  rw [renewalOf]
  cases discover.offer stack.clientMac xid 2 with
  | none => rfl
  | some offer =>
    dsimp only
    cases request.offer stack.framed.framed.clientMac xid 5 <;> rfl

theorem renewalOf_frames {s : RenewState} {stack : Netstack} {discover request : DhcpPhase}
    {xid : UInt32} {offer : DhcpOffer} (h : discover.offer stack.clientMac xid 2 = some offer) :
    (renewalOf discover request s xid stack).frames = [dhcpMessageFrame s stack 1 xid 0 0,
      dhcpMessageFrame s stack.framed 3 xid offer.yourIp offer.serverId] := by
  rw [renewalOf, h]
  dsimp only
  cases request.offer stack.framed.framed.clientMac xid 5 <;> rfl

/-- A wait that is served ends with the server's offer. -/
theorem DhcpServer.Serves.offer {phase : DhcpPhase} {xid : UInt32} {expectedType : UInt8}
    {sent : Bytes} {hmac : mac.length = 6} (h : server.Serves mac phase expectedType (some sent))
    (hexpected : expectedType = 2 ∨ expectedType = 5) (hxid : frameXid sent = xid)
    (hanswer : server.answer sent = some (server.message expectedType mac hmac xid)) :
    phase.offer mac xid expectedType =
      some (DhcpEntry.mk expectedType mac xid server.ip (server.allot mac)).offer := by
  have hdelivers := h sent rfl _ hanswer
  have hentry := server.entry expectedType mac hmac xid
  rw [hxid] at hdelivers
  rw [← hentry]
  apply hdelivers.offer hexpected
  rw [hentry]
  exact ⟨rfl, rfl, rfl⟩

theorem renewalOf_served {s : RenewState} {stack : Netstack} {discover request : DhcpPhase}
    {xid : UInt32} (hmac : mac.length = 6) (hstack : stack.clientMac = mac)
    (hip : server.ip ≠ 0) (hallot : (server.allot mac).yourIp ≠ 0)
    (hdiscover : server.Serves mac discover 2
      (renewalOf discover request s xid stack).frames[0]?)
    (hrequest : server.Serves mac request 5
      (renewalOf discover request s xid stack).frames[1]?) :
    RenewedBy server mac hmac xid (renewalOf discover request s xid stack) := by
  subst hstack
  have hlength : stack.framed.clientMac.length = 6 := hmac
  have hfirst := server.answer_discover hmac (dhcpRequest_message hmac s 1 xid 0 0)
  rw [renewalOf_first] at hdiscover
  have hoffer := hdiscover.offer (.inl rfl) (frameXid_message hmac 1 xid 0 0) hfirst
  have hframes : (renewalOf discover request s xid stack).frames = _ := renewalOf_frames hoffer
  have hsecond := server.answer_request hmac hip hallot
    (dhcpRequest_message hlength s 3 xid (server.allot stack.clientMac).yourIp server.ip)
  rw [hframes] at hrequest
  have hack := hrequest.offer (.inr rfl) (frameXid_message hlength 3 xid _ _) hsecond
  refine ⟨?_, ?_, _, _, hframes, hfirst, hsecond⟩
  · rw [renewalOf, hoffer]
    dsimp only
    rw [show stack.framed.framed.clientMac = stack.clientMac from rfl, hack]
  · rw [renewalOf, hoffer]
    dsimp only
    rw [show stack.framed.framed.clientMac = stack.clientMac from rfl, hack]
    exact view_lease s stack.framed.framed _

/-- It is enough that the two messages of the server for the transaction come in time. -/
theorem serves_delivered {s : RenewState} {stack : Netstack} {discover request : DhcpPhase}
    {xid : UInt32} (hmac : mac.length = 6) (hstack : stack.clientMac = mac)
    (hip : server.ip ≠ 0) (hallot : (server.allot mac).yourIp ≠ 0)
    (hdiscover : discover.Delivers mac xid 2 (server.message 2 mac hmac xid))
    (hrequest : request.Delivers mac xid 5 (server.message 5 mac hmac xid)) :
    server.Serves mac discover 2 (renewalOf discover request s xid stack).frames[0]? ∧
      server.Serves mac request 5 (renewalOf discover request s xid stack).frames[1]? := by
  subst hstack
  have hlength : stack.framed.clientMac.length = 6 := hmac
  have hfirst := server.answer_discover hmac (dhcpRequest_message hmac s 1 xid 0 0)
  have hserves : server.Serves stack.clientMac discover 2
      (some (dhcpMessageFrame s stack 1 xid 0 0)) := by
    intro sent hsent m hanswer
    obtain rfl := Option.some.inj hsent
    obtain rfl := Option.some.inj (hfirst.symm.trans hanswer)
    rw [frameXid_message hmac]
    exact hdiscover
  have hoffer := hserves.offer (.inl rfl) (frameXid_message hmac 1 xid 0 0) hfirst
  have hsecond := server.answer_request hmac hip hallot
    (dhcpRequest_message hlength s 3 xid (server.allot stack.clientMac).yourIp server.ip)
  rw [renewalOf_frames hoffer]
  refine ⟨hserves, ?_⟩
  intro sent hsent m hanswer
  obtain rfl := Option.some.inj hsent
  obtain rfl := Option.some.inj (hsecond.symm.trans hanswer)
  rw [frameXid_message hlength]
  exact hrequest

end Served

/-! ## A plain server -/

/-- The options of a message, one for each field. -/
def dhcpEntryOptions (entry : DhcpEntry) : List (UInt8 × Bytes) :=
  [(53, [entry.messageType]), (54, netWriteBe32 entry.serverId),
    (1, netWriteBe32 entry.lease.subnetMask), (3, netWriteBe32 entry.lease.router),
    (6, netWriteBe32 entry.lease.dns), (51, netWriteBe32 entry.lease.leaseSeconds)]

theorem netReadBe32_netWriteBe32 (value : UInt32) : netReadBe32 (netWriteBe32 value) 0 = value :=
  netReadBe32_write [] [] value rfl

theorem dhcpEntryOptions_complete (entry : DhcpEntry) (field : DhcpField) :
    (DhcpReply.mk entry.lease.yourIp (dhcpEntryOptions entry)).get field =
      some (entry.offer.get field) := by
  cases field <;>
    simp [DhcpReply.get, dhcpEntryOptions, DhcpField.read, DhcpField.code, DhcpField.size,
      DhcpField.value, netWriteBe32_length, netReadBe32_netWriteBe32, DhcpOffer.get,
      DhcpEntry.offer, netByte]

theorem dhcpEntryOptions_proper (entry : DhcpEntry) :
    ∀ option ∈ dhcpEntryOptions entry, ProperOption option := by
  simp [dhcpEntryOptions, ProperOption, netWriteBe32_length]

theorem dhcpEntryOptions_fits (entry : DhcpEntry) :
    (encodeOptions (dhcpEntryOptions entry)).length ≤ 1765 := by
  have hlength : (encodeOptions (dhcpEntryOptions entry)).length = 33 := rfl
  rw [hlength]
  decide

/-- A broadcast from a server with nothing in the fields that a client does not look at. -/
def plainEnvelope (ip : UInt32) (serverMac : Bytes) (hmac : serverMac.length = 6) :
    DhcpEnvelope where
  hops := 0
  times := List.replicate 8 0
  relays := List.replicate 8 0
  names := List.replicate 202 0
  serverMac := serverMac
  dstMac := none
  srcIp := ip
  dstIp := 0xFFFFFFFF
  ipId := 0
  times_length := rfl
  relays_length := rfl
  names_length := rfl
  serverMac_length := hmac
  dstMac_length := by simp

/-- A server with any address and any leases. -/
def plainServer (ip : UInt32) (serverMac : Bytes) (hserver : serverMac.length = 6)
    (allot : Bytes → DhcpLease) : DhcpServer where
  ip := ip
  allot := allot
  message := fun messageType mac hmac xid => {
    entry := ⟨messageType, mac, xid, ip, allot mac⟩
    envelope := plainEnvelope ip serverMac hserver
    options := dhcpEntryOptions ⟨messageType, mac, xid, ip, allot mac⟩
    clientMac_length := hmac
    proper := dhcpEntryOptions_proper _
    complete := dhcpEntryOptions_complete _
    fits := dhcpEntryOptions_fits _ }
  entry := fun _ _ _ _ => rfl

/-- The server of a network of a virtual machine. -/
def natServer : DhcpServer :=
  plainServer 0x0A000202 (List.replicate 6 2) rfl fun _ =>
    ⟨0x0A00020F, 0xFFFFFF00, 0x0A000202, 0x0A000203, 86400⟩

/-- The server's message after a cycle without a frame. -/
def natPhase (messageType : UInt8) : DhcpPhase :=
  ⟨true, [], [none, some (natServer.message messageType leaseMac rfl 7).frame]⟩

theorem natPhase_delivers (messageType : UInt8) : (natPhase messageType).Delivers leaseMac 7
    messageType (natServer.message messageType leaseMac rfl 7) where
  sent := rfl
  inTime := ⟨[none], [], rfl, by decide, by simp⟩

theorem natPhase_fromServers (messageType : UInt8) {sent : List DhcpServerMessage}
    (h : natServer.message messageType leaseMac rfl 7 ∈ sent) :
    FromServers leaseMac sent (natPhase messageType).events := by
  intro frame hframe
  rw [natPhase, List.mem_cons, List.mem_singleton] at hframe
  rcases hframe with hnone | hsome
  · cases hnone
  · exact .inr ⟨_, h, (Option.some.inj hsome).symm⟩

theorem natStart_xid : (renewStack renewStart leaseMac).1 = 7 := by decide

def natRenewal : DhcpRenewal :=
  renewalOf (natPhase 2) (natPhase 5) renewStart 7 (renewStack renewStart leaseMac).2

theorem natRenewal_eq (payload : Buffer 320) :
    netstackRenewDhcpOnWire payload (natPhase 2) (natPhase 5) renewStart = some natRenewal := by
  have hmac : renewStart.link.deviceMac = some leaseMac := rfl
  rw [netstackRenewDhcpOnWire_device rfl hmac, natStart_xid]
  exact renewExchange_eq rfl 7

theorem natRenewal_serves : natServer.Serves leaseMac (natPhase 2) 2 natRenewal.frames[0]? ∧
    natServer.Serves leaseMac (natPhase 5) 5 natRenewal.frames[1]? :=
  serves_delivered rfl (renewStack_clientMac renewStart leaseMac) (by decide) (by decide)
    (natPhase_delivers 2) (natPhase_delivers 5)

theorem natRenewal_renewed : RenewedBy natServer leaseMac rfl 7 natRenewal :=
  renewalOf_served rfl (renewStack_clientMac renewStart leaseMac) (by decide) (by decide)
    natRenewal_serves.1 natRenewal_serves.2

end SnsxOS.Arm64
