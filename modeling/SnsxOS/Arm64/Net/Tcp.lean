import SnsxOS.Arm64.Net.Packet
import SnsxOS.Framework.Stream

/-!
# The TCP session of the HTTP client

The frame builder and the TCP part of `netstack_http_request_text`: the handshake loop, the
request and the receive loop. What `net_frame_receive` delivers in each wait cycle and whether
the driver accepts each transmitted frame are given functions; the state records the frames
handed to `net_frame_send`.
-/

namespace SnsxOS.Arm64

open Framework

def netHttpBufferMax : Nat := 8192

def netTcpSegmentMax : Nat := 1024

def netWriteBe16 (value : UInt16) : Bytes := [(value >>> 8).toUInt8, (value &&& 0xFF).toUInt8]

def netWriteBe32 (value : UInt32) : Bytes :=
  [(value >>> 24).toUInt8, ((value >>> 16) &&& 0xFF).toUInt8, ((value >>> 8) &&& 0xFF).toUInt8,
    (value &&& 0xFF).toUInt8]

theorem netWriteBe16_length (value : UInt16) : (netWriteBe16 value).length = 2 := rfl

theorem netWriteBe32_length (value : UInt32) : (netWriteBe32 value).length = 4 := rfl

/-- The sum of the 16-bit words, the last one padded. -/
def netSum : Bytes → UInt32
  | [] => 0
  | [high] => high.toUInt32 <<< 8
  | high :: low :: data => (high.toUInt32 <<< 8 ||| low.toUInt32) + netSum data

/-- Two folds bring any 32-bit sum below 2^16. -/
def netFold (sum : UInt32) : UInt32 := (sum &&& (0xFFFF : UInt32)) + (sum >>> 16)

def netChecksum (data : Bytes) : UInt16 := (~~~ (netFold (netFold (netSum data)))).toUInt16

def netTcpChecksum (srcIp dstIp : UInt32) (segment : Bytes) : UInt16 :=
  let pseudo := netWriteBe32 srcIp ++ netWriteBe32 dstIp ++ [0, netIpprotoTcp] ++
    netWriteBe16 (UInt16.ofNat segment.length)
  (~~~ (netFold (netFold (netSum pseudo + netSum segment)))).toUInt16

/-- The parameters of `net_build_tcp_frame` that change within a session. -/
structure TcpFrame where
  seq : UInt32
  ack : UInt32
  flags : UInt8
  payload : Bytes
  deriving DecidableEq

structure TcpSession where
  clientMac : Bytes
  destMac : Bytes
  clientIp : UInt32
  remoteIp : UInt32
  localPort : UInt16
  remotePort : UInt16

/-- The TCP header of a frame with the given checksum, followed by the payload. -/
def tcpSegment (session : TcpSession) (frame : TcpFrame) (checksum : UInt16) : Bytes :=
  netWriteBe16 session.localPort ++ netWriteBe16 session.remotePort ++ netWriteBe32 frame.seq ++
    netWriteBe32 frame.ack ++ [0x50, frame.flags] ++ netWriteBe16 4096 ++
    netWriteBe16 checksum ++ netWriteBe16 0 ++ frame.payload

/-- The IPv4 header of a frame with the given checksum. -/
def ipv4Header (session : TcpSession) (ipId totalLength checksum : UInt16) : Bytes :=
  [0x45, 0] ++ netWriteBe16 totalLength ++ netWriteBe16 ipId ++ netWriteBe16 0 ++
    [64, netIpprotoTcp] ++ netWriteBe16 checksum ++ netWriteBe32 session.clientIp ++
    netWriteBe32 session.remoteIp

/-- What follows the two MAC addresses of a frame. -/
def tcpPacket (session : TcpSession) (ipId : UInt16) (frame : TcpFrame) : Bytes :=
  let totalLength := UInt16.ofNat (20 + 20 + frame.payload.length)
  netWriteBe16 netEthertypeIpv4 ++
    (ipv4Header session ipId totalLength (netChecksum (ipv4Header session ipId totalLength 0)) ++
      tcpSegment session frame
        (netTcpChecksum session.clientIp session.remoteIp (tcpSegment session frame 0)))

def netBuildTcpFrame (session : TcpSession) (ipId : UInt16) (frame : TcpFrame) : Bytes :=
  session.destMac ++ session.clientMac ++ tcpPacket session ipId frame

theorem netByte_append (pre bytes : Bytes) {n i : Nat} (h : pre.length = n) :
    netByte (pre ++ bytes) (n + i) = netByte bytes i := by
  subst h
  simp [netByte, List.getElem?_append_right]

theorem be16_bytes (v : UInt16) :
    (v >>> 8).toUInt8.toUInt16 <<< 8 ||| (v &&& 0xFF).toUInt8.toUInt16 = v := by
  apply UInt16.toBitVec_inj.mp
  ext i hi
  simp [-UInt16.toUInt16_toUInt8]
  interval_cases i <;> simp

theorem be32_bytes (v : UInt32) :
    (v >>> 24).toUInt8.toUInt32 <<< 24 ||| ((v >>> 16) &&& 0xFF).toUInt8.toUInt32 <<< 16 |||
      ((v >>> 8) &&& 0xFF).toUInt8.toUInt32 <<< 8 ||| (v &&& 0xFF).toUInt8.toUInt32 = v := by
  apply UInt32.toBitVec_inj.mp
  ext i hi
  simp [-UInt32.toUInt32_toUInt8]
  interval_cases i <;> simp

/-- A 16-bit field is read back as it was written. -/
theorem netReadBe16_write (pre post : Bytes) (v : UInt16) {n : Nat} (h : pre.length = n) :
    netReadBe16 (pre ++ (netWriteBe16 v ++ post)) n = v := by
  have h0 := netByte_append pre (netWriteBe16 v ++ post) (i := 0) h
  have h1 := netByte_append pre (netWriteBe16 v ++ post) (i := 1) h
  rw [netReadBe16, ← Nat.add_zero n, h0, Nat.add_zero, h1]
  exact be16_bytes v

/-- A 32-bit field is read back as it was written. -/
theorem netReadBe32_write (pre post : Bytes) (v : UInt32) {n : Nat} (h : pre.length = n) :
    netReadBe32 (pre ++ (netWriteBe32 v ++ post)) n = v := by
  have h0 := netByte_append pre (netWriteBe32 v ++ post) (i := 0) h
  have h1 := netByte_append pre (netWriteBe32 v ++ post) (i := 1) h
  have h2 := netByte_append pre (netWriteBe32 v ++ post) (i := 2) h
  have h3 := netByte_append pre (netWriteBe32 v ++ post) (i := 3) h
  rw [netReadBe32, ← Nat.add_zero n, h0, Nat.add_zero, h1, h2, h3]
  exact be32_bytes v

theorem netReadBe16_append (pre bytes : Bytes) {n i : Nat} (h : pre.length = n) :
    netReadBe16 (pre ++ bytes) (n + i) = netReadBe16 bytes i := by
  simp only [netReadBe16, Nat.add_assoc, netByte_append pre bytes h]

theorem netReadBe32_append (pre bytes : Bytes) {n i : Nat} (h : pre.length = n) :
    netReadBe32 (pre ++ bytes) (n + i) = netReadBe32 bytes i := by
  simp only [netReadBe32, Nat.add_assoc, netByte_append pre bytes h]

/-- An IPv4 header without options as the parsers read it, and the bytes behind it. -/
structure Ipv4Read (bytes : Bytes) (protocol : UInt8) (srcIp dstIp : UInt32) (total : Nat)
    (rest : Bytes) : Prop where
  etherType : netReadBe16 bytes 12 = netEthertypeIpv4
  version : netByte bytes 14 = 0x45
  headerLen : netIpHeaderLen bytes = 20
  totalLength : netTotalLength bytes = total
  protocol : netByte bytes 23 = protocol
  srcIp : netReadBe32 bytes 26 = srcIp
  dstIp : netReadBe32 bytes 30 = dstIp
  byte : ∀ i, netByte bytes (34 + i) = netByte rest i

section Ipv4

variable {bytes rest : Bytes} {protocol : UInt8} {srcIp dstIp : UInt32} {total : Nat}

theorem Ipv4Read.be16 (h : Ipv4Read bytes protocol srcIp dstIp total rest) (i : Nat) :
    netReadBe16 bytes (34 + i) = netReadBe16 rest i := by
  simp only [netReadBe16, Nat.add_assoc, h.byte]

theorem Ipv4Read.be32 (h : Ipv4Read bytes protocol srcIp dstIp total rest) (i : Nat) :
    netReadBe32 bytes (34 + i) = netReadBe32 rest i := by
  simp only [netReadBe32, Nat.add_assoc, h.byte]

/-- The header that the builders write behind the addresses is read back. -/
theorem ipv4Read_build {macs : Bytes} (hmacs : macs.length = 12) (htotal : total < 2 ^ 16)
    (ipId checksum : UInt16) (protocol : UInt8) (srcIp dstIp : UInt32) (rest : Bytes) :
    Ipv4Read (macs ++ (netWriteBe16 netEthertypeIpv4 ++ (([0x45, 0] ++
      netWriteBe16 (UInt16.ofNat total) ++ netWriteBe16 ipId ++ netWriteBe16 0 ++ [64, protocol] ++
      netWriteBe16 checksum ++ netWriteBe32 srcIp ++ netWriteBe32 dstIp) ++ rest)))
      protocol srcIp dstIp total rest := by
  generalize hpacket : netWriteBe16 netEthertypeIpv4 ++ (([0x45, 0] ++
      netWriteBe16 (UInt16.ofNat total) ++ netWriteBe16 ipId ++ netWriteBe16 0 ++ [64, protocol] ++
      netWriteBe16 checksum ++ netWriteBe32 srcIp ++ netWriteBe32 dstIp) ++ rest) = packet
  have hbyte : ∀ i, netByte (macs ++ packet) (12 + i) = netByte packet i :=
    fun i => netByte_append macs packet hmacs
  have hbe16 : ∀ i, netReadBe16 (macs ++ packet) (12 + i) = netReadBe16 packet i :=
    fun i => netReadBe16_append macs packet hmacs
  have hbe32 : ∀ i, netReadBe32 (macs ++ packet) (12 + i) = netReadBe32 packet i :=
    fun i => netReadBe32_append macs packet hmacs
  subst hpacket
  have hversion := (hbyte 2).trans (show _ = (0x45 : UInt8) from rfl)
  have hlength := (hbe16 4).trans (be16_bytes (UInt16.ofNat total))
  constructor
  case etherType => exact (hbe16 0).trans (be16_bytes netEthertypeIpv4)
  case version => exact hversion
  case headerLen =>
    rw [netIpHeaderLen, netIpOffset, hversion]
    rfl
  case totalLength =>
    rw [netTotalLength, netIpOffset, hlength, UInt16.toNat_ofNat']
    exact Nat.mod_eq_of_lt htotal
  case protocol => exact hbyte 11
  case srcIp => exact (hbe32 14).trans (be32_bytes srcIp)
  case dstIp => exact (hbe32 18).trans (be32_bytes dstIp)
  case byte =>
    intro i
    have hoffset : 34 + i = 12 + (22 + i) := by omega
    rw [hoffset, hbyte, ← List.append_assoc]
    exact netByte_append _ rest rfl

end Ipv4

/-- A built frame is accepted and read back field by field, whatever follows it in memory. -/
theorem netParseTcpPacket_build (session : TcpSession) (ipId : UInt16) (frame : TcpFrame)
    (rest : Bytes) (hdest : session.destMac.length = 6) (hclient : session.clientMac.length = 6)
    (hpayload : 20 + 20 + frame.payload.length < 2 ^ 16) :
    netParseTcpPacket (netBuildTcpFrame session ipId frame ++ rest)
        (netBuildTcpFrame session ipId frame).length =
      some ⟨session.clientIp, session.remoteIp, session.localPort, session.remotePort,
        frame.seq, frame.ack, frame.flags, 54, frame.payload.length⟩ := by
  have hmac : (session.destMac ++ session.clientMac).length = 12 := by
    rw [List.length_append, hdest, hclient]
  have hlen : (netBuildTcpFrame session ipId frame).length = 54 + frame.payload.length := by
    simp only [netBuildTcpFrame, tcpPacket, ipv4Header, tcpSegment, netWriteBe16, netWriteBe32,
      List.length_append, hdest, hclient, List.length_cons, List.length_nil]
    omega
  rw [hlen, netBuildTcpFrame, tcpPacket]
  simp only [List.append_assoc (session.destMac ++ session.clientMac),
    List.append_assoc (netWriteBe16 netEthertypeIpv4), List.append_assoc (ipv4Header _ _ _ _)]
  generalize netTcpChecksum session.clientIp session.remoteIp (tcpSegment session frame 0) =
    checksum
  have hread := ipv4Read_build hmac hpayload ipId (netChecksum (ipv4Header session ipId
    (UInt16.ofNat (20 + 20 + frame.payload.length)) 0)) netIpprotoTcp session.clientIp
    session.remoteIp (tcpSegment session frame checksum ++ rest)
  rw [← ipv4Header] at hread
  generalize (session.destMac ++ session.clientMac) ++ _ = bytes at *
  have hsrcPort := (hread.be16 0).trans (be16_bytes session.localPort)
  have hdstPort := (hread.be16 2).trans (be16_bytes session.remotePort)
  have hseq := (hread.be32 4).trans (be32_bytes frame.seq)
  have hack := (hread.be32 8).trans (be32_bytes frame.ack)
  have hoffset := (hread.byte 12).trans (show _ = (0x50 : UInt8) from rfl)
  have hflags := (hread.byte 13).trans (show _ = frame.flags from rfl)
  have htcpHeader : netTcpHeaderLen bytes = 20 := by
    rw [netTcpHeaderLen, hread.headerLen, netIpOffset, hoffset]
    decide
  have hlong : ¬ 54 + frame.payload.length < 54 := by omega
  have hfits : ¬ 20 + 20 + frame.payload.length < 20 + 20 := by omega
  have hrest : 20 + 20 + frame.payload.length - 20 - 20 = frame.payload.length := by omega
  have hshift : (0x45 : UInt8) >>> 4 = 4 := by decide
  simp only [Nat.reduceAdd] at hsrcPort hdstPort hseq hack hflags
  simp [netParseTcpPacket, hread.etherType, hread.headerLen, hread.totalLength, htcpHeader,
    netIpOffset, hread.version, hread.protocol, hread.srcIp, hread.dstIp, hsrcPort, hdstPort, hseq,
    hack, hflags, hlong, hfits, hrest, hshift]

/-- The receive buffer after a frame arrived, and the length of the frame. -/
structure RxFrame where
  buffer : Bytes
  len : Nat

def TcpSession.accepts (session : TcpSession) (packet : TcpPacketView) : Bool :=
  packet.srcIp == session.remoteIp && packet.dstIp == session.clientIp &&
    packet.srcPort == session.remotePort && packet.dstPort == session.localPort

/-- The parsed packet of this session that a wait cycle delivers, if any. -/
def TcpSession.packetOf (session : TcpSession) (event : Option RxFrame) :
    Option (RxFrame × TcpPacketView) :=
  match event with
  | none => none
  | some frame =>
      match netParseTcpPacket frame.buffer frame.len with
      | none => none
      | some packet => if session.accepts packet then some (frame, packet) else none

/-- The session as its other end sees it. -/
def TcpSession.peer (session : TcpSession) : TcpSession where
  clientMac := session.destMac
  destMac := session.clientMac
  clientIp := session.remoteIp
  remoteIp := session.clientIp
  localPort := session.remotePort
  remotePort := session.localPort

/-- A segment of the other end as it arrives. -/
def TcpSession.segment (session : TcpSession) (frame : TcpFrame) : RxFrame :=
  ⟨netBuildTcpFrame session.peer 0 frame, (netBuildTcpFrame session.peer 0 frame).length⟩

def TcpFrame.view (session : TcpSession) (frame : TcpFrame) : TcpPacketView :=
  ⟨session.remoteIp, session.clientIp, session.remotePort, session.localPort, frame.seq,
    frame.ack, frame.flags, 54, frame.payload.length⟩

/-- A segment of the other end is recognised as part of the session. -/
theorem packetOf_segment {session : TcpSession} {frame : TcpFrame}
    (hdest : session.destMac.length = 6) (hclient : session.clientMac.length = 6)
    (hpayload : 20 + 20 + frame.payload.length < 2 ^ 16) :
    session.packetOf (some (session.segment frame)) =
      some (session.segment frame, frame.view session) := by
  have hparse := netParseTcpPacket_build session.peer 0 frame [] hclient hdest hpayload
  rw [List.append_nil] at hparse
  rw [TcpSession.packetOf, TcpSession.segment]
  dsimp only
  rw [hparse]
  simp [TcpSession.accepts, TcpSession.peer, TcpFrame.view]

/-- The payload of a segment is what its sender put in. -/
theorem netPayload_segment {session : TcpSession} {frame : TcpFrame}
    (hdest : session.destMac.length = 6) (hclient : session.clientMac.length = 6) :
    netPayload (session.segment frame).buffer (frame.view session) = frame.payload := by
  have hmac : (session.peer.destMac ++ session.peer.clientMac).length = 12 := by
    rw [List.length_append]
    exact congrArg₂ (· + ·) hclient hdest
  have hdrop : (netBuildTcpFrame session.peer 0 frame).drop 54 = frame.payload := by
    rw [netBuildTcpFrame, List.drop_append, hmac, List.drop_eq_nil_of_le (by omega)]
    rfl
  rw [netPayload, TcpSession.segment, TcpFrame.view, hdrop]
  exact List.take_length

structure TcpState where
  seq : UInt32
  remoteSeq : UInt32
  responseLen : Nat
  buffer : Buffer netHttpBufferMax
  haveData : Bool
  sent : List TcpFrame

inductive TcpStatus where
  | running | idle | finished | reset | failed
  deriving DecidableEq

/-- Hand a frame to `net_frame_send`, whose answer depends on how many went before. -/
def TcpState.send (transmit : Nat → Bool) (st : TcpState) (flags : UInt8) (ack : UInt32)
    (payload : Bytes) : Bool × TcpState :=
  (transmit st.sent.length, { st with sent := st.sent ++ [⟨st.seq, ack, flags, payload⟩] })

/-- The pieces of at most `NET_TCP_SEGMENT_MAX` bytes that `netstack_tcp_send_stream` cuts. -/
def tcpChunks (data : Bytes) : List Bytes :=
  (List.range ((data.length + netTcpSegmentMax - 1) / netTcpSegmentMax)).map fun i =>
    (data.drop (netTcpSegmentMax * i)).take netTcpSegmentMax

def netstackTcpSendStream (transmit : Nat → Bool) (st : TcpState) : List Bytes → Bool × TcpState
  | [] => (true, st)
  | chunk :: rest =>
      match st.send transmit (netTcpAck ||| netTcpPsh) st.remoteSeq chunk with
      | (false, st') => (false, st')
      | (true, st') => netstackTcpSendStream transmit
          { st' with seq := st'.seq + UInt32.ofNat chunk.length } rest

inductive HandshakeStatus where
  | waiting | ready | synFailed | requestFailed | bodyFailed
  deriving DecidableEq

/-- One wait cycle of the handshake loop. -/
def handshakeCycle (session : TcpSession) (transmit : Nat → Bool) (request body : Bytes)
    (event : Option RxFrame) (st : TcpState) : HandshakeStatus × TcpState :=
  match session.packetOf event with
  | none => (.waiting, st)
  | some (_, packet) =>
      if packet.flags &&& (netTcpSyn ||| netTcpAck) = netTcpSyn ||| netTcpAck ∧
          packet.ack = st.seq + 1 then
        let st := { st with remoteSeq := packet.seq + 1, seq := st.seq + 1 }
        let st := (st.send transmit netTcpAck st.remoteSeq []).2
        match netstackTcpSendStream transmit st (tcpChunks request) with
        | (false, st) => (.requestFailed, st)
        | (true, st) =>
            match netstackTcpSendStream transmit st (tcpChunks body) with
            | (false, st) => (.bodyFailed, st)
            | (true, st) => (.ready, st)
      else (.waiting, st)

/-- The handshake loop after a number of wait cycles. -/
def handshakeRun (session : TcpSession) (transmit : Nat → Bool) (request body : Bytes)
    (rx : Nat → Option RxFrame) (st : TcpState) : Nat → HandshakeStatus × TcpState
  | 0 => (.waiting, st)
  | cycle + 1 =>
      match handshakeRun session transmit request body rx st cycle with
      | (.waiting, st') => handshakeCycle session transmit request body (rx cycle) st'
      | stopped => stopped

/-- The state after the SYN, the handshake and the request, as the receive loop finds it. -/
def tcpOpen (session : TcpSession) (transmit : Nat → Bool) (request body : Bytes)
    (seq : UInt32) (rx : Nat → Option RxFrame) : HandshakeStatus × TcpState :=
  let st : TcpState := ⟨seq, 0, 0, Buffer.zero _, false, []⟩
  match st.send transmit netTcpSyn 0 [] with
  | (false, st) => (.synFailed, st)
  | (true, st) => handshakeRun session transmit request body rx st 220

/-- Store the payload of an in-order segment behind the response received so far. -/
def TcpState.store (st : TcpState) (frame : RxFrame) (packet : TcpPacketView) : TcpState :=
  let copy := if netHttpBufferMax ≤ st.responseLen + packet.payloadLen then
      netHttpBufferMax - st.responseLen - 1
    else packet.payloadLen
  { st with
    buffer := (st.buffer.write st.responseLen ((netPayload frame.buffer packet).take copy)).write
      (st.responseLen + copy) [0]
    responseLen := st.responseLen + copy
    remoteSeq := st.remoteSeq + UInt32.ofNat packet.payloadLen
    haveData := true }

/-- Accept the payload of the segment that is next in sequence. -/
def TcpState.acceptData (st : TcpState) (frame : RxFrame) (packet : TcpPacketView) : TcpState :=
  if 0 < packet.payloadLen ∧ packet.seq = st.remoteSeq then st.store frame packet else st

/-- What the receive loop does with a packet of its session. -/
def receivePacket (transmit : Nat → Bool) (frame : RxFrame) (packet : TcpPacketView)
    (st : TcpState) : TcpStatus × TcpState :=
  if packet.flags &&& netTcpRst ≠ 0 then (.reset, st)
  else
    let st := st.acceptData frame packet
    let fin := packet.flags &&& netTcpFin != 0
    let st := if fin then { st with remoteSeq := st.remoteSeq + 1 } else st
    let st := if 0 < packet.payloadLen ∨ fin then (st.send transmit netTcpAck st.remoteSeq []).2
      else st
    (if fin then .finished else .running, st)

/-- One wait cycle of the receive loop. -/
def receiveCycle (session : TcpSession) (transmit : Nat → Bool) (cycle : Nat)
    (event : Option RxFrame) (st : TcpState) : TcpStatus × TcpState :=
  match session.packetOf event with
  | some (frame, packet) => receivePacket transmit frame packet st
  | none =>
      if event.isNone ∧ st.haveData = true ∧ 60 < cycle then (.idle, st) else (.running, st)

/-- The receive loop after a number of wait cycles. -/
def receiveRun (session : TcpSession) (transmit : Nat → Bool) (rx : Nat → Option RxFrame)
    (st : TcpState) : Nat → TcpStatus × TcpState
  | 0 => (.running, st)
  | cycle + 1 =>
      match receiveRun session transmit rx st cycle with
      | (.running, st') => receiveCycle session transmit cycle (rx cycle) st'
      | stopped => stopped

/-- The TCP exchange of one request, with the receive loop cut off after a number of cycles. -/
def tcpExchange (session : TcpSession) (transmit : Nat → Bool) (request body : Bytes)
    (seq : UInt32) (rxHandshake rx : Nat → Option RxFrame) (cycles : Nat) :
    TcpStatus × TcpState :=
  match tcpOpen session transmit request body seq rxHandshake with
  | (.ready, st) => receiveRun session transmit rx st cycles
  | (_, st) => (.failed, st)

/-- The number of wait cycles of the receive loop. -/
def receiveCycles : Nat := 520

end SnsxOS.Arm64
