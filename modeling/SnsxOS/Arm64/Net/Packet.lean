import SnsxOS.Framework.Bytes

/-!
# Received frames

The UDP and TCP parsers of the ARM64 network stack. A frame is the receive buffer from its first
byte on together with the number of bytes received; the buffer may hold more bytes, left over
from earlier frames. A payload pointer is its distance from the start of the frame.
-/

namespace SnsxOS.Arm64

open Framework

def netEthertypeIpv4 : UInt16 := 0x0800

def netIpprotoTcp : UInt8 := 6

def netIpprotoUdp : UInt8 := 17

def netTcpFin : UInt8 := 0x01

def netTcpSyn : UInt8 := 0x02

def netTcpRst : UInt8 := 0x04

def netTcpPsh : UInt8 := 0x08

def netTcpAck : UInt8 := 0x10

def netFrameMax : Nat := 2048

/-- The byte at a distance from the start of the frame. -/
def netByte (frame : Bytes) (offset : Nat) : UInt8 := frame.getD offset 0

def netReadBe16 (frame : Bytes) (offset : Nat) : UInt16 :=
  (netByte frame offset).toUInt16 <<< 8 ||| (netByte frame (offset + 1)).toUInt16

def netReadBe32 (frame : Bytes) (offset : Nat) : UInt32 :=
  (netByte frame offset).toUInt32 <<< 24 ||| (netByte frame (offset + 1)).toUInt32 <<< 16 |||
    (netByte frame (offset + 2)).toUInt32 <<< 8 ||| (netByte frame (offset + 3)).toUInt32

/-- Distance of the IPv4 header from the start of the frame. -/
def netIpOffset : Nat := 14

def netIpHeaderLen (frame : Bytes) : Nat :=
  (netByte frame netIpOffset &&& 0x0F).toNat * 4

def netTotalLength (frame : Bytes) : Nat := (netReadBe16 frame (netIpOffset + 2)).toNat

def netUdpLength (frame : Bytes) : Nat :=
  (netReadBe16 frame (netIpOffset + netIpHeaderLen frame + 4)).toNat

def netTcpHeaderLen (frame : Bytes) : Nat :=
  ((netByte frame (netIpOffset + netIpHeaderLen frame + 12) >>> 4) &&& 0x0F).toNat * 4

/-- The results `net_parse_udp_packet` stores through its pointers. -/
structure UdpPacketView where
  srcIp : UInt32
  dstIp : UInt32
  srcPort : UInt16
  dstPort : UInt16
  payload : Nat
  payloadLen : Nat
  deriving DecidableEq

def netParseUdpPacket (frame : Bytes) (frameLen : Nat) : Option UdpPacketView :=
  if frameLen < 42 ∨ netReadBe16 frame 12 ≠ netEthertypeIpv4 then none
  else if netByte frame netIpOffset >>> 4 ≠ 4 ∨
      netByte frame (netIpOffset + 9) ≠ netIpprotoUdp then none
  else
    let ipHeaderLen := netIpHeaderLen frame
    let totalLength := netTotalLength frame
    if frameLen < 14 + ipHeaderLen + 8 ∨ totalLength < ipHeaderLen + 8 then none
    else
      let udp := netIpOffset + ipHeaderLen
      let udpLength := netUdpLength frame
      if udpLength < 8 ∨ totalLength - ipHeaderLen < udpLength then none
      else some {
        srcIp := netReadBe32 frame (netIpOffset + 12)
        dstIp := netReadBe32 frame (netIpOffset + 16)
        srcPort := netReadBe16 frame udp
        dstPort := netReadBe16 frame (udp + 2)
        payload := udp + 8
        payloadLen := udpLength - 8 }

structure TcpPacketView where
  srcIp : UInt32
  dstIp : UInt32
  srcPort : UInt16
  dstPort : UInt16
  seq : UInt32
  ack : UInt32
  flags : UInt8
  payload : Nat
  payloadLen : Nat
  deriving DecidableEq

def netParseTcpPacket (frame : Bytes) (frameLen : Nat) : Option TcpPacketView :=
  if frameLen < 54 ∨ netReadBe16 frame 12 ≠ netEthertypeIpv4 then none
  else if netByte frame netIpOffset >>> 4 ≠ 4 ∨
      netByte frame (netIpOffset + 9) ≠ netIpprotoTcp then none
  else
    let ipHeaderLen := netIpHeaderLen frame
    let totalLength := netTotalLength frame
    if frameLen < 14 + ipHeaderLen + 20 ∨ totalLength < ipHeaderLen + 20 then none
    else
      let tcp := netIpOffset + ipHeaderLen
      let tcpHeaderLen := netTcpHeaderLen frame
      if tcpHeaderLen < 20 ∨ totalLength < ipHeaderLen + tcpHeaderLen then none
      else some {
        srcIp := netReadBe32 frame (netIpOffset + 12)
        dstIp := netReadBe32 frame (netIpOffset + 16)
        srcPort := netReadBe16 frame tcp
        dstPort := netReadBe16 frame (tcp + 2)
        seq := netReadBe32 frame (tcp + 4)
        ack := netReadBe32 frame (tcp + 8)
        flags := netByte frame (tcp + 13)
        payload := tcp + tcpHeaderLen
        payloadLen := totalLength - ipHeaderLen - tcpHeaderLen }

/-- The part of the frame a view reports as payload. -/
def netPayload (frame : Bytes) (view : TcpPacketView) : Bytes :=
  (frame.drop view.payload).take view.payloadLen

/-- The headers come one after the other and every payload byte was received. -/
structure InsideFrame (frame : Bytes) (frameLen headerLen payload payloadLen : Nat) :
    Prop where
  ipHeader : 20 ≤ netIpHeaderLen frame
  afterHeaders : netIpOffset + netIpHeaderLen frame + headerLen ≤ payload
  received : payload + payloadLen ≤ frameLen

/-- What an accepted UDP packet leaves unchecked: the header length field is at least five words
and the length field of the UDP header stays within the received bytes. -/
def UdpChecked (frame : Bytes) (frameLen : Nat) : Prop :=
  20 ≤ netIpHeaderLen frame ∧
    netIpOffset + netIpHeaderLen frame + netUdpLength frame ≤ frameLen

instance (frame : Bytes) (frameLen : Nat) : Decidable (UdpChecked frame frameLen) :=
  inferInstanceAs (Decidable (_ ∧ _))

/-- What an accepted TCP packet leaves unchecked: the header length field is at least five words
and the total length of the IPv4 packet stays within the received bytes. -/
def TcpChecked (frame : Bytes) (frameLen : Nat) : Prop :=
  20 ≤ netIpHeaderLen frame ∧ netIpOffset + netTotalLength frame ≤ frameLen

theorem netParseUdpPacket_fields {frame : Bytes} {frameLen : Nat} {view : UdpPacketView}
    (h : netParseUdpPacket frame frameLen = some view) :
    8 ≤ netUdpLength frame ∧ view.payload = netIpOffset + netIpHeaderLen frame + 8 ∧
      view.payloadLen = netUdpLength frame - 8 := by
  simp only [netParseUdpPacket] at h
  split at h
  · cases h
  split at h
  · cases h
  split at h
  · cases h
  split at h
  · cases h
  rename_i hlength
  obtain rfl := Option.some.inj h
  exact ⟨not_lt.mp (not_or.mp hlength).1, rfl, rfl⟩

theorem netParseTcpPacket_fields {frame : Bytes} {frameLen : Nat} {view : TcpPacketView}
    (h : netParseTcpPacket frame frameLen = some view) :
    20 ≤ netTcpHeaderLen frame ∧
      netIpHeaderLen frame + netTcpHeaderLen frame ≤ netTotalLength frame ∧
      view.payload = netIpOffset + netIpHeaderLen frame + netTcpHeaderLen frame ∧
      view.payloadLen = netTotalLength frame - netIpHeaderLen frame - netTcpHeaderLen frame := by
  simp only [netParseTcpPacket] at h
  split at h
  · cases h
  split at h
  · cases h
  split at h
  · cases h
  split at h
  · cases h
  rename_i hlength
  obtain rfl := Option.some.inj h
  exact ⟨not_lt.mp (not_or.mp hlength).1, not_lt.mp (not_or.mp hlength).2, rfl, rfl⟩

theorem InsideFrame.udp_iff {frame : Bytes} {frameLen : Nat} {view : UdpPacketView}
    (h : netParseUdpPacket frame frameLen = some view) :
    InsideFrame frame frameLen 8 view.payload view.payloadLen ↔ UdpChecked frame frameLen := by
  obtain ⟨hlength, hpayload, hlen⟩ := netParseUdpPacket_fields h
  constructor
  · intro hin
    have hreceived := hin.received
    exact ⟨hin.ipHeader, by omega⟩
  · intro hchecked
    obtain ⟨hheader, hfit⟩ := hchecked
    exact ⟨hheader, by omega, by omega⟩

theorem InsideFrame.tcp_iff {frame : Bytes} {frameLen : Nat} {view : TcpPacketView}
    (h : netParseTcpPacket frame frameLen = some view) :
    InsideFrame frame frameLen (netTcpHeaderLen frame) view.payload view.payloadLen ↔
      TcpChecked frame frameLen := by
  obtain ⟨hheaderLen, htotal, hpayload, hlen⟩ := netParseTcpPacket_fields h
  constructor
  · intro hin
    have hreceived := hin.received
    exact ⟨hin.ipHeader, by omega⟩
  · intro hchecked
    obtain ⟨hheader, hfit⟩ := hchecked
    exact ⟨hheader, by omega, by omega⟩

/-- An accepted packet keeps its payload inside the received bytes exactly when the two lengths
the parsers leave unchecked are in order. -/
theorem netParse_inside_iff (frame : Bytes) (frameLen : Nat) :
    (∀ view, netParseUdpPacket frame frameLen = some view →
      (InsideFrame frame frameLen 8 view.payload view.payloadLen ↔ UdpChecked frame frameLen)) ∧
    (∀ view, netParseTcpPacket frame frameLen = some view →
      (InsideFrame frame frameLen (netTcpHeaderLen frame) view.payload view.payloadLen ↔
        TcpChecked frame frameLen)) :=
  ⟨fun _ h => InsideFrame.udp_iff h, fun _ h => InsideFrame.tcp_iff h⟩

/-- A 42-byte UDP frame with the given length fields. -/
def udpFrame (totalLength udpLength : UInt8) : Bytes :=
  List.replicate 12 0 ++ [0x08, 0x00, 0x45, 0, 0, totalLength, 0, 0, 0, 0, 0, 17, 0, 0] ++
    List.replicate 8 0 ++ [0, 67, 0, 68, 0, udpLength, 0, 0]

/-- A 42-byte frame whose UDP header announces 200 bytes is accepted with its payload outside. -/
theorem not_netParse_inside : ¬ ∀ (frame : Bytes) (frameLen : Nat) (view : UdpPacketView),
    frameLen ≤ netFrameMax → netParseUdpPacket frame frameLen = some view →
      InsideFrame frame frameLen 8 view.payload view.payloadLen := by
  intro h
  have hparse : netParseUdpPacket (udpFrame 220 200) 42 =
      some ⟨0, 0, 67, 68, 42, 192⟩ := by decide
  have hin := h (udpFrame 220 200) 42 _ (by decide) hparse
  exact absurd hin.received (by decide)

/-- The same frame with an honest length is accepted with its payload inside. -/
theorem netParse_inside_iff_udpFrame :
    InsideFrame (udpFrame 28 8) 42 8 42 0 := by
  have hparse : netParseUdpPacket (udpFrame 28 8) 42 = some ⟨0, 0, 67, 68, 42, 0⟩ := by decide
  exact ((netParse_inside_iff (udpFrame 28 8) 42).1 _ hparse).mpr (by decide)

end SnsxOS.Arm64
