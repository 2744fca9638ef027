import SnsxOS.Arm64.Net.Packet

/-!
# Received datagrams

A frame is received over what earlier frames left in the receive buffer, and the parser trusts
the lengths in it. The bytes of a datagram are those of the memory from the receive buffer on.
-/

namespace SnsxOS.Arm64

open Framework

/-- The memory from the receive buffer on, after a frame was received into the buffer. -/
def netReceive (memory frame : Bytes) : Bytes :=
  frame.take netFrameMax ++ memory.drop (min frame.length netFrameMax)

/-- The memory after a number of wait cycles. -/
def netMemory (memory : Bytes) (events : List (Option Bytes)) : Bytes :=
  events.foldl (fun memory event => event.elim memory (netReceive memory)) memory

def netSlice (memory : Bytes) (offset length : Nat) : Bytes :=
  (List.range length).map fun i => netByte memory (offset + i)

structure UdpDatagram where
  srcIp : UInt32
  dstIp : UInt32
  srcPort : UInt16
  dstPort : UInt16
  payload : Bytes
  deriving DecidableEq

/-- The datagram that lies at the start of the memory. -/
def netUdpDatagram (memory : Bytes) (frameLen : Nat) : Option UdpDatagram :=
  (netParseUdpPacket memory frameLen).map fun view =>
    ⟨view.srcIp, view.dstIp, view.srcPort, view.dstPort,
      netSlice memory view.payload view.payloadLen⟩

/-- The datagram received with a frame. -/
def netReceiveUdp (memory frame : Bytes) : Option UdpDatagram :=
  netUdpDatagram (netReceive memory frame) (min frame.length netFrameMax)

/-- The payload that an accepted packet announces is within the received bytes. -/
def PayloadReceived (memory : Bytes) (frameLen : Nat) : Prop :=
  ∀ view, netParseUdpPacket memory frameLen = some view →
    view.payload + view.payloadLen ≤ frameLen

section Received

variable {memory memory' : Bytes} {frameLen : Nat}

theorem netReadBe16_congr {offset : Nat} (h : ∀ i < frameLen, netByte memory i = netByte memory' i)
    (hoffset : offset + 2 ≤ frameLen) :
    netReadBe16 memory offset = netReadBe16 memory' offset := by
  rw [netReadBe16, netReadBe16, h offset (by omega), h (offset + 1) (by omega)]

theorem netReadBe32_congr {offset : Nat} (h : ∀ i < frameLen, netByte memory i = netByte memory' i)
    (hoffset : offset + 4 ≤ frameLen) :
    netReadBe32 memory offset = netReadBe32 memory' offset := by
  rw [netReadBe32, netReadBe32, h offset (by omega), h (offset + 1) (by omega),
    h (offset + 2) (by omega), h (offset + 3) (by omega)]

/-- The parser looks at received bytes only. -/
theorem netParseUdpPacket_congr (h : ∀ i < frameLen, netByte memory i = netByte memory' i) :
    netParseUdpPacket memory frameLen = netParseUdpPacket memory' frameLen := by
  rw [netParseUdpPacket, netParseUdpPacket]
  by_cases hshort : frameLen < 42
  · rw [if_pos (.inl hshort), if_pos (.inl hshort)]
  have hversion := h netIpOffset (by rw [netIpOffset]; omega)
  have hproto := h (netIpOffset + 9) (by rw [netIpOffset]; omega)
  have hheader : netIpHeaderLen memory = netIpHeaderLen memory' := by
    rw [netIpHeaderLen, netIpHeaderLen, hversion]
  have htotal : netTotalLength memory = netTotalLength memory' := by
    rw [netTotalLength, netTotalLength, netReadBe16_congr h (by rw [netIpOffset]; omega)]
  rw [netReadBe16_congr h (by omega : 12 + 2 ≤ frameLen), hversion, hproto]
  dsimp only
  rw [hheader, htotal]
  by_cases hheaders : frameLen < 14 + netIpHeaderLen memory' + 8 ∨
      netTotalLength memory' < netIpHeaderLen memory' + 8
  · rw [if_pos hheaders, if_pos hheaders]
  have hudp : netUdpLength memory = netUdpLength memory' := by
    rw [netUdpLength, netUdpLength, hheader, netReadBe16_congr h (by rw [netIpOffset]; omega)]
  rw [hudp, netReadBe32_congr h (by rw [netIpOffset]; omega),
    netReadBe32_congr h (by rw [netIpOffset]; omega),
    netReadBe16_congr h (by rw [netIpOffset]; omega),
    netReadBe16_congr h (by rw [netIpOffset]; omega)]

/-- A datagram whose payload was received does not depend on what the buffer held before. -/
theorem netUdpDatagram_of_received (h : ∀ i < frameLen, netByte memory i = netByte memory' i)
    (hreceived : PayloadReceived memory frameLen) :
    netUdpDatagram memory frameLen = netUdpDatagram memory' frameLen := by
  rw [netUdpDatagram, netUdpDatagram, ← netParseUdpPacket_congr h]
  cases hparse : netParseUdpPacket memory frameLen with
  | none => rfl
  | some view =>
    have hinside := hreceived view hparse
    have hpayload : netSlice memory view.payload view.payloadLen =
        netSlice memory' view.payload view.payloadLen := by
      rw [netSlice, netSlice]
      apply List.map_congr_left
      intro i hi
      have hlt := List.mem_range.mp hi
      exact h _ (by omega)
    rw [Option.map_some, Option.map_some, hpayload]

theorem UdpChecked.payloadReceived (h : UdpChecked memory frameLen) :
    PayloadReceived memory frameLen :=
  fun _ hparse => ((InsideFrame.udp_iff hparse).mpr h).received

theorem netByte_netReceive {frame : Bytes} (memory : Bytes) {i : Nat}
    (h : i < min frame.length netFrameMax) :
    netByte (netReceive memory frame) i = netByte frame i := by
  have htake : i < (frame.take netFrameMax).length := by
    rw [List.length_take]
    omega
  rw [netByte, netByte, netReceive, List.getD_eq_getElem?_getD, List.getD_eq_getElem?_getD,
    List.getElem?_append_left htake, List.getElem?_take_of_lt (by omega)]

/-- A frame that holds its payload brings the same datagram into every buffer. -/
theorem netReceiveUdp_of_received {frame : Bytes}
    (h : PayloadReceived (netReceive memory frame) (min frame.length netFrameMax)) :
    netReceiveUdp memory frame = netReceiveUdp memory' frame := by
  refine netUdpDatagram_of_received (fun i hi => ?_) h
  rw [netByte_netReceive memory hi, netByte_netReceive memory' hi]

/-- A frame with honest lengths brings the same datagram into every buffer. -/
theorem netReceiveUdp_of_checked {frame : Bytes}
    (hchecked : UdpChecked (netReceive memory frame) (min frame.length netFrameMax)) :
    netReceiveUdp memory frame = netReceiveUdp memory' frame :=
  netReceiveUdp_of_received hchecked.payloadReceived

end Received

end SnsxOS.Arm64
