import SnsxOS.Framework.OnesComplement
import SnsxOS.Arm64.Net.Tcp

/-!
# Built frames

The UDP frame builder next to the TCP one. A frame that was built is parsed back to what went
in, and its checksums verify: the IPv4 header and the TCP segment behind its pseudo-header sum
to all ones.
-/

namespace SnsxOS.Arm64

open Framework

/-- The 20 bytes of an IPv4 header with the given checksum. -/
def netIpv4Header (protocol : UInt8) (srcIp dstIp : UInt32)
    (ipId totalLength checksum : UInt16) : Bytes :=
  [0x45, 0] ++ netWriteBe16 totalLength ++ netWriteBe16 ipId ++ netWriteBe16 0 ++
    [64, protocol] ++ netWriteBe16 checksum ++ netWriteBe32 srcIp ++ netWriteBe32 dstIp

/-- The parameters of `net_build_udp_frame`; without a destination the frame is broadcast. -/
structure UdpFrame where
  dstMac : Option Bytes
  srcIp : UInt32
  dstIp : UInt32
  srcPort : UInt16
  dstPort : UInt16
  payload : Bytes
  deriving DecidableEq

/-- The UDP header, without a checksum, and the payload. -/
def UdpFrame.datagram (frame : UdpFrame) : Bytes :=
  netWriteBe16 frame.srcPort ++ netWriteBe16 frame.dstPort ++
    netWriteBe16 (UInt16.ofNat (8 + frame.payload.length)) ++ netWriteBe16 0 ++ frame.payload

/-- What follows the two MAC addresses of a frame. -/
def UdpFrame.packet (frame : UdpFrame) (ipId : UInt16) : Bytes :=
  let totalLength := UInt16.ofNat (20 + 8 + frame.payload.length)
  netWriteBe16 netEthertypeIpv4 ++
    (netIpv4Header netIpprotoUdp frame.srcIp frame.dstIp ipId totalLength
        (netChecksum (netIpv4Header netIpprotoUdp frame.srcIp frame.dstIp ipId totalLength 0)) ++
      frame.datagram)

def netBuildUdpFrame (clientMac : Bytes) (ipId : UInt16) (frame : UdpFrame) : Bytes :=
  frame.dstMac.getD (List.replicate 6 0xFF) ++ clientMac ++ frame.packet ipId

/-- The bytes in front of a segment that its checksum covers as well. -/
def tcpPseudoHeader (srcIp dstIp : UInt32) (length : Nat) : Bytes :=
  netWriteBe32 srcIp ++ netWriteBe32 dstIp ++ [0, netIpprotoTcp] ++
    netWriteBe16 (UInt16.ofNat length)

section Sums

theorem word_toNat (high low : UInt8) :
    (high.toUInt32 <<< 8 ||| low.toUInt32).toNat = high.toNat * 256 + low.toNat := by
  have hhigh := high.toNat_lt
  have hlow := low.toNat_lt
  have hshift : (high.toUInt32 <<< 8).toNat = high.toNat * 2 ^ 8 := by
    have hbits : (8 : UInt32).toNat % 32 = 8 := by decide
    rw [UInt32.toNat_shiftLeft, UInt8.toNat_toUInt32, hbits, Nat.shiftLeft_eq]
    exact Nat.mod_eq_of_lt (by omega)
  rw [UInt32.toNat_or, hshift, UInt8.toNat_toUInt32, Nat.mul_comm,
    ← Nat.two_pow_add_eq_or_of_lt hlow]
  omega

/-- The accumulator holds the sum of the words as long as that fits 32 bits. -/
theorem netSum_toNat {data : Bytes} (h : (words16 data).sum < 2 ^ 32) :
    (netSum data).toNat = (words16 data).sum := by
  induction data using words16.induct with
  | case1 => rfl
  | case2 high =>
    have hword := word_toNat high 0
    have hor : high.toUInt32 <<< 8 ||| (0 : UInt8).toUInt32 = high.toUInt32 <<< 8 := by simp
    rw [hor] at hword
    rw [netSum, words16, hword]
    simp
  | case3 high low data ih =>
    rw [words16, List.sum_cons] at h ⊢
    rw [netSum, UInt32.toNat_add, word_toNat, ih (by omega)]
    exact Nat.mod_eq_of_lt h

theorem netFold_toNat (sum : UInt32) :
    (netFold sum).toNat = sum.toNat % 65536 + sum.toNat / 65536 := by
  have hlt := sum.toNat_lt
  have hlow : (sum &&& (0xFFFF : UInt32)).toNat = sum.toNat % 65536 := by
    rw [UInt32.toNat_and]
    exact Nat.and_two_pow_sub_one_eq_mod sum.toNat 16
  have hhigh : (sum >>> 16).toNat = sum.toNat / 65536 := by
    rw [UInt32.toNat_shiftRight]
    exact Nat.shiftRight_eq_div_pow sum.toNat 16
  rw [netFold, UInt32.toNat_add, hlow, hhigh]
  omega

/-- The loop of the source stops after two folds at most, with the sum folded to 16 bits. -/
theorem netFold_twice (sum : UInt32) :
    (netFold (netFold sum)).toNat = carryFold sum.toNat ∧ netFold (netFold sum) >>> 16 = 0 ∧
      (sum >>> 16 = 0 → netFold sum = sum) := by
  have hlt := sum.toNat_lt
  have hnat : (netFold (netFold sum)).toNat = carryFold sum.toNat := by
    rw [netFold_toNat, netFold_toNat, carryFold]
    split
    · omega
    · omega
  have hle := carryFold_le sum.toNat
  refine ⟨hnat, ?_, ?_⟩
  · apply UInt32.toNat.inj
    rw [UInt32.toNat_shiftRight, hnat]
    exact (Nat.shiftRight_eq_div_pow _ 16).trans (Nat.div_eq_of_lt (by omega))
  · intro hzero
    have hdiv : sum.toNat / 65536 = 0 := by
      have hshift := congrArg UInt32.toNat hzero
      rw [UInt32.toNat_shiftRight] at hshift
      exact (Nat.shiftRight_eq_div_pow sum.toNat 16).symm.trans hshift
    apply UInt32.toNat.inj
    rw [netFold_toNat]
    omega

theorem complement_toNat {sum : UInt32} (h : sum.toNat ≤ 65535) :
    (~~~ sum).toUInt16.toNat = 65535 - sum.toNat := by
  rw [UInt32.toNat_toUInt16, UInt32.toNat_not]
  have hsize : UInt32.size = 4294967296 := rfl
  omega

theorem netChecksum_toNat {data : Bytes} (h : (words16 data).sum < 2 ^ 32) :
    (netChecksum data).toNat = 65535 - carryFold (words16 data).sum := by
  have hfold := (netFold_twice (netSum data)).1
  rw [netSum_toNat h] at hfold
  rw [netChecksum, complement_toNat (by rw [hfold]; exact carryFold_le _), hfold]

theorem netTcpChecksum_toNat {srcIp dstIp : UInt32} {segment : Bytes}
    (h : (words16 (tcpPseudoHeader srcIp dstIp segment.length ++ segment)).sum < 2 ^ 32) :
    (netTcpChecksum srcIp dstIp segment).toNat =
      65535 - carryFold (words16 (tcpPseudoHeader srcIp dstIp segment.length ++ segment)).sum := by
  have heven : (tcpPseudoHeader srcIp dstIp segment.length).length % 2 = 0 := by
    simp [tcpPseudoHeader, netWriteBe32, netWriteBe16]
  have hsum := h
  rw [words16_append _ _ heven, List.sum_append] at hsum ⊢
  have hadd : (netSum (tcpPseudoHeader srcIp dstIp segment.length) + netSum segment).toNat =
      (words16 (tcpPseudoHeader srcIp dstIp segment.length)).sum + (words16 segment).sum := by
    rw [UInt32.toNat_add, netSum_toNat (by omega), netSum_toNat (by omega)]
    exact Nat.mod_eq_of_lt hsum
  have hfold := (netFold_twice (netSum (tcpPseudoHeader srcIp dstIp segment.length) +
    netSum segment)).1
  rw [hadd] at hfold
  rw [netTcpChecksum, ← tcpPseudoHeader, complement_toNat (by rw [hfold]; exact carryFold_le _), hfold]

/-- The two bytes of a field make up its value. -/
theorem be16_toNat (v : UInt16) :
    (v >>> 8).toUInt8.toNat * 256 + (v &&& 0xFF).toUInt8.toNat = v.toNat := by
  have hlt := v.toNat_lt
  have hhigh : (v >>> 8).toUInt8.toNat = v.toNat / 256 := by
    rw [UInt16.toNat_toUInt8, UInt16.toNat_shiftRight]
    have hshift : v.toNat >>> ((8 : UInt16).toNat % 16) = v.toNat / 256 :=
      Nat.shiftRight_eq_div_pow v.toNat 8
    rw [hshift]
    omega
  have hlow : (v &&& 0xFF).toUInt8.toNat = v.toNat % 256 := by
    rw [UInt16.toNat_toUInt8, UInt16.toNat_and]
    have hand : v.toNat &&& (0xFF : UInt16).toNat = v.toNat % 256 :=
      Nat.and_two_pow_sub_one_eq_mod v.toNat 8
    rw [hand]
    omega
  rw [hhigh, hlow]
  omega

end Sums

section Verified

variable (protocol : UInt8) (srcIp dstIp : UInt32) (ipId totalLength : UInt16)

theorem netIpv4Header_length (checksum : UInt16) :
    (netIpv4Header protocol srcIp dstIp ipId totalLength checksum).length = 20 := rfl

/-- The accumulator of the header checksum does not overflow. -/
theorem netIpv4Header_sum_lt (checksum : UInt16) :
    (words16 (netIpv4Header protocol srcIp dstIp ipId totalLength checksum)).sum < 2 ^ 32 := by
  have hle := sum_words16_le (netIpv4Header protocol srcIp dstIp ipId totalLength checksum)
  rw [netIpv4Header_length] at hle
  omega

theorem netIpv4Header_verifies :
    onesSum (netIpv4Header protocol srcIp dstIp ipId totalLength
      (netChecksum (netIpv4Header protocol srcIp dstIp ipId totalLength 0))) = 0xFFFF := by
  have hchecksum := netChecksum_toNat
    (netIpv4Header_sum_lt protocol srcIp dstIp ipId totalLength 0)
  generalize netChecksum (netIpv4Header protocol srcIp dstIp ipId totalLength 0) = checksum at *
  have hsplit : ∀ field : UInt16, netIpv4Header protocol srcIp dstIp ipId totalLength field =
      (([0x45, 0] : Bytes) ++ netWriteBe16 totalLength ++ netWriteBe16 ipId ++
        netWriteBe16 0 ++ [64, protocol]) ++ (field >>> 8).toUInt8 :: (field &&& 0xFF).toUInt8 ::
          (netWriteBe32 srcIp ++ netWriteBe32 dstIp) := fun _ => rfl
  have hzero := hsplit 0
  rw [hsplit checksum]
  apply onesSum_checksum
  · simp [netWriteBe16]
  · simp [words16, netWriteBe16]
  · rw [be16_toNat, hchecksum, hzero]
    rfl

variable (session : TcpSession) (frame : TcpFrame)

theorem tcpSegment_length (checksum : UInt16) :
    (tcpSegment session frame checksum).length = 20 + frame.payload.length := by
  simp only [tcpSegment, netWriteBe16, netWriteBe32, List.length_append, List.length_cons,
    List.length_nil]

/-- The accumulator of the segment checksum does not overflow. -/
theorem tcpSegment_sum_lt (hpayload : 20 + 20 + frame.payload.length < 2 ^ 16)
    (checksum : UInt16) (length : Nat) :
    (words16 (tcpPseudoHeader session.clientIp session.remoteIp length ++
      tcpSegment session frame checksum)).sum < 2 ^ 32 := by
  have hle := sum_words16_le (tcpPseudoHeader session.clientIp session.remoteIp length ++
    tcpSegment session frame checksum)
  have hpseudo : (tcpPseudoHeader session.clientIp session.remoteIp length).length = 12 := rfl
  rw [List.length_append, hpseudo, tcpSegment_length] at hle
  omega

theorem tcpSegment_verifies (hpayload : 20 + 20 + frame.payload.length < 2 ^ 16) :
    onesSum (tcpPseudoHeader session.clientIp session.remoteIp (20 + frame.payload.length) ++
      tcpSegment session frame (netTcpChecksum session.clientIp session.remoteIp
        (tcpSegment session frame 0))) = 0xFFFF := by
  have hchecksum := netTcpChecksum_toNat (tcpSegment_sum_lt session frame hpayload 0
    (tcpSegment session frame 0).length)
  rw [tcpSegment_length] at hchecksum
  generalize netTcpChecksum session.clientIp session.remoteIp (tcpSegment session frame 0) =
    checksum at *
  have hsplit : ∀ field : UInt16,
      tcpPseudoHeader session.clientIp session.remoteIp (20 + frame.payload.length) ++
        tcpSegment session frame field =
      (tcpPseudoHeader session.clientIp session.remoteIp (20 + frame.payload.length) ++
        (netWriteBe16 session.localPort ++ netWriteBe16 session.remotePort ++
          netWriteBe32 frame.seq ++ netWriteBe32 frame.ack ++ [0x50, frame.flags] ++
          netWriteBe16 4096)) ++ (field >>> 8).toUInt8 :: (field &&& 0xFF).toUInt8 ::
            (netWriteBe16 0 ++ frame.payload) := fun _ => by
    simp [tcpSegment, netWriteBe16]
  have hzero := hsplit 0
  rw [hsplit checksum]
  apply onesSum_checksum
  · simp [tcpPseudoHeader, netWriteBe16, netWriteBe32]
  · simp [tcpPseudoHeader, words16, netWriteBe16, netWriteBe32, netIpprotoTcp]
  · rw [be16_toNat, hchecksum, hzero]
    rfl

end Verified

section Built

/-- The largest payload that leaves a UDP frame within `NET_FRAME_MAX` bytes. -/
def netUdpPayloadMax : Nat := netFrameMax - 42

/-- The largest payload that leaves a TCP frame within `NET_FRAME_MAX` bytes. -/
def netTcpPayloadMax : Nat := netFrameMax - 54

variable {clientMac : Bytes} {frame : UdpFrame}

theorem macs_length (hclient : clientMac.length = 6)
    (hdest : ∀ mac ∈ frame.dstMac, mac.length = 6) :
    (frame.dstMac.getD (List.replicate 6 0xFF) ++ clientMac).length = 12 := by
  rw [List.length_append, hclient]
  cases hmac : frame.dstMac with
  | none => rfl
  | some mac => rw [Option.getD_some, hdest mac hmac]

theorem netBuildUdpFrame_length (hclient : clientMac.length = 6)
    (hdest : ∀ mac ∈ frame.dstMac, mac.length = 6) (ipId : UInt16) :
    (netBuildUdpFrame clientMac ipId frame).length = 42 + frame.payload.length := by
  rw [netBuildUdpFrame, List.length_append, macs_length hclient hdest]
  simp only [UdpFrame.packet, UdpFrame.datagram, netIpv4Header, netWriteBe16, netWriteBe32,
    List.length_append, List.length_cons, List.length_nil]
  omega

/-- A built datagram is accepted and read back field by field, whatever follows it in memory. -/
theorem netParseUdpPacket_build (hclient : clientMac.length = 6)
    (hdest : ∀ mac ∈ frame.dstMac, mac.length = 6)
    (hpayload : 20 + 8 + frame.payload.length < 2 ^ 16) (ipId : UInt16) (rest : Bytes) :
    netParseUdpPacket (netBuildUdpFrame clientMac ipId frame ++ rest)
        (netBuildUdpFrame clientMac ipId frame).length =
      some ⟨frame.srcIp, frame.dstIp, frame.srcPort, frame.dstPort, 42,
        frame.payload.length⟩ := by
  have hmac := macs_length hclient hdest
  rw [netBuildUdpFrame_length hclient hdest, netBuildUdpFrame, UdpFrame.packet]
  generalize frame.dstMac.getD (List.replicate 6 0xFF) ++ clientMac = macs at *
  simp only [List.append_assoc macs, List.append_assoc (netWriteBe16 netEthertypeIpv4),
    List.append_assoc (netIpv4Header _ _ _ _ _ _)]
  have hread := ipv4Read_build hmac hpayload ipId (netChecksum (netIpv4Header netIpprotoUdp
    frame.srcIp frame.dstIp ipId (UInt16.ofNat (20 + 8 + frame.payload.length)) 0)) netIpprotoUdp
    frame.srcIp frame.dstIp (frame.datagram ++ rest)
  rw [← netIpv4Header] at hread
  generalize macs ++ _ = bytes at *
  have hsrcPort := (hread.be16 0).trans (be16_bytes frame.srcPort)
  have hdstPort := (hread.be16 2).trans (be16_bytes frame.dstPort)
  have hlen := (hread.be16 4).trans (be16_bytes (UInt16.ofNat (8 + frame.payload.length)))
  have hudp : netUdpLength bytes = 8 + frame.payload.length := by
    rw [netUdpLength, hread.headerLen, netIpOffset, hlen, UInt16.toNat_ofNat']
    exact Nat.mod_eq_of_lt (by omega)
  have hlong : ¬ 42 + frame.payload.length < 42 := by omega
  have hudpFits : ¬ (8 + frame.payload.length < 8 ∨
      20 + 8 + frame.payload.length - 20 < 8 + frame.payload.length) := by omega
  have hshift : (0x45 : UInt8) >>> 4 = 4 := by decide
  have hshort : ¬ (42 + frame.payload.length < 14 + 20 + 8 ∨
      20 + 8 + frame.payload.length < 20 + 8) := by omega
  simp only [Nat.reduceAdd] at hsrcPort hdstPort
  rw [netParseUdpPacket, if_neg (by simp [hlong, hread.etherType]), if_neg (by
    simp [netIpOffset, hread.version, hread.protocol, hshift]), hread.headerLen,
    hread.totalLength, if_neg hshort, hudp]
  dsimp only
  rw [if_neg hudpFits]
  simp only [netIpOffset, Nat.reduceAdd, hread.srcIp, hread.dstIp, hsrcPort, hdstPort]
  congr 2
  omega

/-- The payload lies where the parser says. -/
theorem payload_netBuildUdpFrame (hclient : clientMac.length = 6)
    (hdest : ∀ mac ∈ frame.dstMac, mac.length = 6) (ipId : UInt16) (rest : Bytes) :
    ((netBuildUdpFrame clientMac ipId frame ++ rest).drop 42).take frame.payload.length =
      frame.payload := by
  have hmac := macs_length hclient hdest
  have hdrop : (netBuildUdpFrame clientMac ipId frame ++ rest).drop 42 =
      frame.payload ++ rest := by
    rw [netBuildUdpFrame, List.append_assoc, List.drop_append, hmac,
      List.drop_eq_nil_of_le (by omega)]
    rfl
  rw [hdrop, List.take_left]

/-- A broadcast frame is read behind its headers like its payload. -/
theorem netReadBe32_netBuildUdpFrame (hclient : clientMac.length = 6) (hdest : frame.dstMac = none)
    (ipId : UInt16) (i : Nat) :
    netReadBe32 (netBuildUdpFrame clientMac ipId frame) (42 + i) = netReadBe32 frame.payload i := by
  have hnone : ∀ mac ∈ frame.dstMac, mac.length = 6 := by simp [hdest]
  have hlength := netBuildUdpFrame_length hclient hnone ipId
  have hpayload := payload_netBuildUdpFrame hclient hnone ipId []
  have hdrop : ((netBuildUdpFrame clientMac ipId frame).drop 42).length = frame.payload.length := by
    rw [List.length_drop, hlength]
    omega
  rw [List.append_nil, List.take_of_length_le hdrop.le] at hpayload
  rw [← List.take_append_drop 42 (netBuildUdpFrame clientMac ipId frame), hpayload]
  apply netReadBe32_append
  rw [List.length_take, hlength]
  omega

theorem payload_netBuildTcpFrame {session : TcpSession} {frame : TcpFrame}
    (hdest : session.destMac.length = 6) (hclient : session.clientMac.length = 6)
    (ipId : UInt16) (rest : Bytes) :
    ((netBuildTcpFrame session ipId frame ++ rest).drop 54).take frame.payload.length =
      frame.payload := by
  have hmac : (session.destMac ++ session.clientMac).length = 12 := by
    rw [List.length_append, hdest, hclient]
  have hdrop : (netBuildTcpFrame session ipId frame ++ rest).drop 54 = frame.payload ++ rest := by
    rw [netBuildTcpFrame, List.append_assoc, List.drop_append, hmac,
      List.drop_eq_nil_of_le (by omega)]
    rfl
  rw [hdrop, List.take_left]

/-- The parts of a built datagram: the addresses, the header and the UDP part. -/
theorem netBuildUdpFrame_header (hclient : clientMac.length = 6)
    (hdest : ∀ mac ∈ frame.dstMac, mac.length = 6) (ipId : UInt16) :
    ((netBuildUdpFrame clientMac ipId frame).drop 14).take 20 =
      netIpv4Header netIpprotoUdp frame.srcIp frame.dstIp ipId
        (UInt16.ofNat (20 + 8 + frame.payload.length))
        (netChecksum (netIpv4Header netIpprotoUdp frame.srcIp frame.dstIp ipId
          (UInt16.ofNat (20 + 8 + frame.payload.length)) 0)) := by
  have hmac := macs_length hclient hdest
  rw [netBuildUdpFrame, List.drop_append, hmac, List.drop_eq_nil_of_le (by omega)]
  rfl

theorem netBuildTcpFrame_length {session : TcpSession} (hdest : session.destMac.length = 6)
    (hclient : session.clientMac.length = 6) (ipId : UInt16) (frame : TcpFrame) :
    (netBuildTcpFrame session ipId frame).length = 54 + frame.payload.length := by
  simp only [netBuildTcpFrame, tcpPacket, ipv4Header, tcpSegment, netWriteBe16, netWriteBe32,
    List.length_append, hdest, hclient, List.length_cons, List.length_nil]
  omega

theorem netBuildTcpFrame_header {session : TcpSession} (hdest : session.destMac.length = 6)
    (hclient : session.clientMac.length = 6) (ipId : UInt16) (frame : TcpFrame) :
    ((netBuildTcpFrame session ipId frame).drop 14).take 20 =
      netIpv4Header netIpprotoTcp session.clientIp session.remoteIp ipId
        (UInt16.ofNat (20 + 20 + frame.payload.length))
        (netChecksum (netIpv4Header netIpprotoTcp session.clientIp session.remoteIp ipId
          (UInt16.ofNat (20 + 20 + frame.payload.length)) 0)) := by
  have hmac : (session.destMac ++ session.clientMac).length = 12 := by
    rw [List.length_append, hdest, hclient]
  rw [netBuildTcpFrame, List.drop_append, hmac, List.drop_eq_nil_of_le (by omega)]
  rfl

theorem netBuildTcpFrame_segment {session : TcpSession} (hdest : session.destMac.length = 6)
    (hclient : session.clientMac.length = 6) (ipId : UInt16) (frame : TcpFrame) :
    (netBuildTcpFrame session ipId frame).drop 34 =
      tcpSegment session frame (netTcpChecksum session.clientIp session.remoteIp
        (tcpSegment session frame 0)) := by
  have hmac : (session.destMac ++ session.clientMac).length = 12 := by
    rw [List.length_append, hdest, hclient]
  rw [netBuildTcpFrame, List.drop_append, hmac, List.drop_eq_nil_of_le (by omega)]
  rfl

/-- What went into a datagram is read back from the frame built for it, and the header checksum
was computed without overflow and verifies. -/
structure UdpFrame.ReadBack (frame : UdpFrame) (ipId : UInt16) (built rest : Bytes) : Prop where
  fits : built.length ≤ netFrameMax
  view : netParseUdpPacket (built ++ rest) built.length =
    some ⟨frame.srcIp, frame.dstIp, frame.srcPort, frame.dstPort, 42, frame.payload.length⟩
  payload : ((built ++ rest).drop 42).take frame.payload.length = frame.payload
  header : onesSum ((built.drop 14).take 20) = 0xFFFF
  noOverflow : ∀ totalLength, (words16 (netIpv4Header netIpprotoUdp frame.srcIp frame.dstIp
    ipId totalLength 0)).sum < 2 ^ 32

/-- What went into a segment is read back from the frame built for it, and both checksums were
computed without overflow and verify. -/
structure TcpFrame.ReadBack (frame : TcpFrame) (session : TcpSession) (ipId : UInt16)
    (built rest : Bytes) : Prop where
  fits : built.length ≤ netFrameMax
  view : netParseTcpPacket (built ++ rest) built.length =
    some ⟨session.clientIp, session.remoteIp, session.localPort, session.remotePort,
      frame.seq, frame.ack, frame.flags, 54, frame.payload.length⟩
  payload : ((built ++ rest).drop 54).take frame.payload.length = frame.payload
  header : onesSum ((built.drop 14).take 20) = 0xFFFF
  segment : onesSum (tcpPseudoHeader session.clientIp session.remoteIp (built.drop 34).length ++
    built.drop 34) = 0xFFFF
  noOverflow : ∀ totalLength, (words16 (netIpv4Header netIpprotoTcp session.clientIp
    session.remoteIp ipId totalLength 0)).sum < 2 ^ 32
  noSegmentOverflow : (words16 (tcpPseudoHeader session.clientIp session.remoteIp
    (built.drop 34).length ++ tcpSegment session frame 0)).sum < 2 ^ 32

theorem UdpFrame.readBack (hclient : clientMac.length = 6)
    (hdest : ∀ mac ∈ frame.dstMac, mac.length = 6)
    (hpayload : frame.payload.length ≤ netUdpPayloadMax) (ipId : UInt16) (rest : Bytes) :
    frame.ReadBack ipId (netBuildUdpFrame clientMac ipId frame) rest where
  fits := by
    rw [netBuildUdpFrame_length hclient hdest]
    exact Nat.add_le_of_le_sub' (by decide) hpayload
  view := by
    have hmax : netUdpPayloadMax = 2006 := rfl
    exact netParseUdpPacket_build hclient hdest (by omega) ipId rest
  payload := payload_netBuildUdpFrame hclient hdest ipId rest
  header := by
    rw [netBuildUdpFrame_header hclient hdest]
    exact netIpv4Header_verifies _ _ _ _ _
  noOverflow := fun totalLength => netIpv4Header_sum_lt _ _ _ _ totalLength 0

theorem TcpFrame.readBack {session : TcpSession} {frame : TcpFrame}
    (hdest : session.destMac.length = 6) (hclient : session.clientMac.length = 6)
    (hpayload : frame.payload.length ≤ netTcpPayloadMax) (ipId : UInt16) (rest : Bytes) :
    frame.ReadBack session ipId (netBuildTcpFrame session ipId frame) rest := by
  have hmax : netTcpPayloadMax = 1994 := rfl
  have hlen : ((netBuildTcpFrame session ipId frame).drop 34).length =
      20 + frame.payload.length := by
    rw [netBuildTcpFrame_segment hdest hclient, tcpSegment_length]
  constructor
  case fits =>
    rw [netBuildTcpFrame_length hdest hclient]
    exact Nat.add_le_of_le_sub' (by decide) hpayload
  case view => exact netParseTcpPacket_build session ipId frame rest hdest hclient (by omega)
  case payload => exact payload_netBuildTcpFrame hdest hclient ipId rest
  case header =>
    rw [netBuildTcpFrame_header hdest hclient]
    exact netIpv4Header_verifies _ _ _ _ _
  case segment =>
    rw [hlen, netBuildTcpFrame_segment hdest hclient]
    exact tcpSegment_verifies session frame (by omega)
  case noOverflow => exact fun totalLength => netIpv4Header_sum_lt _ _ _ _ totalLength 0
  case noSegmentOverflow =>
    rw [hlen]
    exact tcpSegment_sum_lt session frame (by omega) 0 _

/-- Building and parsing are inverse for every payload that fits a frame, whatever the receive
buffer holds behind the frame, and the checksums verify. -/
theorem netFrame_readBack (ipId : UInt16) (rest : Bytes) :
    (∀ (clientMac : Bytes) (frame : UdpFrame), clientMac.length = 6 →
      (∀ mac ∈ frame.dstMac, mac.length = 6) → frame.payload.length ≤ netUdpPayloadMax →
        frame.ReadBack ipId (netBuildUdpFrame clientMac ipId frame) rest) ∧
    (∀ (session : TcpSession) (frame : TcpFrame), session.destMac.length = 6 →
      session.clientMac.length = 6 → frame.payload.length ≤ netTcpPayloadMax →
        frame.ReadBack session ipId (netBuildTcpFrame session ipId frame) rest) :=
  ⟨fun _ _ hclient hdest hpayload => UdpFrame.readBack hclient hdest hpayload ipId rest,
    fun _ _ hdest hclient hpayload => TcpFrame.readBack hdest hclient hpayload ipId rest⟩

/-- A name query from 10.0.2.15 to 10.0.2.3 with an odd payload. -/
def queryFrame : UdpFrame :=
  ⟨some (List.replicate 6 2), 0x0A00020F, 0x0A000203, 40001, 53, [1, 2, 3]⟩

/-- A session from 10.0.2.15 with the web server at 10.0.2.3. -/
def querySession : TcpSession :=
  ⟨List.replicate 6 1, List.replicate 6 2, 0x0A00020F, 0x0A000203, 49200, 80⟩

theorem netFrame_readBack_query :
    queryFrame.ReadBack 7 (netBuildUdpFrame (List.replicate 6 1) 7 queryFrame) [9] ∧
      (TcpFrame.mk 1 2 netTcpAck [71]).ReadBack querySession 7
        (netBuildTcpFrame querySession 7 ⟨1, 2, netTcpAck, [71]⟩) [9] :=
  ⟨(netFrame_readBack 7 [9]).1 _ _ (by decide) (by decide) (by decide),
    (netFrame_readBack 7 [9]).2 _ _ (by decide) (by decide) (by decide)⟩

end Built

end SnsxOS.Arm64
