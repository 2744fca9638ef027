import SnsxOS.Arm64.Net.TcpReceive

/-!
# The exchange as a whole

What the server sent and what the HTTP client makes of it. The response is a prefix of the
stream. The acknowledgements are honest as long as each FIN arrives in sequence; one that
overtakes data is counted and ends the loop all the same.
-/

namespace SnsxOS.Arm64

open Framework

/-- The response is a prefix of the server's stream, whatever reaches the loop. -/
theorem tcpExchange_prefix (session : TcpSession) (transmit : Nat → Bool) (request body : Bytes)
    (seq : UInt32) (rxHandshake rx : Nat → Option RxFrame) {stream : Bytes}
    (hstream : stream.length < 2 ^ 32)
    (hgenuine : ∀ cycle frame packet, session.packetOf (rx cycle) = some (frame, packet) →
      0 < packet.payloadLen → GenuineData
        (tcpOpen session transmit request body seq rxHandshake).2.remoteSeq stream frame packet)
    (cycles : Nat) :
    ResponsePrefix stream
      (tcpExchange session transmit request body seq rxHandshake rx cycles).2 := by
  have hopening := tcpOpen_opening session transmit request body seq rxHandshake
  rw [tcpExchange]
  generalize tcpOpen session transmit request body seq rxHandshake = opened at *
  obtain ⟨status, st⟩ := opened
  have hstart : Receiving st.remoteSeq stream 0 st := hopening.receiving stream
  cases status with
  | ready => exact receiveRun_prefix hstream hgenuine hstart cycles
  | waiting => exact hstart.responsePrefix
  | synFailed => exact hstart.responsePrefix
  | requestFailed => exact hstart.responsePrefix
  | bodyFailed => exact hstart.responsePrefix

/-- A segment of the server: its payload is a piece of the stream and a FIN ends the stream. -/
structure Genuine (start : UInt32) (stream : Bytes) (frame : RxFrame) (packet : TcpPacketView) :
    Prop where
  data : 0 < packet.payloadLen → GenuineData start stream frame packet
  fin : packet.flags &&& netTcpFin ≠ 0 →
    seqOffset start packet.seq + packet.payloadLen = stream.length

/-- An acknowledgement number stands for stream bytes that have arrived without a gap, or for
the FIN after all of them. -/
def HonestAck (start : UInt32) (stream : Bytes) (arrived : List Piece) (ack : UInt32) : Prop :=
  ∃ k, Covered arrived k ∧
    (k ≤ stream.length ∧ ack = seqAt start k ∨ k = stream.length ∧ ack = seqAt start (k + 1))

theorem HonestAck.mono {start : UInt32} {stream : Bytes} {arrived arrived' : List Piece}
    {ack : UInt32} (h : HonestAck start stream arrived ack) (hsub : arrived ⊆ arrived') :
    HonestAck start stream arrived' ack := by
  obtain ⟨k, hcovered, hk⟩ := h
  exact ⟨k, hcovered.mono hsub le_rfl, hk⟩

/-- The FIN is the next thing the receiver expects, before or after the segment's payload. -/
def InSequence (st : TcpState) (packet : TcpPacketView) : Prop :=
  packet.seq = st.remoteSeq ∨ packet.seq + UInt32.ofNat packet.payloadLen = st.remoteSeq

/-- Every FIN that reaches the running loop is in sequence. -/
def FinsInSequence (session : TcpSession) (transmit : Nat → Bool) (rx : Nat → Option RxFrame)
    (st : TcpState) : Prop :=
  ∀ cycle st' frame packet, receiveRun session transmit rx st cycle = (.running, st') →
    session.packetOf (rx cycle) = some (frame, packet) → packet.flags &&& netTcpRst = 0 →
    packet.flags &&& netTcpFin ≠ 0 → InSequence st' packet

section Honest

variable {session : TcpSession} {transmit : Nat → Bool} {rx : Nat → Option RxFrame}
  {stream : Bytes} {start : UInt32} {st : TcpState}

/-- A FIN in sequence arrives when the position reaches the end of the stream. -/
theorem Receiving.advance_fin {pos : Nat} (h : Receiving start stream pos st)
    (hstream : stream.length < 2 ^ 32) {frame : RxFrame} {packet : TcpPacketView}
    (hgenuine : Genuine start stream frame packet) (hfin : packet.flags &&& netTcpFin ≠ 0)
    (hseq : InSequence st packet) : advance pos (packet.piece start) = stream.length := by
  have hend := hgenuine.fin hfin
  have hpos := h.pos_le
  rw [advance, TcpPacketView.piece]
  rcases hseq with hseq | hseq
  · rw [h.remoteSeq] at hseq
    rw [if_pos ((seqAt_eq_iff start packet.seq (by omega)).mp hseq)]
    rw [← hend, (seqAt_eq_iff start packet.seq (by omega)).mp hseq]
  · have hboth : seqAt start stream.length = seqAt start pos := by
      rw [← hend, ← seqAt_add, seqAt_seqOffset, hseq, h.remoteSeq]
    have hlast : stream.length = pos := by
      rw [← seqOffset_seqAt start hstream, hboth, seqOffset_seqAt start (by omega)]
    dsimp only
    split
    · omega
    · exact hlast.symm

/-- What has been sent so far is honest about what has arrived, and a loop that stopped on a FIN
has the whole stream behind it. -/
structure HonestRun (start : UInt32) (stream : Bytes) (arrived : List Piece)
    (result : TcpStatus × TcpState) : Prop where
  acks : ∀ f ∈ result.2.sent, f.flags &&& netTcpAck ≠ 0 → HonestAck start stream arrived f.ack
  complete : result.1 = .finished → Covered arrived stream.length

theorem HonestRun.mono {arrived arrived' : List Piece} {result : TcpStatus × TcpState}
    (h : HonestRun start stream arrived result) (hsub : arrived ⊆ arrived') :
    HonestRun start stream arrived' result :=
  ⟨fun f hf hack => (h.acks f hf hack).mono hsub, fun hc => (h.complete hc).mono hsub le_rfl⟩

theorem HonestRun.unfinished {arrived : List Piece} {result : TcpStatus × TcpState}
    (h : HonestRun start stream arrived result) {status : TcpStatus}
    (hstatus : status ≠ .finished) : HonestRun start stream arrived (status, result.2) :=
  ⟨h.acks, fun hc => absurd hc hstatus⟩

/-- Acknowledgements of one number are honest when that number is. -/
theorem HonestRun.send {arrived : List Piece} {result : TcpStatus × TcpState}
    (h : HonestRun start stream arrived result) {status : TcpStatus} {st' : TcpState}
    {acks : List TcpFrame} {ack : UInt32} (hacks : ∀ f ∈ acks, f.ack = ack)
    (hsent : st'.sent = result.2.sent ++ acks) (hhonest : HonestAck start stream arrived ack)
    (hcomplete : status = .finished → Covered arrived stream.length) :
    HonestRun start stream arrived (status, st') := by
  refine ⟨fun f hf hack => ?_, hcomplete⟩
  dsimp only at hf
  rw [hsent] at hf
  rcases List.mem_append.mp hf with hf | hf
  · exact h.acks f hf hack
  · rw [hacks f hf]
    exact hhonest

theorem acceptData_sent (st : TcpState) (frame : RxFrame) (packet : TcpPacketView) :
    (st.acceptData frame packet).sent = st.sent := by
  rw [TcpState.acceptData]
  split
  · rfl
  · rfl

theorem receiveRun_honest (hstream : stream.length < 2 ^ 32)
    (hgenuine : ∀ cycle frame packet, session.packetOf (rx cycle) = some (frame, packet) →
      Genuine start stream frame packet)
    (hfins : FinsInSequence session transmit rx st) (h : Receiving start stream 0 st)
    (hsent : ∀ f ∈ st.sent, f.flags &&& netTcpAck ≠ 0 → f.ack = start) (cycles : Nat) :
    HonestRun start stream (arrivals session start rx cycles)
      (receiveRun session transmit rx st cycles) := by
  induction cycles with
  | zero =>
    refine ⟨fun f hf hack => ⟨0, Covered.zero _, Or.inl ⟨Nat.zero_le _, ?_⟩⟩, fun hc => ?_⟩
    · rw [hsent f hf hack, seqAt_zero]
    · cases hc
  | succ cycles ih =>
    have hmono : arrivals session start rx cycles ⊆ arrivals session start rx (cycles + 1) := by
      rw [arrivals_succ]
      exact List.subset_append_left _ _
    rcases receiveRun_succ session transmit rx st cycles with ⟨prev, hprev, hnext⟩ | ⟨-, hnext⟩
    · have hpos := receiveRun_receiving hstream
        (fun cycle frame packet hpacket => (hgenuine cycle frame packet hpacket).data) h cycles
        hprev
      have hold := ih.mono hmono
      rw [hprev] at hold
      rw [hnext]
      cases hpacket : session.packetOf (rx cycles) with
      | none =>
        rcases receiveCycle_none transmit hpacket cycles prev with hc | hc
        · rw [hc]
          exact hold
        · rw [hc]
          exact hold.unfinished (by decide)
      | some received =>
        obtain ⟨frame, packet⟩ := received
        have hpiece := hgenuine cycles frame packet hpacket
        have haccept := hpos.accept hstream hpiece.data
        have hcovered : Covered (arrivals session start rx (cycles + 1))
            (advance ((arrivals session start rx cycles).foldl advance 0)
              (packet.piece start)) := by
          rw [arrivals_succ, hpacket]
          exact (covered_foldl_advance _).snoc _
        rw [receiveCycle_some hpacket]
        rcases receivePacket_cases transmit frame packet prev with
          hc | ⟨acks, hacks, hc⟩ | ⟨hreset, hfin, ack, hack, hc⟩
        · rw [hc]
          exact hold.unfinished (by decide)
        · rw [hc]
          refine hold.send hacks (by rw [acceptData_sent]) ⟨_, hcovered, ?_⟩ (fun hf => by cases hf)
          exact Or.inl ⟨haccept.pos_le, haccept.remoteSeq⟩
        · have hend : advance ((arrivals session start rx cycles).foldl advance 0)
              (packet.piece start) = stream.length :=
            hpos.advance_fin hstream hpiece hfin
              (hfins cycles prev frame packet hprev hpacket hreset hfin)
          have hremote := haccept.remoteSeq
          rw [hend] at hremote
          have hall : Covered (arrivals session start rx (cycles + 1)) stream.length := by
            rw [← hend]
            exact hcovered
          rw [hc]
          have hnumber : ∀ f ∈ [ack], f.ack = seqAt start (stream.length + 1) := by
            intro f hf
            rw [List.mem_singleton.mp hf, hack, hremote, ← seqAt_add]
            rfl
          exact hold.send hnumber (by rw [acceptData_sent]) ⟨_, hall, Or.inr ⟨rfl, rfl⟩⟩
            (fun _ => hall)
    · rw [hnext]
      exact ih.mono hmono

end Honest

section Page

theorem netstackTcpSendStream_accepted (st : TcpState) (chunks : List Bytes) :
    (netstackTcpSendStream (fun _ => true) st chunks).1 = true ∧
      (netstackTcpSendStream (fun _ => true) st chunks).2.remoteSeq = st.remoteSeq := by
  induction chunks generalizing st with
  | nil => exact ⟨rfl, rfl⟩
  | cons chunk rest ih => exact ih _

/-- A handshake loop that stopped in its first cycle has stopped for good. -/
theorem handshakeRun_stopped {session : TcpSession} {transmit : Nat → Bool}
    {request body : Bytes} {rx : Nat → Option RxFrame} {st : TcpState}
    (h : (handshakeCycle session transmit request body (rx 0) st).1 = .ready) (cycles : Nat) :
    handshakeRun session transmit request body rx st (cycles + 1) =
      handshakeCycle session transmit request body (rx 0) st := by
  induction cycles with
  | zero => rfl
  | succ cycles ih =>
    rw [handshakeRun, ih]
    rcases hcycle : handshakeCycle session transmit request body (rx 0) st with ⟨status, st'⟩
    rw [hcycle] at h
    obtain rfl : status = .ready := h
    rfl

/-- A server that answers the SYN first opens the session at its sequence number. -/
theorem tcpOpen_ready {session : TcpSession} (request body : Bytes) {seq : UInt32}
    {rx : Nat → Option RxFrame} {frame : RxFrame} {packet : TcpPacketView}
    (hpacket : session.packetOf (rx 0) = some (frame, packet))
    (hflags : packet.flags = netTcpSyn ||| netTcpAck) (hack : packet.ack = seq + 1) :
    (tcpOpen session (fun _ => true) request body seq rx).1 = .ready ∧
      (tcpOpen session (fun _ => true) request body seq rx).2.remoteSeq = packet.seq + 1 := by
  have hsyn : packet.flags &&& (netTcpSyn ||| netTcpAck) = netTcpSyn ||| netTcpAck := by
    rw [hflags]
    decide
  have hopen : ∀ st : TcpState, st.seq = seq →
      (handshakeCycle session (fun _ => true) request body (rx 0) st).1 = .ready ∧
        (handshakeCycle session (fun _ => true) request body (rx 0) st).2.remoteSeq =
          packet.seq + 1 := by
    intro st hseq
    rw [handshakeCycle, hpacket]
    dsimp only
    rw [if_pos ⟨hsyn, by rw [hseq, hack]⟩]
    generalize hst : (TcpState.send (fun _ => true)
      { st with remoteSeq := packet.seq + 1, seq := st.seq + 1 } netTcpAck
      (packet.seq + 1) []).2 = acked
    have hremote : acked.remoteSeq = packet.seq + 1 := by
      rw [← hst]
      rfl
    obtain ⟨hsent, hkept⟩ := netstackTcpSendStream_accepted acked (tcpChunks request)
    generalize netstackTcpSendStream (fun _ => true) acked (tcpChunks request) = result at *
    obtain ⟨ok, mid⟩ := result
    obtain rfl : ok = true := hsent
    obtain ⟨hsent, hlast⟩ := netstackTcpSendStream_accepted mid (tcpChunks body)
    dsimp only at hkept ⊢
    generalize netstackTcpSendStream (fun _ => true) mid (tcpChunks body) = result at *
    obtain ⟨ok, last⟩ := result
    obtain rfl : ok = true := hsent
    exact ⟨rfl, hlast.trans (hkept.trans hremote)⟩
  rw [tcpOpen]
  dsimp only [TcpState.send]
  rw [handshakeRun_stopped (hopen _ rfl).1 219]
  exact hopen _ rfl

def pageSession : TcpSession where
  clientMac := List.replicate 6 2
  destMac := List.replicate 6 4
  clientIp := 0x0A00020F
  remoteIp := 0x0A000202
  localPort := 49152
  remotePort := 80

def pageStream : Bytes := ascii "hi"

def pageRequest : Bytes := ascii "GET / HTTP/1.0"

def pageData : TcpFrame := ⟨1000, 16, netTcpAck ||| netTcpPsh, pageStream⟩

def pageFin : TcpFrame := ⟨1002, 16, netTcpAck ||| netTcpFin, []⟩

/-- The server's segments in the order in which they arrive. -/
def arriving (frames : List TcpFrame) (cycle : Nat) : Option RxFrame :=
  frames[cycle]?.map pageSession.segment

def pageHandshake : Nat → Option RxFrame :=
  arriving [⟨999, 2, netTcpSyn ||| netTcpAck, []⟩]

theorem packetOf_arriving {frames : List TcpFrame}
    (hshort : ∀ frame ∈ frames, frame.payload.length ≤ netTcpSegmentMax) (cycle : Nat) :
    pageSession.packetOf (arriving frames cycle) =
      frames[cycle]?.map fun frame => (pageSession.segment frame, frame.view pageSession) := by
  rw [arriving]
  cases hframe : frames[cycle]? with
  | none => rfl
  | some frame =>
    have hpayload := hshort frame (List.mem_of_getElem? hframe)
    rw [netTcpSegmentMax] at hpayload
    exact packetOf_segment (by decide) (by decide) (by omega)

theorem page_open : (tcpOpen pageSession (fun _ => true) pageRequest [] 1 pageHandshake).1 = .ready ∧
    (tcpOpen pageSession (fun _ => true) pageRequest [] 1 pageHandshake).2.remoteSeq = 1000 := by
  have hpacket : pageSession.packetOf (pageHandshake 0) =
      some (pageSession.segment ⟨999, 2, netTcpSyn ||| netTcpAck, []⟩,
        TcpFrame.view pageSession ⟨999, 2, netTcpSyn ||| netTcpAck, []⟩) :=
    packetOf_arriving (by decide) 0
  have hack : (TcpFrame.view pageSession ⟨999, 2, netTcpSyn ||| netTcpAck, []⟩).ack = 1 + 1 := rfl
  obtain ⟨hready, hremote⟩ := tcpOpen_ready pageRequest [] hpacket rfl hack
  exact ⟨hready, hremote.trans (by decide)⟩

/-- The page in one data segment and the FIN are genuine, in whichever order they arrive. -/
theorem page_genuine {frames : List TcpFrame} (h : ∀ frame ∈ frames, frame ∈ [pageData, pageFin])
    (cycle : Nat) {frame : RxFrame} {packet : TcpPacketView}
    (hpacket : pageSession.packetOf (arriving frames cycle) = some (frame, packet)) :
    Genuine 1000 pageStream frame packet := by
  have hshort : ∀ frame ∈ [pageData, pageFin], frame.payload.length ≤ netTcpSegmentMax := by
    decide
  rw [packetOf_arriving (fun frame hframe => hshort frame (h frame hframe)),
    Option.map_eq_some_iff] at hpacket
  obtain ⟨sent, hsent, heq⟩ := hpacket
  obtain ⟨rfl, rfl⟩ := Prod.mk.inj heq
  have hbytes : netPayload (pageSession.segment sent).buffer (sent.view pageSession) =
      sent.payload := netPayload_segment (by decide) (by decide)
  rcases List.mem_pair.mp (h sent (List.mem_of_getElem? hsent)) with rfl | rfl
  · exact ⟨fun _ => ⟨by decide, hbytes.trans (by decide)⟩, fun hc => absurd hc (by decide)⟩
  · exact ⟨fun hc => absurd hc (by decide), fun _ => by decide⟩

/-- The page arrives as its data segment and its FIN. -/
theorem tcpExchange_prefix_page : ResponsePrefix pageStream
    (tcpExchange pageSession (fun _ => true) pageRequest [] 1 pageHandshake
      (arriving [pageData, pageFin]) receiveCycles).2 := by
  apply tcpExchange_prefix pageSession (fun _ => true) pageRequest [] 1 pageHandshake
    (arriving [pageData, pageFin]) (by decide)
  intro cycle frame packet hpacket hlen
  rw [page_open.2]
  exact (page_genuine (fun _ h => h) cycle hpacket).data hlen

end Page

end SnsxOS.Arm64
