import SnsxOS.Arm64.Net.Tcp

/-!
# What the HTTP client receives and acknowledges

The receive loop keeps its position in the server's stream: the next expected sequence number and
the response buffer describe the same prefix. Out-of-order, repeated and overlapping segments
leave the position alone, so data acknowledgements are honest. A FIN moves the expected number
whether or not it is next in the stream.
-/

namespace SnsxOS.Arm64

open Framework

/-- A segment with payload is a piece of the stream at its sequence number. -/
structure GenuineData (start : UInt32) (stream : Bytes) (frame : RxFrame)
    (packet : TcpPacketView) : Prop where
  fits : seqOffset start packet.seq + packet.payloadLen ≤ stream.length
  bytes : netPayload frame.buffer packet =
    (stream.drop (seqOffset start packet.seq)).take packet.payloadLen

/-- The state describes the first `pos` bytes of the stream. -/
structure Receiving (start : UInt32) (stream : Bytes) (pos : Nat) (st : TcpState) : Prop where
  pos_le : pos ≤ stream.length
  remoteSeq : st.remoteSeq = seqAt start pos
  responseLen : st.responseLen = min pos (netHttpBufferMax - 1)
  response : st.buffer.read 0 st.responseLen = stream.take st.responseLen

private theorem copy_eq (pos : Nat) {len : Nat} (hlen : 0 < len) :
    min pos (netHttpBufferMax - 1) +
      (if netHttpBufferMax ≤ min pos (netHttpBufferMax - 1) + len then
        netHttpBufferMax - min pos (netHttpBufferMax - 1) - 1 else len) =
      min (pos + len) (netHttpBufferMax - 1) := by
  by_cases hfull : netHttpBufferMax ≤ min pos (netHttpBufferMax - 1) + len
  · rw [if_pos hfull]
    simp only [netHttpBufferMax] at *
    omega
  · rw [if_neg hfull]
    simp only [netHttpBufferMax] at *
    omega

/-- Storing the piece at the current position moves the position behind it. -/
theorem Receiving.store {start : UInt32} {stream : Bytes} {pos : Nat} {st : TcpState}
    (h : Receiving start stream pos st) {frame : RxFrame} {packet : TcpPacketView}
    (hlen : 0 < packet.payloadLen) (hoffset : seqOffset start packet.seq = pos)
    (hgenuine : GenuineData start stream frame packet) :
    Receiving start stream (pos + packet.payloadLen) (st.store frame packet) := by
  have hfits := hgenuine.fits
  have hbytes := hgenuine.bytes
  rw [hoffset] at hfits hbytes
  have hcopy := copy_eq pos hlen
  have hmax : min (pos + packet.payloadLen) (netHttpBufferMax - 1) < netHttpBufferMax := by
    simp only [netHttpBufferMax]; omega
  have hlast : ([0] : Bytes).length = 1 := rfl
  simp only [TcpState.store]
  rw [h.responseLen]
  generalize hc : (if netHttpBufferMax ≤
      min pos (netHttpBufferMax - 1) + packet.payloadLen then
    netHttpBufferMax - min pos (netHttpBufferMax - 1) - 1 else packet.payloadLen) = copy at *
  have hcopyLe : copy ≤ packet.payloadLen := by omega
  have hpiece : (netPayload frame.buffer packet).take copy = (stream.drop pos).take copy := by
    rw [hbytes, List.take_take, min_eq_left hcopyLe]
  have hpieceLen : ((stream.drop pos).take copy).length = copy := by
    rw [List.length_take, List.length_drop]; omega
  refine ⟨hfits, ?_, hcopy, ?_⟩
  · rw [h.remoteSeq, seqAt_add]
  · dsimp only
    have hread := h.response
    rw [h.responseLen] at hread
    have happend := Buffer.read_write_append st.buffer (min pos (netHttpBufferMax - 1))
      ((stream.drop pos).take copy) (by rw [hpieceLen]; omega)
    rw [hpieceLen] at happend
    rw [Buffer.read_write_of_ge _ (by omega) (by rw [hlast]; omega), hpiece, happend, hread]
    by_cases hpos : pos ≤ netHttpBufferMax - 1
    · rw [min_eq_left hpos, List.take_add]
    · have hzero : copy = 0 := by
        simp only [netHttpBufferMax] at *; omega
      rw [hzero, List.take_zero, List.append_nil, Nat.add_zero]

def TcpPacketView.piece (start : UInt32) (packet : TcpPacketView) : Piece :=
  ⟨seqOffset start packet.seq, packet.payloadLen⟩

/-- Accepting data moves the position as the in-order receiver does. -/
theorem Receiving.accept {start : UInt32} {stream : Bytes} {pos : Nat} {st : TcpState}
    (h : Receiving start stream pos st) (hstream : stream.length < 2 ^ 32) {frame : RxFrame}
    {packet : TcpPacketView}
    (hgenuine : 0 < packet.payloadLen → GenuineData start stream frame packet) :
    Receiving start stream (advance pos (packet.piece start)) (st.acceptData frame packet) := by
  have hseq : packet.seq = st.remoteSeq ↔ seqOffset start packet.seq = pos := by
    rw [h.remoteSeq]
    exact seqAt_eq_iff start packet.seq (lt_of_le_of_lt h.pos_le hstream)
  rw [advance, TcpPacketView.piece, TcpState.acceptData]
  by_cases hoffset : seqOffset start packet.seq = pos
  · by_cases hlen : 0 < packet.payloadLen
    · rw [if_pos hoffset, if_pos ⟨hlen, hseq.mpr hoffset⟩]
      exact h.store hlen hoffset (hgenuine hlen)
    · rw [if_pos hoffset, if_neg fun hc => hlen hc.1, Nat.eq_zero_of_not_pos hlen]
      exact h
  · rw [if_neg hoffset, if_neg fun hc => hoffset (hseq.mp hc.2)]
    exact h

/-- A packet resets the loop, leaves it running or finishes it. -/
theorem receivePacket_cases (transmit : Nat → Bool) (frame : RxFrame) (packet : TcpPacketView)
    (st : TcpState) :
    receivePacket transmit frame packet st = (.reset, st) ∨
    (∃ acks : List TcpFrame, (∀ f ∈ acks, f.ack = (st.acceptData frame packet).remoteSeq) ∧
      receivePacket transmit frame packet st = (.running, { st.acceptData frame packet with
        sent := (st.acceptData frame packet).sent ++ acks })) ∨
    (packet.flags &&& netTcpRst = 0 ∧ packet.flags &&& netTcpFin ≠ 0 ∧
      ∃ ack : TcpFrame, ack.ack = (st.acceptData frame packet).remoteSeq + 1 ∧
        receivePacket transmit frame packet st = (.finished, { st.acceptData frame packet with
          remoteSeq := (st.acceptData frame packet).remoteSeq + 1
          sent := (st.acceptData frame packet).sent ++ [ack] })) := by
  by_cases hreset : packet.flags &&& netTcpRst ≠ 0
  · left
    rw [receivePacket, if_pos hreset]
  right
  rw [receivePacket, if_neg hreset]
  generalize st.acceptData frame packet = acc
  by_cases hfin : packet.flags &&& netTcpFin = 0
  · left
    by_cases hlen : 0 < packet.payloadLen
    · refine ⟨[⟨acc.seq, acc.remoteSeq, netTcpAck, []⟩], by simp, ?_⟩
      simp [hfin, hlen, TcpState.send]
    · refine ⟨[], by simp, ?_⟩
      simp [hfin, hlen]
  · right
    refine ⟨by simpa using hreset, hfin, ⟨acc.seq, acc.remoteSeq + 1, netTcpAck, []⟩, rfl, ?_⟩
    simp [hfin, TcpState.send]

theorem Receiving.withSent {start : UInt32} {stream : Bytes} {pos : Nat} {st : TcpState}
    (h : Receiving start stream pos st) (sent : List TcpFrame) :
    Receiving start stream pos { st with sent := sent } :=
  ⟨h.pos_le, h.remoteSeq, h.responseLen, h.response⟩

/-- The pieces that arrived in the first wait cycles of the receive loop. -/
def arrivals (session : TcpSession) (start : UInt32) (rx : Nat → Option RxFrame)
    (cycles : Nat) : List Piece :=
  (List.range cycles).filterMap fun cycle =>
    (session.packetOf (rx cycle)).map fun received => received.2.piece start

theorem arrivals_succ (session : TcpSession) (start : UInt32) (rx : Nat → Option RxFrame)
    (cycles : Nat) : arrivals session start rx (cycles + 1) =
      arrivals session start rx cycles ++
        ((session.packetOf (rx cycles)).map fun received => received.2.piece start).toList := by
  rw [arrivals, List.range_succ, List.filterMap_append, arrivals]
  cases hpacket : session.packetOf (rx cycles) <;> simp [hpacket]

section Run

variable {session : TcpSession} {transmit : Nat → Bool} {rx : Nat → Option RxFrame}
  {stream : Bytes} {start : UInt32} {st : TcpState}

variable (session transmit rx st) in
/-- One more cycle continues a running loop and leaves a stopped one alone. -/
theorem receiveRun_succ (cycles : Nat) :
    (∃ st', receiveRun session transmit rx st cycles = (.running, st') ∧
      receiveRun session transmit rx st (cycles + 1) =
        receiveCycle session transmit cycles (rx cycles) st') ∨
    ((receiveRun session transmit rx st cycles).1 ≠ .running ∧
      receiveRun session transmit rx st (cycles + 1) =
        receiveRun session transmit rx st cycles) := by
  rw [receiveRun]
  rcases receiveRun session transmit rx st cycles with ⟨status, st'⟩
  cases status with
  | running => exact Or.inl ⟨st', rfl, rfl⟩
  | idle => exact Or.inr ⟨by simp, rfl⟩
  | finished => exact Or.inr ⟨by simp, rfl⟩
  | reset => exact Or.inr ⟨by simp, rfl⟩
  | failed => exact Or.inr ⟨by simp, rfl⟩

variable (transmit) in
/-- A cycle without a packet of the session changes nothing. -/
theorem receiveCycle_none {event : Option RxFrame} (h : session.packetOf event = none)
    (cycle : Nat) (st : TcpState) :
    receiveCycle session transmit cycle event st = (.running, st) ∨
      receiveCycle session transmit cycle event st = (.idle, st) := by
  rw [receiveCycle, h]
  dsimp only
  split
  · exact Or.inr rfl
  · exact Or.inl rfl

theorem receiveCycle_some {event : Option RxFrame} {frame : RxFrame} {packet : TcpPacketView}
    (h : session.packetOf event = some (frame, packet)) (cycle : Nat) (st : TcpState) :
    receiveCycle session transmit cycle event st = receivePacket transmit frame packet st := by
  rw [receiveCycle, h]

/-- While the loop runs, its position is that of the in-order receiver. -/
theorem receiveRun_receiving (hstream : stream.length < 2 ^ 32)
    (hgenuine : ∀ cycle frame packet, session.packetOf (rx cycle) = some (frame, packet) →
      0 < packet.payloadLen → GenuineData start stream frame packet)
    (h : Receiving start stream 0 st) (cycles : Nat) {st' : TcpState}
    (hrun : receiveRun session transmit rx st cycles = (.running, st')) :
    Receiving start stream ((arrivals session start rx cycles).foldl advance 0) st' := by
  induction cycles generalizing st' with
  | zero =>
    obtain rfl : st = st' := (Prod.mk.inj hrun).2
    exact h
  | succ cycles ih =>
    rcases receiveRun_succ session transmit rx st cycles with ⟨prev, hprev, hnext⟩ | ⟨hstop, hnext⟩
    · have hpos := ih hprev
      rw [arrivals_succ, List.foldl_append]
      rw [hnext] at hrun
      cases hpacket : session.packetOf (rx cycles) with
      | none =>
        rcases receiveCycle_none transmit hpacket cycles prev with hc | hc
        · rw [hc] at hrun
          obtain rfl := (Prod.mk.inj hrun).2
          exact hpos
        · rw [hc] at hrun
          cases hrun
      | some received =>
        obtain ⟨frame, packet⟩ := received
        have haccept := hpos.accept hstream (hgenuine cycles frame packet hpacket)
        rw [receiveCycle_some hpacket] at hrun
        rcases receivePacket_cases transmit frame packet prev with
          hc | ⟨acks, -, hc⟩ | ⟨-, -, ack, -, hc⟩
        · rw [hc] at hrun
          cases hrun
        · rw [hc] at hrun
          obtain rfl := (Prod.mk.inj hrun).2
          exact haccept.withSent _
        · rw [hc] at hrun
          cases hrun
    · rw [hnext] at hrun
      exact absurd (congrArg Prod.fst hrun) hstop

/-- The response holds the stream up to the size of its buffer. -/
structure ResponsePrefix (stream : Bytes) (st : TcpState) : Prop where
  length_le : st.responseLen ≤ netHttpBufferMax - 1
  bytes : st.buffer.read 0 st.responseLen <+: stream

theorem Receiving.responsePrefix {pos : Nat} (h : Receiving start stream pos st) :
    ResponsePrefix stream st := by
  refine ⟨?_, ?_⟩
  · rw [h.responseLen]
    exact min_le_right _ _
  · rw [h.response]
    exact List.take_prefix _ _

theorem ResponsePrefix.of_same (h : ResponsePrefix stream st) {st' : TcpState}
    (hbuffer : st'.buffer = st.buffer) (hlen : st'.responseLen = st.responseLen) :
    ResponsePrefix stream st' := by
  refine ⟨?_, ?_⟩
  · rw [hlen]
    exact h.length_le
  · rw [hbuffer, hlen]
    exact h.bytes

/-- However the loop ends, the response is a prefix of the stream. -/
theorem receiveRun_prefix (hstream : stream.length < 2 ^ 32)
    (hgenuine : ∀ cycle frame packet, session.packetOf (rx cycle) = some (frame, packet) →
      0 < packet.payloadLen → GenuineData start stream frame packet)
    (h : Receiving start stream 0 st) (cycles : Nat) :
    ResponsePrefix stream (receiveRun session transmit rx st cycles).2 := by
  induction cycles with
  | zero => exact h.responsePrefix
  | succ cycles ih =>
    rcases receiveRun_succ session transmit rx st cycles with ⟨prev, hprev, hnext⟩ | ⟨-, hnext⟩
    · have hpos := receiveRun_receiving hstream hgenuine h cycles hprev
      rw [hnext]
      cases hpacket : session.packetOf (rx cycles) with
      | none =>
        rcases receiveCycle_none transmit hpacket cycles prev with hc | hc
        · rw [hc]
          exact hpos.responsePrefix
        · rw [hc]
          exact hpos.responsePrefix
      | some received =>
        obtain ⟨frame, packet⟩ := received
        have haccept := (hpos.accept hstream
          (hgenuine cycles frame packet hpacket)).responsePrefix
        rw [receiveCycle_some hpacket]
        rcases receivePacket_cases transmit frame packet prev with
          hc | ⟨acks, -, hc⟩ | ⟨-, -, ack, -, hc⟩
        · rw [hc]
          exact hpos.responsePrefix
        · rw [hc]
          exact haccept.of_same rfl rfl
        · rw [hc]
          exact haccept.of_same rfl rfl
    · rw [hnext]
      exact ih

end Run

/-- The state while the connection is set up: nothing received, and every acknowledgement sent
carries the expected sequence number. -/
structure Opening (st : TcpState) : Prop where
  responseLen : st.responseLen = 0
  acks : ∀ f ∈ st.sent, f.flags &&& netTcpAck ≠ 0 → f.ack = st.remoteSeq

theorem Opening.send {st : TcpState} (h : Opening st) (transmit : Nat → Bool) (flags : UInt8)
    (payload : Bytes) : Opening (st.send transmit flags st.remoteSeq payload).2 := by
  refine ⟨h.responseLen, fun f hf hack => ?_⟩
  rcases List.mem_append.mp hf with hf | hf
  · exact h.acks f hf hack
  · rw [List.mem_singleton.mp hf]
    rfl

theorem Opening.sendStream {st : TcpState} (h : Opening st) (transmit : Nat → Bool)
    (chunks : List Bytes) : Opening (netstackTcpSendStream transmit st chunks).2 := by
  induction chunks generalizing st with
  | nil => exact h
  | cons chunk rest ih =>
    have hsend := h.send transmit (netTcpAck ||| netTcpPsh) chunk
    rw [netstackTcpSendStream]
    rcases hst : st.send transmit (netTcpAck ||| netTcpPsh) st.remoteSeq chunk with ⟨ok, st'⟩
    rw [hst] at hsend
    cases ok with
    | false => exact hsend
    | true => exact ih ⟨hsend.responseLen, hsend.acks⟩

/-- The handshake waits with only the SYN sent and leaves an opening state. -/
theorem handshakeRun_opening (session : TcpSession) (transmit : Nat → Bool)
    (request body : Bytes) (rx : Nat → Option RxFrame) {st : TcpState}
    (hlen : st.responseLen = 0) (hsent : ∀ f ∈ st.sent, f.flags &&& netTcpAck = 0)
    (cycles : Nat) :
    Opening (handshakeRun session transmit request body rx st cycles).2 ∧
      ((handshakeRun session transmit request body rx st cycles).1 = .waiting →
        (handshakeRun session transmit request body rx st cycles).2 = st) := by
  have hstart : Opening st := ⟨hlen, fun f hf hack => absurd (hsent f hf) hack⟩
  induction cycles with
  | zero => exact ⟨hstart, fun _ => rfl⟩
  | succ cycles ih =>
    obtain ⟨hopen, hwait⟩ := ih
    rw [handshakeRun]
    rcases hprev : handshakeRun session transmit request body rx st cycles with ⟨status, prev⟩
    rw [hprev] at hopen hwait
    cases status with
    | waiting =>
      obtain rfl : prev = st := hwait rfl
      dsimp only
      rw [handshakeCycle]
      cases session.packetOf (rx cycles) with
      | none => exact ⟨hstart, fun _ => rfl⟩
      | some received =>
        obtain ⟨frame, packet⟩ := received
        dsimp only
        split
        · have haccept : Opening { prev with
              remoteSeq := packet.seq + 1, seq := prev.seq + 1 } :=
            ⟨hlen, fun f hf hack => absurd (hsent f hf) hack⟩
          have hrequest := (haccept.send transmit netTcpAck []).sendStream transmit
            (tcpChunks request)
          generalize netstackTcpSendStream transmit _ (tcpChunks request) = result at *
          obtain ⟨ok, mid⟩ := result
          cases ok with
          | false => exact ⟨hrequest, fun hc => by cases hc⟩
          | true =>
            have hbody := hrequest.sendStream transmit (tcpChunks body)
            dsimp only at hbody ⊢
            generalize netstackTcpSendStream transmit mid (tcpChunks body) = result at *
            obtain ⟨ok, last⟩ := result
            cases ok with
            | false => exact ⟨hbody, fun hc => by cases hc⟩
            | true => exact ⟨hbody, fun hc => by cases hc⟩
        · exact ⟨hstart, fun _ => rfl⟩
    | ready => exact ⟨hopen, hwait⟩
    | synFailed => exact ⟨hopen, hwait⟩
    | requestFailed => exact ⟨hopen, hwait⟩
    | bodyFailed => exact ⟨hopen, hwait⟩

theorem tcpOpen_opening (session : TcpSession) (transmit : Nat → Bool) (request body : Bytes)
    (seq : UInt32) (rx : Nat → Option RxFrame) :
    Opening (tcpOpen session transmit request body seq rx).2 := by
  have hsyn : ∀ f ∈ [(⟨seq, 0, netTcpSyn, []⟩ : TcpFrame)], f.flags &&& netTcpAck = 0 := by
    intro f hf
    rw [List.mem_singleton.mp hf]
    exact (by decide : netTcpSyn &&& netTcpAck = 0)
  simp only [tcpOpen, TcpState.send]
  cases transmit 0 with
  | false => exact ⟨rfl, fun f hf hack => absurd (hsyn f hf) hack⟩
  | true => exact (handshakeRun_opening session transmit request body rx rfl hsyn 220).1

theorem Opening.receiving {st : TcpState} (h : Opening st) (stream : Bytes) :
    Receiving st.remoteSeq stream 0 st := by
  refine ⟨Nat.zero_le _, (seqAt_zero _).symm, ?_, ?_⟩
  · rw [h.responseLen]
    rfl
  · rw [h.responseLen, Buffer.read_zero_length, List.take_zero]

end SnsxOS.Arm64
