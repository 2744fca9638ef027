import SnsxOS.Arm64.Net.Frames

/-!
# Sending a stream of bytes

`netstack_tcp_send_stream` with its counters: it builds one frame after the other from the data
not yet sent and stops when `net_frame_send` refuses one. The TCP session of the HTTP client works
on the pieces that come out of it.
-/

namespace SnsxOS.Arm64

open Framework

/-- The variables of the send loop, `g_netstack.next_ip_id`, the frames that `net_frame_send` has
accepted so far and the one it has refused. -/
structure TcpSender where
  sent : Nat
  seq : UInt32
  nextIpId : UInt16
  frames : List Bytes
  refused : Option Bytes

/-- The length of the next piece. -/
def TcpSender.chunk (st : TcpSender) (data : Bytes) : Nat :=
  let chunk := data.length - st.sent
  if netTcpSegmentMax < chunk then netTcpSegmentMax else chunk

/-- The segment of the next piece. -/
def TcpSender.segment (st : TcpSender) (remoteSeq : UInt32) (data : Bytes) : TcpFrame :=
  ⟨st.seq, remoteSeq, netTcpAck ||| netTcpPsh, (data.drop st.sent).take (st.chunk data)⟩

def TcpSender.frame (st : TcpSender) (session : TcpSession) (remoteSeq : UInt32)
    (data : Bytes) : Bytes :=
  netBuildTcpFrame session st.nextIpId (st.segment remoteSeq data)

/-- The state after the frame of the next piece was accepted. -/
def TcpSender.accept (st : TcpSender) (session : TcpSession) (remoteSeq : UInt32)
    (data : Bytes) : TcpSender where
  sent := st.sent + st.chunk data
  seq := st.seq + UInt32.ofNat (st.chunk data)
  nextIpId := st.nextIpId + 1
  frames := st.frames ++ [st.frame session remoteSeq data]
  refused := none

/-- The state after the frame of the next piece was refused. -/
def TcpSender.refuse (st : TcpSender) (session : TcpSession) (remoteSeq : UInt32)
    (data : Bytes) : TcpSender :=
  { st with nextIpId := st.nextIpId + 1, refused := some (st.frame session remoteSeq data) }

@[simp] theorem TcpSender.accept_sent (st : TcpSender) (session : TcpSession)
    (remoteSeq : UInt32) (data : Bytes) :
    (st.accept session remoteSeq data).sent = st.sent + st.chunk data := rfl

@[simp] theorem TcpSender.accept_frames (st : TcpSender) (session : TcpSession)
    (remoteSeq : UInt32) (data : Bytes) : (st.accept session remoteSeq data).frames =
      st.frames ++ [st.frame session remoteSeq data] := rfl

theorem TcpSender.chunk_eq (st : TcpSender) (data : Bytes) :
    st.chunk data = min (data.length - st.sent) netTcpSegmentMax := by
  rw [chunk]
  split <;> omega

theorem TcpSender.chunk_pos {st : TcpSender} {data : Bytes} (h : st.sent < data.length) :
    0 < st.chunk data := by
  rw [chunk_eq, netTcpSegmentMax]
  omega

/-- The send loop. The answer of `net_frame_send` may depend on all frames before. -/
def netstackTcpSendBytes (session : TcpSession) (transmit : List Bytes → Bytes → Bool)
    (remoteSeq : UInt32) (data : Bytes) (st : TcpSender) : Bool × TcpSender :=
  if _ : st.sent < data.length then
    if transmit st.frames (st.frame session remoteSeq data) then
      netstackTcpSendBytes session transmit remoteSeq data (st.accept session remoteSeq data)
    else (false, st.refuse session remoteSeq data)
  else (true, st)
termination_by data.length - st.sent
decreasing_by
  have hpos := TcpSender.chunk_pos ‹_›
  rw [TcpSender.accept_sent]
  omega

/-- A call of `netstack_tcp_send_stream`. -/
def TcpSender.start (seq : UInt32) (nextIpId : UInt16) : TcpSender := ⟨0, seq, nextIpId, [], none⟩

/-- The sequence number and the payload of a frame, as a receiver reads them. -/
def tcpSegmentOf (frame : Bytes) : Option (UInt32 × Bytes) :=
  (netParseTcpPacket frame frame.length).map fun view => (view.seq, netPayload frame view)

/-- The frames carry the bytes without gap or overlap, numbered from `seq` on. -/
def CarriesStream (seq : UInt32) (data : Bytes) (frames : List Bytes) : Prop :=
  ∃ segments, frames.map tcpSegmentOf = segments.map some ∧ streamOf segments = data ∧
    Consecutive seq segments

/-- A frame that fits the transmit buffer and has a payload. -/
def ProperSegment (frame : Bytes) : Prop :=
  frame.length ≤ netFrameMax ∧ ∃ seq payload, tcpSegmentOf frame = some (seq, payload) ∧
    payload ≠ []

/-- What the send loop keeps: the bytes before its position are in the accepted frames. -/
structure TcpSender.Sending (st : TcpSender) (first : UInt32) (data : Bytes) : Prop where
  bound : st.sent ≤ data.length
  seq : st.seq = seqAt first st.sent
  carries : CarriesStream first (data.take st.sent) st.frames
  proper : ∀ frame ∈ st.frames, ProperSegment frame

section Segments

variable {session : TcpSession} (hdest : session.destMac.length = 6)
  (hclient : session.clientMac.length = 6)

include hdest hclient

theorem tcpSegmentOf_build (ipId : UInt16) (frame : TcpFrame)
    (hpayload : 20 + 20 + frame.payload.length < 2 ^ 16) :
    tcpSegmentOf (netBuildTcpFrame session ipId frame) = some (frame.seq, frame.payload) := by
  have hview := netParseTcpPacket_build session ipId frame [] hdest hclient hpayload
  have hread : ((netBuildTcpFrame session ipId frame ++ []).drop 54).take frame.payload.length =
      frame.payload := payload_netBuildTcpFrame hdest hclient ipId []
  rw [List.append_nil] at hview hread
  rw [tcpSegmentOf, hview, Option.map_some, netPayload]
  exact congrArg (fun payload => some (frame.seq, payload)) hread

theorem TcpSender.tcpSegmentOf_frame (st : TcpSender) (remoteSeq : UInt32) (data : Bytes) :
    tcpSegmentOf (st.frame session remoteSeq data) =
      some (st.seq, (data.drop st.sent).take (st.chunk data)) := by
  have hmax : netTcpSegmentMax = 1024 := rfl
  have hchunk : st.chunk data ≤ netTcpSegmentMax := by
    rw [chunk_eq]
    exact Nat.min_le_right _ _
  apply tcpSegmentOf_build hdest hclient
  rw [segment, List.length_take]
  omega

/-- Every frame that the loop hands over fits and carries something. -/
theorem TcpSender.frame_proper {st : TcpSender} {data : Bytes} (remoteSeq : UInt32)
    (h : st.sent < data.length) : ProperSegment (st.frame session remoteSeq data) := by
  have hmax : netTcpSegmentMax = 1024 := rfl
  have hchunk := st.chunk_eq data
  have hpos := chunk_pos h
  constructor
  · rw [frame, netBuildTcpFrame_length hdest hclient, segment, List.length_take, netFrameMax]
    omega
  · refine ⟨_, _, st.tcpSegmentOf_frame hdest hclient remoteSeq data, ?_⟩
    apply List.ne_nil_of_length_pos
    rw [List.length_take, List.length_drop]
    omega

/-- An accepted frame carries the bytes behind those of the frames before it. -/
theorem TcpSender.Sending.accept {st : TcpSender} {first : UInt32} {data : Bytes}
    (hst : st.Sending first data) (remoteSeq : UInt32) (h : st.sent < data.length) :
    (st.accept session remoteSeq data).Sending first data := by
  have hchunk := st.chunk_eq data
  obtain ⟨segments, hsegments, hstream, hnumbered⟩ := hst.carries
  have hlen : (streamOf segments).length = st.sent := by
    rw [hstream, List.length_take_of_le hst.bound]
  constructor
  case bound =>
    rw [accept_sent]
    omega
  case seq =>
    rw [TcpSender.accept, hst.seq]
    exact seqAt_add _ _ _
  case carries =>
    have hnext := hnumbered.snoc ((data.drop st.sent).take (st.chunk data))
    rw [hlen, ← hst.seq] at hnext
    refine ⟨_, ?_, ?_, hnext⟩
    · rw [accept_frames, List.map_append, List.map_append, hsegments, List.map_singleton,
        List.map_singleton, st.tcpSegmentOf_frame hdest hclient]
    · rw [streamOf_snoc, hstream, accept_sent, List.take_add]
  case proper =>
    intro frame hframe
    rcases List.mem_append.mp hframe with hold | hnew
    · exact hst.proper frame hold
    · rw [List.mem_singleton.mp hnew]
      exact frame_proper hdest hclient remoteSeq h

/-- The loop ends with everything sent, or with a refused frame and the position before it. -/
theorem TcpSender.Sending.run {st : TcpSender} {first : UInt32} {data : Bytes}
    (transmit : List Bytes → Bytes → Bool) (remoteSeq : UInt32) (hst : st.Sending first data)
    (hrefused : st.refused = none) :
    let result := netstackTcpSendBytes session transmit remoteSeq data st
    result.2.Sending first data ∧ (∀ frame ∈ result.2.refused, ProperSegment frame) ∧
      (result.1 = true → result.2.sent = data.length ∧ result.2.refused = none) ∧
      (result.1 = false → result.2.sent < data.length ∧ result.2.refused.isSome = true) := by
  fun_induction netstackTcpSendBytes session transmit remoteSeq data st with
  | case1 st h haccepted ih => exact ih (hst.accept hdest hclient remoteSeq h) rfl
  | case2 st h hrefuses =>
    have hproper := frame_proper hdest hclient remoteSeq h
    refine ⟨⟨hst.bound, hst.seq, hst.carries, hst.proper⟩, ?_, ?_, ?_⟩
    · intro frame hframe
      rwa [← Option.some.inj hframe]
    · intro hok
      cases hok
    · intro _
      exact ⟨h, rfl⟩
  | case3 st h =>
    refine ⟨hst, ?_, ?_, ?_⟩
    · intro frame hframe
      rw [hrefused] at hframe
      cases hframe
    · intro _
      exact ⟨Nat.le_antisymm hst.bound (Nat.le_of_not_lt h), hrefused⟩
    · intro hok
      cases hok

/-- A stream is sent without gaps: a call that returns true has sent frames that carry exactly the
data, and a call that returns false those before the refused frame, with `seq` behind them. -/
theorem netstackTcpSendStream_exact (transmit : List Bytes → Bytes → Bool)
    (remoteSeq seq : UInt32) (nextIpId : UInt16) (data : Bytes) :
    let result := netstackTcpSendBytes session transmit remoteSeq data
      (TcpSender.start seq nextIpId)
    (result.1 = true → CarriesStream seq data result.2.frames ∧
        result.2.seq = seq + UInt32.ofNat data.length ∧ result.2.refused = none) ∧
      (result.1 = false → ∃ sent < data.length,
        CarriesStream seq (data.take sent) result.2.frames ∧
          result.2.seq = seq + UInt32.ofNat sent ∧ result.2.refused.isSome = true) ∧
      ∀ frame ∈ result.2.frames ++ result.2.refused.toList, ProperSegment frame := by
  have hstart : (TcpSender.start seq nextIpId).Sending seq data := by
    refine ⟨Nat.zero_le _, (seqAt_zero seq).symm, ⟨[], rfl, rfl, Consecutive.nil seq⟩, ?_⟩
    intro frame hframe
    cases hframe
  obtain ⟨hsending, hproper, htrue, hfalse⟩ := hstart.run hdest hclient transmit remoteSeq rfl
  intro result
  refine ⟨?_, ?_, ?_⟩
  · intro hok
    obtain ⟨hall, hnone⟩ := htrue hok
    have hcarries := hsending.carries
    have hseq := hsending.seq
    rw [hall] at hcarries hseq
    rw [List.take_length] at hcarries
    exact ⟨hcarries, hseq, hnone⟩
  · intro hfailed
    obtain ⟨hsent, hrefuses⟩ := hfalse hfailed
    exact ⟨result.2.sent, hsent, hsending.carries, hsending.seq, hrefuses⟩
  · intro frame hframe
    rcases List.mem_append.mp hframe with haccepted | hrefuses
    · exact hsending.proper frame haccepted
    · exact hproper frame (Option.mem_toList.mp hrefuses)

end Segments

/-- A request of three bytes whose sequence numbers wrap around. -/
theorem netstackTcpSendStream_exact_query :
    let result := netstackTcpSendBytes querySession (fun _ _ => true) 9 [71, 69, 84]
      (TcpSender.start 0xFFFFFFFE 7)
    (result.1 = true → CarriesStream 0xFFFFFFFE [71, 69, 84] result.2.frames ∧
        result.2.seq = 0xFFFFFFFE + UInt32.ofNat 3 ∧ result.2.refused = none) ∧
      (result.1 = false → ∃ sent < 3,
        CarriesStream 0xFFFFFFFE ([71, 69, 84].take sent) result.2.frames ∧
          result.2.seq = 0xFFFFFFFE + UInt32.ofNat sent ∧ result.2.refused.isSome = true) ∧
      ∀ frame ∈ result.2.frames ++ result.2.refused.toList, ProperSegment frame :=
  netstackTcpSendStream_exact (by decide) (by decide) (fun _ _ => true) 9 0xFFFFFFFE 7
    [71, 69, 84]

/-! ## The pieces of the TCP session -/

@[simp] theorem tcpChunks_nil : tcpChunks [] = [] := by
  simp [tcpChunks, netTcpSegmentMax]

/-- The pieces are cut off one by one. -/
theorem tcpChunks_of_pos {data : Bytes} (h : 0 < data.length) :
    tcpChunks data = data.take netTcpSegmentMax :: tcpChunks (data.drop netTcpSegmentMax) := by
  have hcount : (data.length + netTcpSegmentMax - 1) / netTcpSegmentMax =
      (data.length - netTcpSegmentMax + netTcpSegmentMax - 1) / netTcpSegmentMax + 1 := by
    simp only [netTcpSegmentMax]
    omega
  rw [tcpChunks, hcount, List.range_succ_eq_map, List.map_cons, List.map_map, tcpChunks,
    List.length_drop]
  congr 1
  apply List.map_congr_left
  intro i hi
  rw [Function.comp_apply, List.drop_drop, Nat.mul_succ, Nat.add_comm]

/-- The frames built for a list of segments, with consecutive identifications. -/
def builtFrames (session : TcpSession) : UInt16 → List TcpFrame → List Bytes
  | _, [] => []
  | ipId, frame :: frames =>
      netBuildTcpFrame session ipId frame :: builtFrames session (ipId + 1) frames

theorem builtFrames_snoc (session : TcpSession) (ipId : UInt16) (frames : List TcpFrame)
    (frame : TcpFrame) : builtFrames session ipId (frames ++ [frame]) =
      builtFrames session ipId frames ++
        [netBuildTcpFrame session (ipId + UInt16.ofNat frames.length) frame] := by
  induction frames generalizing ipId with
  | nil => simp [builtFrames]
  | cons head frames ih =>
    simp [builtFrames, ih, UInt16.add_assoc, UInt16.add_comm]

@[simp] theorem builtFrames_length (session : TcpSession) (ipId : UInt16)
    (frames : List TcpFrame) : (builtFrames session ipId frames).length = frames.length := by
  induction frames generalizing ipId with
  | nil => rfl
  | cons frame frames ih => simp [builtFrames, ih]

/-- The sender has handed over the frames of the segments that the session has sent. -/
structure TcpSender.Matches (s : TcpSender) (session : TcpSession) (ipId : UInt16)
    (before : List TcpFrame) (st : TcpState) (handed : List TcpFrame) : Prop where
  seq : s.seq = st.seq
  sent : st.sent = before ++ handed
  frames : s.frames = builtFrames session ipId handed
  nextIpId : s.nextIpId = ipId + UInt16.ofNat handed.length

section Pieces

variable {session : TcpSession} {ipId : UInt16} {before handed : List TcpFrame} {s : TcpSender}
  {st : TcpState}

theorem TcpSender.take_chunk (s : TcpSender) (data : Bytes) :
    (data.drop s.sent).take netTcpSegmentMax = (data.drop s.sent).take (s.chunk data) := by
  rw [List.take_eq_take_iff, chunk_eq, List.length_drop]
  omega

theorem TcpSender.drop_chunk (s : TcpSender) (data : Bytes) :
    (data.drop s.sent).drop netTcpSegmentMax = data.drop (s.sent + s.chunk data) := by
  rw [List.drop_drop, List.drop_eq_drop_iff, chunk_eq]
  omega

theorem TcpSender.chunk_length (s : TcpSender) (data : Bytes) :
    ((data.drop s.sent).take (s.chunk data)).length = s.chunk data := by
  rw [List.length_take, List.length_drop, chunk_eq]
  omega

/-- Sending the next piece hands over the segment of the loop. -/
theorem TcpSender.Matches.send (hmatch : s.Matches session ipId before st handed)
    (transmit : Nat → Bool) (data : Bytes) :
    st.send transmit (netTcpAck ||| netTcpPsh) st.remoteSeq
        ((data.drop s.sent).take (s.chunk data)) =
      (transmit (before.length + s.frames.length),
        { st with sent := st.sent ++ [s.segment st.remoteSeq data] }) := by
  rw [TcpState.send, segment, hmatch.seq, hmatch.frames, builtFrames_length, hmatch.sent,
    List.length_append]

theorem TcpSender.Matches.frames_snoc (hmatch : s.Matches session ipId before st handed)
    (remoteSeq : UInt32) (data : Bytes) : s.frames ++ [s.frame session remoteSeq data] =
      builtFrames session ipId (handed ++ [s.segment remoteSeq data]) := by
  rw [hmatch.frames, builtFrames_snoc, frame, hmatch.nextIpId]

theorem TcpSender.Matches.accept (hmatch : s.Matches session ipId before st handed)
    (remoteSeq : UInt32) (data : Bytes) :
    (s.accept session remoteSeq data).Matches session ipId before
      { st with
        seq := st.seq + UInt32.ofNat (s.chunk data)
        sent := st.sent ++ [s.segment remoteSeq data] }
      (handed ++ [s.segment remoteSeq data]) where
  seq := by rw [TcpSender.accept, hmatch.seq]
  sent := by rw [hmatch.sent, List.append_assoc]
  frames := hmatch.frames_snoc remoteSeq data
  nextIpId := by
    rw [TcpSender.accept, hmatch.nextIpId, List.length_append, UInt16.ofNat_add,
      ← UInt16.add_assoc]
    rfl

/-- The loop over the bytes hands over the frames of the segments that the loop over the pieces
sends, and both stop at the same one. -/
theorem netstackTcpSendBytes_pieces {transmit : Nat → Bool} {data : Bytes}
    (hmatch : s.Matches session ipId before st handed) (hrefused : s.refused = none) :
    let bytes := netstackTcpSendBytes session
      (fun frames _ => transmit (before.length + frames.length)) st.remoteSeq data s
    let pieces := netstackTcpSendStream transmit st (tcpChunks (data.drop s.sent))
    pieces.1 = bytes.1 ∧ pieces.2.seq = bytes.2.seq ∧ ∃ all, pieces.2.sent = before ++ all ∧
      bytes.2.frames ++ bytes.2.refused.toList = builtFrames session ipId all := by
  generalize hremote : st.remoteSeq = remoteSeq
  fun_induction netstackTcpSendBytes session _ remoteSeq data s generalizing st handed with
  | case1 s h haccepted ih =>
    subst hremote
    have hsend := hmatch.send transmit data
    rw [haccepted] at hsend
    rw [tcpChunks_of_pos (by rw [List.length_drop]; omega), netstackTcpSendStream, s.take_chunk,
      hsend, s.drop_chunk]
    dsimp only
    rw [s.chunk_length]
    exact ih (hmatch.accept st.remoteSeq data) rfl rfl
  | case2 s h hrefuses =>
    subst hremote
    have hsend := hmatch.send transmit data
    rw [Bool.eq_false_iff.mpr hrefuses] at hsend
    rw [tcpChunks_of_pos (by rw [List.length_drop]; omega), netstackTcpSendStream, s.take_chunk,
      hsend]
    refine ⟨rfl, hmatch.seq.symm, handed ++ [s.segment st.remoteSeq data], ?_, ?_⟩
    · rw [← List.append_assoc, ← hmatch.sent]
    · exact hmatch.frames_snoc st.remoteSeq data
  | case3 s h =>
    rw [List.drop_eq_nil_of_le (Nat.le_of_not_lt h), tcpChunks_nil]
    refine ⟨rfl, hmatch.seq.symm, handed, hmatch.sent, ?_⟩
    rw [hrefused, Option.toList_none, List.append_nil]
    exact hmatch.frames

end Pieces

end SnsxOS.Arm64
