import SnsxOS.Lib.Text
import SnsxOS.Arm64.Net.Frames
import SnsxOS.Arm64.Net.Udp

/-!
# Resolving a name

`netstack_resolve_dns_name`: the query, the receive loop and the scan of a reply for an address.
The loop looks at the ports, the transaction and the reply bit of a datagram. Who sent it, to
whom, and for which name it answers are left to whoever wrote the frame.
-/

namespace SnsxOS.Arm64

open Framework

def netPortDns : UInt16 := 53

def netIpMake (a b c d : UInt8) : UInt32 :=
  a.toUInt32 <<< 24 ||| b.toUInt32 <<< 16 ||| c.toUInt32 <<< 8 ||| d.toUInt32

/-- The loop of `net_parse_ipv4_text` with the parts read so far. -/
def ipv4TextLoop (parts : List UInt32) (value : UInt32) (hasDigit : Bool) :
    Bytes → Option (List UInt32 × UInt32 × Bool)
  | [] => some (parts, value, hasDigit)
  | ch :: text =>
      if isdigit ch then
        let value := value * 10 + (ch - 48).toUInt32
        if 255 < value then none else ipv4TextLoop parts value true text
      else if ch = 46 then
        if hasDigit = false ∨ 4 ≤ parts.length then none
        else ipv4TextLoop (parts ++ [value]) 0 false text
      else none

def netParseIpv4Text (text : Bytes) : Option UInt32 :=
  match ipv4TextLoop [] 0 false text with
  | some ([a, b, c], d, true) => some (netIpMake a.toUInt8 b.toUInt8 c.toUInt8 d.toUInt8)
  | _ => none

/-- Append the labels of a host name to the query. -/
def dnsAppendLabels (payload cursor : Bytes) : Option Bytes :=
  if cursor = [] then some payload
  else
    let segment := cursor.takeWhile (· != 46)
    if segment.length = 0 ∨ 512 ≤ payload.length + segment.length + 2 then none
    else dnsAppendLabels (payload ++ UInt8.ofNat segment.length :: segment)
      (cursor.drop (segment.length + 1))
termination_by cursor.length
decreasing_by
  rename_i hcursor _
  have hpos := List.length_pos_of_ne_nil hcursor
  rw [List.length_drop]
  omega

/-- The name in the question of a query. -/
def dnsQueryName (host : Bytes) : Option Bytes :=
  (dnsAppendLabels (List.replicate 12 0) host).map fun payload => payload.drop 12 ++ [0]

def dnsQuery (queryId : UInt16) (host : Bytes) : Option Bytes :=
  (dnsQueryName host).map fun name => netWriteBe16 queryId ++ netWriteBe16 0x0100 ++
    netWriteBe16 1 ++ List.replicate 6 0 ++ name ++ netWriteBe16 1 ++ netWriteBe16 1

/-- The walk of `dns_skip_name`; the first number counts the bytes left of a label. -/
def dnsSkipFrom (packetLen : Nat) : Nat → Nat → Bytes → Nat
  | _, _, [] => packetLen
  | label + 1, offset, _ :: packet => dnsSkipFrom packetLen label (offset + 1) packet
  | 0, offset, length :: packet =>
      if length = 0 then offset + 1
      else if length &&& 0xC0 = 0xC0 then offset + 2
      else dnsSkipFrom packetLen length.toNat (offset + 1) packet

def dnsSkipName (packet : Bytes) (offset : Nat) : Nat :=
  dnsSkipFrom packet.length 0 offset (packet.drop offset)

/-- The offset behind a number of questions. -/
def dnsSkipQuestions (payload : Bytes) : Nat → Nat → Nat
  | 0, offset => offset
  | questions + 1, offset =>
      let offset := dnsSkipName payload offset
      if payload.length < offset + 4 then offset
      else dnsSkipQuestions payload questions (offset + 4)

/-- The first address among a number of answers. -/
def dnsScanAnswers (payload : Bytes) : Nat → Nat → Option UInt32
  | 0, _ => none
  | answers + 1, offset =>
      if payload.length < offset + 10 then none
      else
        let offset := dnsSkipName payload offset
        if payload.length < offset + 10 then none
        else
          let rdlength := (netReadBe16 payload (offset + 8)).toNat
          if payload.length < offset + 10 + rdlength then none
          else if netReadBe16 payload offset = 1 ∧ netReadBe16 payload (offset + 2) = 1 ∧
              rdlength = 4 then
            some (netReadBe32 payload (offset + 10))
          else dnsScanAnswers payload answers (offset + 10 + rdlength)

def dnsAnswer (payload : Bytes) : Option UInt32 :=
  dnsScanAnswers payload (netReadBe16 payload 6).toNat
    (dnsSkipQuestions payload (netReadBe16 payload 4).toNat 12)

/-- The filters of the receive loop. -/
def DnsAccepts (queryId localPort : UInt16) (datagram : UdpDatagram) : Prop :=
  datagram.srcPort = netPortDns ∧ datagram.dstPort = localPort ∧
    12 ≤ datagram.payload.length ∧ netReadBe16 datagram.payload 0 = queryId ∧
    netReadBe16 datagram.payload 2 &&& 0x8000 ≠ 0

instance (queryId localPort : UInt16) : DecidablePred (DnsAccepts queryId localPort) :=
  fun _ => inferInstanceAs (Decidable (_ ∧ _))

/-- The address that a frame brings. -/
def dnsReceive (queryId localPort : UInt16) (memory frame : Bytes) : Option UInt32 :=
  match netReceiveUdp memory frame with
  | none => none
  | some datagram =>
      if DnsAccepts queryId localPort datagram then dnsAnswer datagram.payload else none

/-- The receive loop over what each wait cycle delivers. -/
def dnsWait (queryId localPort : UInt16) (memory : Bytes) : List (Option Bytes) → Option UInt32
  | [] => none
  | none :: events => dnsWait queryId localPort memory events
  | some frame :: events =>
      match dnsReceive queryId localPort memory frame with
      | some ip => some ip
      | none => dnsWait queryId localPort (netReceive memory frame) events

/-- What a call finds: the configuration of the stack, the MAC address for the resolver, the
numbers of the query, and what the driver does with the query and delivers afterwards. -/
structure DnsCall where
  configured : Bool
  clientMac : Bytes
  clientIp : UInt32
  dnsIp : UInt32
  nextHop : Option Bytes
  ipId : UInt16
  queryId : UInt16
  localPort : UInt16
  transmit : Bytes → Bool
  memory : Bytes
  events : List (Option Bytes)

/-- The number of wait cycles. -/
def dnsWaitCycles : Nat := 220

def netstackResolveDnsName (call : DnsCall) (host : Bytes) : Option UInt32 :=
  match netParseIpv4Text host with
  | some ip => some ip
  | none =>
      if call.configured = false ∨ call.dnsIp = 0 then none
      else
        match call.nextHop, dnsQuery call.queryId host with
        | some destMac, some payload =>
            if call.transmit (netBuildUdpFrame call.clientMac call.ipId ⟨some destMac,
                call.clientIp, call.dnsIp, call.localPort, netPortDns, payload⟩) then
              dnsWait call.queryId call.localPort call.memory (call.events.take dnsWaitCycles)
            else none
        | _, _ => none

/-- The datagram is the answer of the configured resolver to this query. -/
structure FromResolver (call : DnsCall) (host : Bytes) (datagram : UdpDatagram) : Prop where
  srcIp : datagram.srcIp = call.dnsIp
  srcPort : datagram.srcPort = netPortDns
  dstIp : datagram.dstIp = call.clientIp
  dstPort : datagram.dstPort = call.localPort
  transaction : netReadBe16 datagram.payload 0 = call.queryId
  reply : netReadBe16 datagram.payload 2 &&& 0x8000 ≠ 0
  question : netReadBe16 datagram.payload 4 ≠ 0 ∧
    ∃ name, dnsQueryName host = some name ∧ name <+: datagram.payload.drop 12

/-- What the receive loop leaves unchecked. -/
def ResolverChecked (call : DnsCall) (host : Bytes) (datagram : UdpDatagram) : Prop :=
  datagram.srcIp = call.dnsIp ∧ datagram.dstIp = call.clientIp ∧
    netReadBe16 datagram.payload 4 ≠ 0 ∧
    ∃ name, dnsQueryName host = some name ∧ name <+: datagram.payload.drop 12

theorem dnsReceive_accepts {queryId localPort : UInt16} {memory frame : Bytes} {ip : UInt32}
    (h : dnsReceive queryId localPort memory frame = some ip) :
    ∃ datagram, netReceiveUdp memory frame = some datagram ∧
      DnsAccepts queryId localPort datagram ∧ dnsAnswer datagram.payload = some ip := by
  rw [dnsReceive] at h
  cases hdatagram : netReceiveUdp memory frame with
  | none => simp [hdatagram] at h
  | some datagram =>
    rw [hdatagram] at h
    dsimp only at h
    split at h
    · rename_i haccepts
      exact ⟨datagram, rfl, haccepts, h⟩
    · cases h

/-- A wait that brings an address stops at the first frame that has one. -/
theorem dnsWait_split {queryId localPort : UInt16} {memory : Bytes}
    {events : List (Option Bytes)} {ip : UInt32}
    (h : dnsWait queryId localPort memory events = some ip) :
    ∃ before frame after, events = before ++ some frame :: after ∧
      dnsWait queryId localPort memory before = none ∧
      dnsReceive queryId localPort (netMemory memory before) frame = some ip := by
  induction events generalizing memory with
  | nil => cases h
  | cons event events ih =>
    cases event with
    | none =>
      obtain ⟨before, frame, after, rfl, hbefore, haccepted⟩ := ih h
      exact ⟨none :: before, frame, after, rfl, hbefore, haccepted⟩
    | some frame =>
      rw [dnsWait] at h
      cases hreceive : dnsReceive queryId localPort memory frame with
      | some found =>
        rw [hreceive] at h
        exact ⟨[], frame, events, rfl, rfl, hreceive.trans h⟩
      | none =>
        rw [hreceive] at h
        obtain ⟨before, last, after, rfl, hbefore, haccepted⟩ := ih h
        refine ⟨some frame :: before, last, after, rfl, ?_, haccepted⟩
        rw [dnsWait, hreceive]
        exact hbefore

/-- An address comes out of the wait for replies. -/
theorem netstackResolveDnsName_wait {call : DnsCall} {host : Bytes} {ip : UInt32}
    (hliteral : netParseIpv4Text host = none) (h : netstackResolveDnsName call host = some ip) :
    dnsWait call.queryId call.localPort call.memory (call.events.take dnsWaitCycles) = some ip := by
  rw [netstackResolveDnsName, hliteral] at h
  dsimp only at h
  split at h
  · cases h
  split at h
  · split at h
    · exact h
    · cases h
  · cases h

section Forged

/-- A reply to query 7 from the given sender to the given host with one address record. -/
def answerFrame (srcIp dstIp : UInt32) (questions : UInt16) (name : Bytes) (ip : UInt32) : Bytes :=
  netBuildUdpFrame (List.replicate 6 2) 0 ⟨some (List.replicate 6 1), srcIp, dstIp, netPortDns, 49152,
    netWriteBe16 7 ++ netWriteBe16 0x8180 ++ netWriteBe16 questions ++ netWriteBe16 1 ++
      List.replicate 4 0 ++ name ++ [0] ++ netWriteBe16 1 ++ netWriteBe16 1 ++
      List.replicate 4 0 ++ netWriteBe16 4 ++ netWriteBe32 ip⟩

def snsxHost : Bytes := ascii "snsx"

/-- The name and the rest of the question of a query for the host. -/
def snsxQuestion : Bytes := [4] ++ snsxHost ++ [0] ++ netWriteBe16 1 ++ netWriteBe16 1

/-- A query of 10.0.2.15 for the host, to the resolver at 10.0.2.3. -/
def snsxCall (frame : Bytes) : DnsCall where
  configured := true
  clientMac := List.replicate 6 1
  clientIp := 0x0A00020F
  dnsIp := 0x0A000203
  nextHop := some (List.replicate 6 2)
  ipId := 1
  queryId := 7
  localPort := 49152
  transmit := fun _ => true
  memory := []
  events := [some frame]

/-- A reply without a question from 10.0.2.66 to 10.0.2.99 names 10.0.2.66. -/
def forgedFrame : Bytes := answerFrame 0x0A000242 0x0A000263 0 [] 0x0A000242

/-- The reply of the resolver. -/
def genuineFrame : Bytes := answerFrame 0x0A000203 0x0A00020F 1 snsxQuestion 0x0A000250

theorem forgedFrame_resolves :
    netstackResolveDnsName (snsxCall forgedFrame) snsxHost = some 0x0A000242 := by
  decide +kernel

theorem genuineFrame_resolves :
    netstackResolveDnsName (snsxCall genuineFrame) snsxHost = some 0x0A000250 := by
  decide +kernel

end Forged

end SnsxOS.Arm64
