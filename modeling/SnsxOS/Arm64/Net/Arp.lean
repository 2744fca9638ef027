import SnsxOS.Arm64.Net.Link

/-!
# Address resolution and the gateway cache

`netstack_arp_resolve` frame by frame, and the MAC address of the gateway that the stack keeps. The
cached address is one that ARP found for the current gateway, from the current address of the
client, since the stack was last configured.
-/

namespace SnsxOS.Arm64

open Framework

def netEthertypeArp : UInt16 := 0x0806

/-- The request that `netstack_arp_resolve` broadcasts. -/
def arpRequest (clientMac : Bytes) (clientIp targetIp : UInt32) : Bytes :=
  List.replicate 6 0xFF ++ clientMac ++ netWriteBe16 netEthertypeArp ++ netWriteBe16 1 ++
    netWriteBe16 netEthertypeIpv4 ++ [6, 4] ++ netWriteBe16 1 ++ clientMac ++
    netWriteBe32 clientIp ++ List.replicate 6 0 ++ netWriteBe32 targetIp

/-- The address a received frame answers the request with. -/
def arpReply (clientIp targetIp : UInt32) (frame : Bytes) : Option Bytes :=
  if frame.length < 42 ∨ netReadBe16 frame 12 ≠ netEthertypeArp then none
  else if netReadBe16 frame 20 ≠ 2 then none
  else if netReadBe32 frame 28 ≠ targetIp ∨ netReadBe32 frame 38 ≠ clientIp then none
  else some ((frame.drop 22).take 6)

/-- One of the three attempts: whether the request could be sent, and what each wait cycle
received. -/
structure ArpAttempt where
  sent : Bool
  received : List (Option Bytes)

/-- The loop over the attempts. -/
def arpExchange (attempts : List ArpAttempt) (clientIp targetIp : UInt32) : Option Bytes :=
  (attempts.take 3).findSome? fun attempt =>
    if attempt.sent then
      (attempt.received.take 40).findSome? fun received =>
        received.bind (arpReply clientIp targetIp)
    else none

/-- What each run of ARP of one call finds. -/
def arpRuns (attempts : Nat → List ArpAttempt) (clientIp : UInt32) : Nat → UInt32 → Option Bytes :=
  fun n => arpExchange (attempts n) clientIp

/-- A run of `netstack_arp_resolve` that returned true. -/
structure Resolution where
  clientIp : UInt32
  targetIp : UInt32
  mac : Bytes
  deriving DecidableEq

/-- The stack and the resolutions made since it was last configured. -/
structure GatewayCache where
  stack : Netstack
  resolved : List Resolution

def GatewayCache.boot : GatewayCache := ⟨.zero, []⟩

def resolution (stack : Netstack) (targetIp : UInt32) (mac : Option Bytes) : List Resolution :=
  (mac.map fun mac => ⟨stack.clientIp, targetIp, mac⟩).toList

/-- The resolution that asking for the gateway makes. -/
def gatewayResolved (arp : UInt32 → Option Bytes) (stack : Netstack) : List Resolution :=
  if stack.gatewayMacValid ∨ stack.gatewayIp = 0 then []
  else resolution stack stack.gatewayIp (netstackArpResolve arp stack stack.gatewayIp)

/-- The resolutions that `netstack_next_hop_mac` makes. -/
def nextHopResolved (arp : Nat → UInt32 → Option Bytes) (stack : Netstack) (destIp : UInt32) :
    List Resolution :=
  if stack.configured = false then []
  else if netSameSubnet stack.clientIp destIp stack.subnetMask then
    match netstackArpResolve (arp 0) stack destIp with
    | some mac => resolution stack destIp (some mac)
    | none =>
        if stack.gatewayIp ≠ 0 ∧ (destIp = stack.dnsIp ∨ destIp = stack.gatewayIp) then
          gatewayResolved (arp 1) stack
        else []
  else gatewayResolved (arp 0) stack

inductive CacheOp where
  | reset
  /-- a call of `netstack_renew_dhcp`, with the records of the device as they are -/
  | renewDhcp (network : Network) (e1000 : E1000) (exchange : DhcpExchange)
  | virtualboxProfile
  | arpResolve (targetIp : UInt32) (attempts : List ArpAttempt)
  | nextHop (destIp : UInt32) (attempts : Nat → List ArpAttempt)

def cacheStep (s : GatewayCache) : CacheOp → GatewayCache
  | .reset => ⟨netstackReset, []⟩
  | .renewDhcp network e1000 exchange =>
      let result := netstackRenewDhcp exchange ⟨s.stack, network, e1000, 0⟩
      ⟨result.2.stack, if result.1 then [] else s.resolved⟩
  | .virtualboxProfile =>
      let result := netstackApplyVirtualboxNatProfile s.stack
      ⟨result.2, if result.1 then [] else s.resolved⟩
  | .arpResolve targetIp attempts =>
      { s with
        resolved := s.resolved ++ resolution s.stack targetIp
          (netstackArpResolve (arpExchange attempts s.stack.clientIp) s.stack targetIp) }
  | .nextHop destIp attempts =>
      ⟨(netstackNextHopMac (arpRuns attempts s.stack.clientIp) s.stack destIp).2,
        s.resolved ++ nextHopResolved (arpRuns attempts s.stack.clientIp) s.stack destIp⟩

/-! ## The answer to a request -/

theorem arpExchange_reply {attempts : List ArpAttempt} {clientIp targetIp : UInt32} {mac : Bytes}
    (h : arpExchange attempts clientIp targetIp = some mac) :
    ∃ frame, arpReply clientIp targetIp frame = some mac := by
  obtain ⟨attempt, -, hattempt⟩ := List.exists_of_findSome?_eq_some h
  split at hattempt
  · obtain ⟨received, -, hreceived⟩ := List.exists_of_findSome?_eq_some hattempt
    obtain ⟨frame, -, hreply⟩ := Option.bind_eq_some_iff.mp hreceived
    exact ⟨frame, hreply⟩
  · cases hattempt

/-- A frame that answers is an ARP reply from the address asked for to the client. -/
theorem arpReply_eq_some_iff {clientIp targetIp : UInt32} {frame mac : Bytes} :
    arpReply clientIp targetIp frame = some mac ↔
      42 ≤ frame.length ∧ netReadBe16 frame 12 = netEthertypeArp ∧ netReadBe16 frame 20 = 2 ∧
        netReadBe32 frame 28 = targetIp ∧ netReadBe32 frame 38 = clientIp ∧
        mac = (frame.drop 22).take 6 := by
  unfold arpReply
  split_ifs with hlength hcode hip
  · simp only [false_iff]
    rintro ⟨hle, htype, -⟩
    rcases hlength with hlt | hne
    · omega
    · exact hne htype
  · simp [hcode]
  · simp only [false_iff]
    rintro ⟨-, -, -, htarget, hclient, -⟩
    exact hip.elim (fun hne => hne htarget) fun hne => hne hclient
  · simp only [not_or, not_lt, not_not] at hlength hcode hip
    simp [hlength, hcode, hip, eq_comm]

/-- What the owner of `targetIp` sends back: the request with its two halves exchanged. -/
def arpAnswer (request mac : Bytes) : Bytes :=
  (request.drop 6).take 6 ++ mac ++ (request.drop 12).take 8 ++ netWriteBe16 2 ++ mac ++
    (request.drop 38).take 4 ++ (request.drop 22).take 10

theorem length_eq_six {mac : Bytes} (h : mac.length = 6) :
    ∃ a b c d e f : UInt8, mac = [a, b, c, d, e, f] := by
  match mac, h with
  | [a, b, c, d, e, f], _ => exact ⟨a, b, c, d, e, f, rfl⟩

theorem arpAnswer_request {clientMac mac : Bytes} (hclient : clientMac.length = 6)
    (clientIp targetIp : UInt32) :
    arpAnswer (arpRequest clientMac clientIp targetIp) mac =
      clientMac ++ mac ++ netWriteBe16 netEthertypeArp ++ netWriteBe16 1 ++
        netWriteBe16 netEthertypeIpv4 ++ [6, 4] ++ netWriteBe16 2 ++ mac ++
        netWriteBe32 targetIp ++ clientMac ++ netWriteBe32 clientIp := by
  obtain ⟨a, b, c, d, e, f, rfl⟩ := length_eq_six hclient
  simp [arpAnswer, arpRequest, netWriteBe16, netWriteBe32]

/-- The answer to a request is taken. -/
theorem arpReply_answer {clientMac mac : Bytes} (hclient : clientMac.length = 6)
    (hmac : mac.length = 6) (clientIp targetIp : UInt32) :
    arpReply clientIp targetIp (arpAnswer (arpRequest clientMac clientIp targetIp) mac) =
      some mac := by
  rw [arpReply_eq_some_iff, arpAnswer_request hclient]
  refine ⟨?_, ?_, ?_, ?_, ?_, ?_⟩
  · simp [netWriteBe16, netWriteBe32, hclient, hmac]
  · have hread := netReadBe16_write (clientMac ++ mac)
      (netWriteBe16 1 ++ netWriteBe16 netEthertypeIpv4 ++ [6, 4] ++ netWriteBe16 2 ++ mac ++
        netWriteBe32 targetIp ++ clientMac ++ netWriteBe32 clientIp) netEthertypeArp
      (n := 12) (by simp [hclient, hmac])
    simpa only [List.append_assoc] using hread
  · have hread := netReadBe16_write (clientMac ++ mac ++ netWriteBe16 netEthertypeArp ++
        netWriteBe16 1 ++ netWriteBe16 netEthertypeIpv4 ++ [6, 4])
      (mac ++ netWriteBe32 targetIp ++ clientMac ++ netWriteBe32 clientIp) 2
      (n := 20) (by simp [netWriteBe16, hclient, hmac])
    simpa only [List.append_assoc] using hread
  · have hread := netReadBe32_write (clientMac ++ mac ++ netWriteBe16 netEthertypeArp ++
        netWriteBe16 1 ++ netWriteBe16 netEthertypeIpv4 ++ [6, 4] ++ netWriteBe16 2 ++ mac)
      (clientMac ++ netWriteBe32 clientIp) targetIp
      (n := 28) (by simp [netWriteBe16, hclient, hmac])
    simpa only [List.append_assoc] using hread
  · have hread := netReadBe32_write (clientMac ++ mac ++ netWriteBe16 netEthertypeArp ++
        netWriteBe16 1 ++ netWriteBe16 netEthertypeIpv4 ++ [6, 4] ++ netWriteBe16 2 ++ mac ++
        netWriteBe32 targetIp ++ clientMac)
      [] clientIp (n := 38) (by simp [netWriteBe16, netWriteBe32, hclient, hmac])
    simpa only [List.append_assoc, List.append_nil] using hread
  · obtain ⟨a, b, c, d, e, f, rfl⟩ := length_eq_six hclient
    obtain ⟨a', b', c', d', e', f', rfl⟩ := length_eq_six hmac
    rfl

/-! ## The cache -/

/-- The MAC address of the gateway, found since the stack was last configured. -/
def GatewayResolved (s : GatewayCache) (mac : Bytes) : Prop :=
  ⟨s.stack.clientIp, s.stack.gatewayIp, mac⟩ ∈ s.resolved

structure CacheInvariant (s : GatewayCache) : Prop where
  cached : s.stack.gatewayMacValid = true → GatewayResolved s s.stack.gatewayMac
  current : ∀ r ∈ s.resolved, r.clientIp = s.stack.clientIp
  answered : ∀ r ∈ s.resolved,
    r.targetIp = r.clientIp ∨ ∃ frame, arpReply r.clientIp r.targetIp frame = some r.mac

theorem cacheInvariant_boot : CacheInvariant .boot where
  cached := by simp [GatewayCache.boot, Netstack.zero]
  current := by simp [GatewayCache.boot]
  answered := by simp [GatewayCache.boot]

/-- A configuration that was just made has no cached address. -/
theorem CacheInvariant.fresh {stack : Netstack} (h : stack.gatewayMacValid = false) :
    CacheInvariant ⟨stack, []⟩ where
  cached hvalid := absurd (h.symm.trans hvalid) Bool.false_ne_true
  current := by simp
  answered := by simp

theorem arpResolve_answered {attempts : List ArpAttempt} {stack : Netstack} {targetIp : UInt32}
    {mac : Bytes} (h : netstackArpResolve (arpExchange attempts stack.clientIp) stack targetIp =
      some mac) :
    targetIp = stack.clientIp ∨ ∃ frame, arpReply stack.clientIp targetIp frame = some mac := by
  unfold netstackArpResolve at h
  split_ifs at h with hoff hself
  · exact Or.inl hself
  · exact Or.inr (arpExchange_reply h)

/-- New resolutions from the current address of the client; the cache may take one of them. -/
theorem CacheInvariant.extend {s : GatewayCache} (h : CacheInvariant s) {stack : Netstack}
    {made : List Resolution} (hclient : stack.clientIp = s.stack.clientIp)
    (hcurrent : ∀ r ∈ made, r.clientIp = s.stack.clientIp)
    (hanswered : ∀ r ∈ made,
      r.targetIp = r.clientIp ∨ ∃ frame, arpReply r.clientIp r.targetIp frame = some r.mac)
    (hcached : stack.gatewayMacValid = true →
      GatewayResolved ⟨stack, s.resolved ++ made⟩ stack.gatewayMac) :
    CacheInvariant ⟨stack, s.resolved ++ made⟩ where
  cached := hcached
  current r hr := by
    rw [hclient]
    rcases List.mem_append.mp hr with hr | hr
    · exact h.current r hr
    · exact hcurrent r hr
  answered r hr := by
    rcases List.mem_append.mp hr with hr | hr
    · exact h.answered r hr
    · exact hanswered r hr

theorem mem_resolution {stack : Netstack} {targetIp : UInt32} {mac : Option Bytes}
    {r : Resolution} : r ∈ resolution stack targetIp mac ↔
      ∃ m, mac = some m ∧ r = ⟨stack.clientIp, targetIp, m⟩ := by
  cases mac <;> simp [resolution]

theorem CacheInvariant.arpResolve {s : GatewayCache} (h : CacheInvariant s) (targetIp : UInt32)
    (attempts : List ArpAttempt) : CacheInvariant (cacheStep s (.arpResolve targetIp attempts)) := by
  refine h.extend rfl ?_ ?_ ?_
  · intro r hr
    obtain ⟨mac, -, rfl⟩ := mem_resolution.mp hr
    rfl
  · intro r hr
    obtain ⟨mac, hmac, rfl⟩ := mem_resolution.mp hr
    exact arpResolve_answered hmac
  · exact fun hvalid => List.mem_append_left _ (h.cached hvalid)

/-- Asking for the gateway: the record keeps its addresses, the resolutions made are of the gateway
and what is cached or returned has been resolved. -/
theorem gatewayMac_resolved {s : GatewayCache}
    (h : s.stack.gatewayMacValid = true → GatewayResolved s s.stack.gatewayMac)
    (arp : UInt32 → Option Bytes) :
    (netstackGatewayMac arp s.stack).2.clientIp = s.stack.clientIp ∧
      (netstackGatewayMac arp s.stack).2.gatewayIp = s.stack.gatewayIp ∧
      ((netstackGatewayMac arp s.stack).2.gatewayMacValid = true →
        ⟨s.stack.clientIp, s.stack.gatewayIp, (netstackGatewayMac arp s.stack).2.gatewayMac⟩ ∈
          s.resolved ++ gatewayResolved arp s.stack) ∧
      ∀ mac, (netstackGatewayMac arp s.stack).1 = some mac →
        (netstackGatewayMac arp s.stack).2.gatewayMacValid = true ∧
          (netstackGatewayMac arp s.stack).2.gatewayMac = mac := by
  unfold netstackGatewayMac gatewayResolved
  by_cases hvalid : s.stack.gatewayMacValid = true
  · simp only [hvalid, true_or, if_true, List.append_nil, Option.some.injEq, true_and,
      forall_true_left, imp_self, implies_true, and_true]
    exact h hvalid
  by_cases hzero : s.stack.gatewayIp = 0
  · simp [hvalid, hzero]
  · simp only [hvalid, hzero, or_self, if_false, Bool.false_eq_true]
    cases hmac : netstackArpResolve arp s.stack s.stack.gatewayIp with
    | none => simp [hvalid]
    | some mac => simp [resolution]

/-- A resolution that a call for the next hop makes was asked from the client's address. -/
theorem nextHopResolved_answered {stack : Netstack} {destIp : UInt32}
    {attempts : Nat → List ArpAttempt} {r : Resolution}
    (h : r ∈ nextHopResolved (arpRuns attempts stack.clientIp) stack destIp) :
    r.clientIp = stack.clientIp ∧
      (r.targetIp = r.clientIp ∨ ∃ frame, arpReply r.clientIp r.targetIp frame = some r.mac) := by
  have hresolution : ∀ n targetIp, r ∈ resolution stack targetIp
      (netstackArpResolve (arpRuns attempts stack.clientIp n) stack targetIp) →
      r.clientIp = stack.clientIp ∧
        (r.targetIp = r.clientIp ∨ ∃ frame, arpReply r.clientIp r.targetIp frame = some r.mac) := by
    intro n targetIp hr
    obtain ⟨mac, hmac, rfl⟩ := mem_resolution.mp hr
    exact ⟨rfl, arpResolve_answered hmac⟩
  have hgateway : ∀ n, r ∈ gatewayResolved (arpRuns attempts stack.clientIp n) stack →
      r.clientIp = stack.clientIp ∧
        (r.targetIp = r.clientIp ∨ ∃ frame, arpReply r.clientIp r.targetIp frame = some r.mac) := by
    intro n hr
    unfold gatewayResolved at hr
    split at hr
    · cases hr
    · exact hresolution n _ hr
  unfold nextHopResolved at h
  split at h
  · cases h
  split at h
  · split at h
    · rename_i mac hmac
      rw [← hmac] at h
      exact hresolution 0 destIp h
    · split at h
      · exact hgateway 1 h
      · cases h
  · exact hgateway 0 h

/-- The MAC address that a call for the next hop returns: that of the destination if it is a
neighbour, or the gateway's if it is the name server or the gateway and did not answer, and else the
gateway's. -/
def NextHopMac (s : GatewayCache) (destIp : UInt32) (attempts : Nat → List ArpAttempt)
    (mac : Bytes) : Prop :=
  let asked := netstackArpResolve (arpRuns attempts s.stack.clientIp 0) s.stack destIp
  let after := cacheStep s (.nextHop destIp attempts)
  if netSameSubnet s.stack.clientIp destIp s.stack.subnetMask then
    asked = some mac ∨
      asked = none ∧ (destIp = s.stack.dnsIp ∨ destIp = s.stack.gatewayIp) ∧
        after.stack.gatewayMac = mac ∧ GatewayResolved after mac
  else after.stack.gatewayMac = mac ∧ GatewayResolved after mac

theorem CacheInvariant.gateway {s : GatewayCache} (h : CacheInvariant s) (destIp : UInt32)
    (attempts : Nat → List ArpAttempt) (n : Nat)
    (hstack : (netstackNextHopMac (arpRuns attempts s.stack.clientIp) s.stack destIp).2 =
      (netstackGatewayMac (arpRuns attempts s.stack.clientIp n) s.stack).2)
    (hmade : nextHopResolved (arpRuns attempts s.stack.clientIp) s.stack destIp =
      gatewayResolved (arpRuns attempts s.stack.clientIp n) s.stack) :
    CacheInvariant (cacheStep s (.nextHop destIp attempts)) ∧
      ∀ mac, (netstackGatewayMac (arpRuns attempts s.stack.clientIp n) s.stack).1 = some mac →
        (cacheStep s (.nextHop destIp attempts)).stack.gatewayMac = mac ∧
          GatewayResolved (cacheStep s (.nextHop destIp attempts)) mac := by
  obtain ⟨hclient, hgateway, hcached, hmac⟩ :=
    gatewayMac_resolved h.cached (arpRuns attempts s.stack.clientIp n)
  rw [← hstack] at hclient hgateway hcached hmac
  rw [← hmade] at hcached
  have hresolved : (netstackNextHopMac (arpRuns attempts s.stack.clientIp) s.stack
      destIp).2.gatewayMacValid = true → GatewayResolved (cacheStep s (.nextHop destIp attempts))
        (cacheStep s (.nextHop destIp attempts)).stack.gatewayMac := by
    intro hvalid
    simp only [GatewayResolved, cacheStep, hclient, hgateway]
    exact hcached hvalid
  refine ⟨h.extend hclient (fun r hr => (nextHopResolved_answered hr).1)
    (fun r hr => (nextHopResolved_answered hr).2) hresolved, ?_⟩
  intro mac hsome
  obtain ⟨hvalid, rfl⟩ := hmac mac hsome
  exact ⟨rfl, hresolved hvalid⟩

/-- A call that leaves the record alone only adds resolutions. -/
theorem CacheInvariant.keep {s : GatewayCache} (h : CacheInvariant s) {destIp : UInt32}
    {attempts : Nat → List ArpAttempt}
    (hstack : (netstackNextHopMac (arpRuns attempts s.stack.clientIp) s.stack destIp).2 =
      s.stack) : CacheInvariant (cacheStep s (.nextHop destIp attempts)) := by
  rw [cacheStep, hstack]
  refine h.extend rfl ?_ ?_ ?_
  · exact fun r hr => (nextHopResolved_answered hr).1
  · exact fun r hr => (nextHopResolved_answered hr).2
  · exact fun hvalid => List.mem_append_left _ (h.cached hvalid)

theorem CacheInvariant.nextHop {s : GatewayCache} (h : CacheInvariant s) (destIp : UInt32)
    (attempts : Nat → List ArpAttempt) :
    CacheInvariant (cacheStep s (.nextHop destIp attempts)) ∧
      ∀ mac, (netstackNextHopMac (arpRuns attempts s.stack.clientIp) s.stack destIp).1 = some mac →
        NextHopMac s destIp attempts mac := by
  by_cases hoff : s.stack.configured = false
  · have hnone : netstackNextHopMac (arpRuns attempts s.stack.clientIp) s.stack destIp =
        (none, s.stack) := by rw [netstackNextHopMac, if_pos hoff]
    refine ⟨h.keep (by rw [hnone]), fun mac hmac => ?_⟩
    rw [hnone] at hmac
    cases hmac
  by_cases hsubnet : netSameSubnet s.stack.clientIp destIp s.stack.subnetMask = true
  · cases hasked : netstackArpResolve (arpRuns attempts s.stack.clientIp 0) s.stack destIp with
    | some found =>
      have hfound : netstackNextHopMac (arpRuns attempts s.stack.clientIp) s.stack destIp =
          (some found, s.stack) := by
        rw [netstackNextHopMac, if_neg hoff, if_pos hsubnet, hasked]
      refine ⟨h.keep (by rw [hfound]), fun mac hmac => ?_⟩
      rw [hfound] at hmac
      obtain rfl := Option.some.inj hmac
      simp only [NextHopMac, hsubnet, if_true]
      exact Or.inl hasked
    | none =>
      by_cases hserver : s.stack.gatewayIp ≠ 0 ∧
          (destIp = s.stack.dnsIp ∨ destIp = s.stack.gatewayIp)
      · have hhop : netstackNextHopMac (arpRuns attempts s.stack.clientIp) s.stack destIp =
            netstackGatewayMac (arpRuns attempts s.stack.clientIp 1) s.stack := by
          rw [netstackNextHopMac, if_neg hoff, if_pos hsubnet, hasked]
          exact if_pos hserver
        have hmade : nextHopResolved (arpRuns attempts s.stack.clientIp) s.stack destIp =
            gatewayResolved (arpRuns attempts s.stack.clientIp 1) s.stack := by
          rw [nextHopResolved, if_neg hoff, if_pos hsubnet, hasked]
          exact if_pos hserver
        obtain ⟨hinv, hmac⟩ := h.gateway destIp attempts 1 (by rw [hhop]) hmade
        refine ⟨hinv, fun mac hsome => ?_⟩
        rw [hhop] at hsome
        simp only [NextHopMac, hsubnet, if_true]
        exact Or.inr ⟨hasked, hserver.2, hmac mac hsome⟩
      · have hnone : netstackNextHopMac (arpRuns attempts s.stack.clientIp) s.stack destIp =
            (none, s.stack) := by
          rw [netstackNextHopMac, if_neg hoff, if_pos hsubnet, hasked]
          exact if_neg hserver
        refine ⟨h.keep (by rw [hnone]), fun mac hmac => ?_⟩
        rw [hnone] at hmac
        cases hmac
  · have hhop : netstackNextHopMac (arpRuns attempts s.stack.clientIp) s.stack destIp =
        netstackGatewayMac (arpRuns attempts s.stack.clientIp 0) s.stack := by
      rw [netstackNextHopMac, if_neg hoff, if_neg hsubnet]
    have hmade : nextHopResolved (arpRuns attempts s.stack.clientIp) s.stack destIp =
        gatewayResolved (arpRuns attempts s.stack.clientIp 0) s.stack := by
      rw [nextHopResolved, if_neg hoff, if_neg hsubnet]
    obtain ⟨hinv, hmac⟩ := h.gateway destIp attempts 0 (by rw [hhop]) hmade
    refine ⟨hinv, fun mac hsome => ?_⟩
    rw [hhop] at hsome
    simp only [NextHopMac, if_neg hsubnet]
    exact hmac mac hsome

theorem CacheInvariant.renewDhcp {s : GatewayCache} (h : CacheInvariant s) (network : Network)
    (e1000 : E1000) (exchange : DhcpExchange) :
    CacheInvariant (cacheStep s (.renewDhcp network e1000 exchange)) := by
  have hsame : ∀ stack : Netstack, stack.gatewayMacValid = s.stack.gatewayMacValid →
      stack.clientIp = s.stack.clientIp → stack.gatewayIp = s.stack.gatewayIp →
      stack.gatewayMac = s.stack.gatewayMac → CacheInvariant ⟨stack, s.resolved⟩ := by
    intro stack hvalid hclient hgateway hmac
    refine ⟨fun hset => ?_, fun r hr => (h.current r hr).trans hclient.symm, h.answered⟩
    rw [GatewayResolved, hclient, hgateway, hmac]
    exact h.cached (hvalid.symm.trans hset)
  simp only [cacheStep, netstackRenewDhcp]
  split
  · exact h
  · split
    · exact h
    · cases exchange with
      | noOffer => exact hsame _ rfl rfl rfl rfl
      | noAck => exact hsame _ rfl rfl rfl rfl
      | leased offer => exact .fresh rfl

theorem CacheInvariant.step (s : GatewayCache) (op : CacheOp) (h : CacheInvariant s) :
    CacheInvariant (cacheStep s op) := by
  cases op with
  | reset => exact .fresh rfl
  | renewDhcp network e1000 exchange => exact h.renewDhcp network e1000 exchange
  | virtualboxProfile =>
    simp only [cacheStep, netstackApplyVirtualboxNatProfile]
    split
    · exact h
    · exact .fresh rfl
  | arpResolve targetIp attempts => exact h.arpResolve targetIp attempts
  | nextHop destIp attempts => exact (h.nextHop destIp attempts).1

/-- The cached address is the gateway's, found since the stack was last configured; what is found
comes from an answer to the client, or is the client itself; and the next hop of a packet is the
right one. -/
structure GatewayCacheLaw (s : GatewayCache) : Prop where
  cached : s.stack.gatewayMacValid = true → GatewayResolved s s.stack.gatewayMac
  answered : ∀ mac, GatewayResolved s mac → s.stack.gatewayIp = s.stack.clientIp ∨
    ∃ frame, arpReply s.stack.clientIp s.stack.gatewayIp frame = some mac
  nextHop : ∀ (destIp : UInt32) (attempts : Nat → List ArpAttempt) (mac : Bytes),
    (netstackNextHopMac (arpRuns attempts s.stack.clientIp) s.stack destIp).1 = some mac →
      NextHopMac s destIp attempts mac

theorem gatewayCache_law (ops : List CacheOp) : GatewayCacheLaw (run cacheStep .boot ops) := by
  have h := run_invariant CacheInvariant.step cacheInvariant_boot ops
  exact ⟨h.cached, fun mac hmac => h.answered _ hmac,
    fun destIp attempts mac => (h.nextHop destIp attempts).2 mac⟩

end SnsxOS.Arm64
