import SnsxOS.Arm64.Net.Link

/-!
# Local ports

`g_netstack.next_port` is read and incremented by each name lookup and each TCP session, and
`netstack_reset` puts it back to 49152. The log of a run has one entry for each of the two, in
order; an allocation is used when a frame with the port is built.
-/

namespace SnsxOS.Arm64

open Framework

inductive PortEvent where
  | reset
  | allocate (port : UInt16) (used : Bool)
  deriving DecidableEq

/-- A lookup that finds a next hop takes a port; the name may still not fit the query. -/
def lookupEvents (arp : Nat → UInt32 → Option Bytes) (host : Bytes) (stack : Netstack) :
    List PortEvent :=
  match netParseIpv4Text host with
  | some _ => []
  | none =>
      if stack.configured = false ∨ stack.dnsIp = 0 then []
      else
        match netstackNextHopMac arp stack stack.dnsIp with
        | (none, _) => []
        | (some _, stack) => [.allocate stack.nextPort (dnsQueryName host).isSome]

def openEvents (arp : Nat → UInt32 → Option Bytes) (remoteIp : UInt32) (stack : Netstack) :
    List PortEvent :=
  match netstackNextHopMac arp stack remoteIp with
  | (none, _) => []
  | (some _, stack) => [.allocate stack.nextPort true]

/-- A refresh resets the stack for a card with another address, for a native card while the
stack is not configured, and when there is no card. -/
def refreshEvents (firmware : Firmware) (s : LinkState) : List PortEvent :=
  match firmware.snp, firmware.nic with
  | some snp, _ =>
      if 6 ≤ snp.hwAddressSize ∧ s.stack.clientMac ≠ snp.currentAddress then [.reset] else []
  | none, some nic =>
      if s.stack.configured = false ∨ s.stack.clientMac ≠ nic.address then [.reset] else []
  | none, none => [.reset]

def httpEvents (firmware : Firmware) (preference : Nat) (request : HttpLink) (s : LinkState) :
    List PortEvent :=
  let first := lookupEvents request.arp request.host s.stack
  let s := s.onStack (netstackLookup request.arp request.host)
  match request.resolved with
  | some remoteIp => first ++ openEvents request.arpOpen remoteIp s.stack
  | none =>
      let refreshed := refreshEvents firmware s
      let s := networkRefresh firmware preference true request.reconnect s
      let second := lookupEvents request.arpAgain request.host s.stack
      let s := s.onStack (netstackLookup request.arpAgain request.host)
      match request.resolvedAgain with
      | some remoteIp =>
          first ++ refreshed ++ second ++ openEvents request.arpOpen remoteIp s.stack
      | none => first ++ refreshed ++ second

/-- What `linkStep` does to the counter. -/
def linkEvents (firmware : Firmware) (preference : Nat) (s : LinkState) :
    LinkOp → List PortEvent
  | .refresh _ _ => refreshEvents firmware s
  | .dhcp events retry =>
      match networkConnectWired events s with
      | (true, s) => refreshEvents firmware s
      | (false, s) =>
          match netstackRenewDhcp retry s with
          | (true, s) => refreshEvents firmware s
          | (false, _) => []
  | .dns arp host => lookupEvents arp host s.stack
  | .http request =>
      let connected := if s.stack.configured then [] else refreshEvents firmware s
      let s := if s.stack.configured then s
        else networkRefresh firmware preference true request.connect s
      if s.stack.configured then connected ++ httpEvents firmware preference request s
      else connected

/-- The records with the log of the counter. -/
structure PortRun where
  link : LinkState
  log : List PortEvent

def portStep (firmware : Firmware) (preference : Nat) (p : PortRun) (op : LinkOp) : PortRun where
  link := linkStep firmware preference p.link op
  log := p.log ++ linkEvents firmware preference p.link op

/-- The log of a run that starts with a reset. -/
def portLog (firmware : Firmware) (preference : Nat) (s : LinkState) (ops : List LinkOp) :
    List PortEvent :=
  (run (portStep firmware preference) ⟨s.onStack fun _ => netstackReset, []⟩ ops).log

/-- The allocations of a log, each with whether its port is used. -/
def allocations (events : List PortEvent) : List (UInt16 × Bool) :=
  events.filterMap fun
    | .reset => none
    | .allocate port used => some (port, used)

/-- Used ports are ephemeral, and 16384 allocations in a row use none twice. -/
def PortsEphemeral (events : List PortEvent) : Prop :=
  (∀ port, (port, true) ∈ allocations events → 49152 ≤ port) ∧
    ∀ i j port, i < j → j < i + 16384 → (allocations events)[i]? = some (port, true) →
      (allocations events)[j]? ≠ some (port, true)

/-- Here `n` allocations have been made since the last reset. No reset is followed by more than
16384 of them, and the next one comes before the first or after the last of these, unless
nothing is allocated any more. -/
def FullCycles : Nat → List PortEvent → Prop
  | _, [] => True
  | n, .reset :: events => (n = 0 ∨ n = 16384 ∨ allocations events = []) ∧ FullCycles 0 events
  | n, .allocate _ _ :: events => n < 16384 ∧ FullCycles (n + 1) events

instance instDecidableFullCycles (n : Nat) (events : List PortEvent) :
    Decidable (FullCycles n events) :=
  match events with
  | [] => inferInstanceAs (Decidable True)
  | .reset :: events =>
      have := instDecidableFullCycles 0 events
      inferInstanceAs (Decidable (_ ∧ _))
  | .allocate _ _ :: events =>
      have := instDecidableFullCycles (n + 1) events
      inferInstanceAs (Decidable (_ ∧ _))

section Counter

/-- The counter moves from `port` to `port'` as the events say. -/
def Counts : UInt16 → List PortEvent → UInt16 → Prop
  | port, [], port' => port' = port
  | _, .reset :: events, port' => Counts 49152 events port'
  | port, .allocate taken _ :: events, port' => taken = port ∧ Counts (port + 1) events port'

variable {port port' port'' : UInt16} {events events' : List PortEvent}

@[simp] theorem counts_nil : Counts port [] port' ↔ port' = port := Iff.rfl

@[simp] theorem counts_reset : Counts port (.reset :: events) port' ↔ Counts 49152 events port' :=
  Iff.rfl

@[simp] theorem counts_allocate {taken : UInt16} {used : Bool} :
    Counts port (.allocate taken used :: events) port' ↔
      taken = port ∧ Counts (port + 1) events port' := Iff.rfl

@[simp] theorem allocations_nil : allocations [] = [] := rfl

@[simp] theorem allocations_reset : allocations (.reset :: events) = allocations events := rfl

@[simp] theorem allocations_allocate {taken : UInt16} {used : Bool} :
    allocations (.allocate taken used :: events) = (taken, used) :: allocations events := rfl

theorem mem_allocations {taken : UInt16} {used : Bool} :
    (taken, used) ∈ allocations events ↔ .allocate taken used ∈ events := by
  induction events with
  | nil => simp
  | cons event events ih => cases event <;> simp [ih]

theorem Counts.append (h : Counts port events port') (h' : Counts port' events' port'') :
    Counts port (events ++ events') port'' := by
  induction events generalizing port with
  | nil =>
    rw [counts_nil] at h
    exact h ▸ h'
  | cons event events ih =>
    cases event with
    | reset => exact ih h
    | allocate taken used => exact ⟨h.1, ih h.2⟩

/-- The `k`-th allocation of a log that starts `n` allocations after a reset. -/
theorem Counts.allocation {n k : Nat} {used : Bool} (h : Counts port events port')
    (hport : port = UInt16.ofNat (49152 + n)) (hcycles : FullCycles n events) {taken : UInt16}
    (hk : (allocations events)[k]? = some (taken, used)) :
    taken.toNat = 49152 + (n + k) % 16384 := by
  induction events generalizing port n k with
  | nil => cases hk
  | cons event events ih =>
    cases event with
    | reset =>
      have hrest := ih h rfl hcycles.2 hk
      rcases hcycles.1 with hn | hn | hn
      · omega
      · omega
      · rw [allocations_reset, hn] at hk
        cases hk
    | allocate port₀ used₀ =>
      obtain ⟨hn, hcycles⟩ := hcycles
      obtain ⟨htaken, h⟩ := h
      cases k with
      | zero =>
        obtain ⟨rfl, -⟩ := Prod.mk.inj (Option.some.inj hk)
        rw [htaken, hport, UInt16.toNat_ofNat', Nat.mod_eq_of_lt (by omega), Nat.add_zero,
          Nat.mod_eq_of_lt hn]
      | succ k =>
        have hnext : port + 1 = UInt16.ofNat (49152 + (n + 1)) := by
          rw [hport]
          exact (UInt16.ofNat_add (49152 + n) 1).symm
        have hrest := ih h hnext hcycles hk
        rw [hrest]
        congr 2
        omega

theorem Counts.ephemeral (h : Counts 49152 events port') (hcycles : FullCycles 0 events) :
    PortsEphemeral events := by
  constructor
  · intro port hmem
    obtain ⟨k, hk⟩ := List.mem_iff_getElem?.mp hmem
    have hvalue := h.allocation rfl hcycles hk
    rw [UInt16.le_iff_toNat_le, hvalue]
    exact Nat.le_add_right _ _
  · intro i j port hij hnear hi hj
    have hvalue := h.allocation rfl hcycles hi
    have hvalue' := h.allocation rfl hcycles hj
    omega

end Counter

section Steps

variable (stack : Netstack) (s : LinkState)

theorem gatewayMac_nextPort (resolve : UInt32 → Option Bytes) :
    (netstackGatewayMac resolve stack).2.nextPort = stack.nextPort := by
  rw [netstackGatewayMac]
  split_ifs
  · rfl
  · rfl
  · split <;> rfl

theorem nextHopMac_nextPort (arp : Nat → UInt32 → Option Bytes) (destIp : UInt32) :
    (netstackNextHopMac arp stack destIp).2.nextPort = stack.nextPort := by
  rw [netstackNextHopMac]
  split
  · rfl
  split
  · cases netstackArpResolve (arp 0) stack destIp with
    | some mac => rfl
    | none =>
      dsimp only
      split
      · exact gatewayMac_nextPort stack (arp 1)
      · rfl
  · exact gatewayMac_nextPort stack (arp 0)

theorem exchangeDhcp_nextPort (exchange : DhcpExchange) :
    (netstackExchangeDhcp exchange stack).2.nextPort = stack.nextPort := by
  cases exchange <;> rfl

theorem virtualboxProfile_nextPort :
    (netstackApplyVirtualboxNatProfile stack).2.nextPort = stack.nextPort := by
  rw [netstackApplyVirtualboxNatProfile]
  split <;> rfl

theorem lookup_counts (arp : Nat → UInt32 → Option Bytes) (host : Bytes) :
    Counts stack.nextPort (lookupEvents arp host stack)
      (netstackLookup arp host stack).nextPort := by
  rw [lookupEvents, netstackLookup]
  cases netParseIpv4Text host with
  | some ip => rfl
  | none =>
    dsimp only
    split
    · rfl
    · have hport := nextHopMac_nextPort stack arp stack.dnsIp
      rcases hnext : netstackNextHopMac arp stack stack.dnsIp with ⟨_ | mac, stack'⟩
      · rw [hnext] at hport
        exact hport
      · rw [hnext] at hport
        dsimp only at hport ⊢
        rw [counts_allocate, ← hport]
        cases dnsQueryName host with
        | none => exact ⟨rfl, rfl⟩
        | some query => exact ⟨rfl, rfl⟩

theorem open_counts (arp : Nat → UInt32 → Option Bytes) (remoteIp : UInt32) :
    Counts stack.nextPort (openEvents arp remoteIp stack)
      (netstackOpen arp remoteIp stack).nextPort := by
  rw [openEvents, netstackOpen]
  have hport := nextHopMac_nextPort stack arp remoteIp
  rcases hnext : netstackNextHopMac arp stack remoteIp with ⟨_ | mac, stack'⟩
  · rw [hnext] at hport
    exact hport
  · rw [hnext] at hport
    dsimp only at hport ⊢
    rw [counts_allocate, ← hport]
    exact ⟨rfl, rfl⟩

theorem renewDhcp_nextPort (exchange : DhcpExchange) :
    (netstackRenewDhcp exchange s).2.stack.nextPort = s.stack.nextPort := by
  rw [netstackRenewDhcp]
  split
  · rfl
  · cases s.deviceMac with
    | none => rfl
    | some mac => exact exchangeDhcp_nextPort _ exchange

theorem configureStack_nextPort (exchange : DhcpExchange) :
    (configureStack exchange s).stack.nextPort = s.stack.nextPort := by
  rw [configureStack]
  split
  · rfl
  · have hrenew := renewDhcp_nextPort s exchange
    rcases hpair : netstackRenewDhcp exchange s with ⟨_ | _, s'⟩
    · rw [hpair] at hrenew
      exact (virtualboxProfile_nextPort s'.stack).trans hrenew
    · rw [hpair] at hrenew
      exact hrenew

theorem connectWired_nextPort (events : ConnectEvents) :
    (networkConnectWired events s).2.stack.nextPort = s.stack.nextPort := by
  rw [networkConnectWired]
  split
  · cases s.e1000.pci with
    | none => rfl
    | some nic => exact configureStack_nextPort (bringUpNative events nic s) events.dhcp
  · cases s.network.protocol with
    | none => rfl
    | some snp =>
      dsimp only
      rw [connectSnp]
      split
      · exact configureStack_nextPort (bringUpSnp events snp s) events.dhcp
      · rfl

theorem refresh_counts (firmware : Firmware) (preference : Nat) (tryConnect : Bool)
    (events : ConnectEvents) :
    Counts s.stack.nextPort (refreshEvents firmware s)
      (networkRefresh firmware preference tryConnect events s).stack.nextPort := by
  have hconnect : ∀ t : LinkState, (if networkConnects preference tryConnect then
      (networkConnectWired events t).2 else t).stack.nextPort = t.stack.nextPort := by
    intro t
    split
    · exact connectWired_nextPort t events
    · rfl
  rw [refreshEvents, networkRefresh]
  cases firmware.snp with
  | some snp =>
    dsimp only
    rw [hconnect, probeSnp]
    dsimp only
    split <;> rfl
  | none =>
    cases firmware.nic with
    | none => rfl
    | some nic =>
      dsimp only [adoptNative]
      rw [hconnect, probeNative]
      dsimp only
      split <;> rfl

theorem http_counts (firmware : Firmware) (preference : Nat) (request : HttpLink) :
    Counts s.stack.nextPort (httpEvents firmware preference request s)
      (httpOnLink firmware preference request s).stack.nextPort := by
  have hfirst := lookup_counts s.stack request.arp request.host
  rw [httpEvents, httpOnLink]
  cases request.resolved with
  | some remoteIp => exact hfirst.append (open_counts _ request.arpOpen remoteIp)
  | none =>
    have hrefresh := hfirst.append
      (refresh_counts (s.onStack (netstackLookup request.arp request.host)) firmware preference
        true request.reconnect)
    have hsecond := hrefresh.append (lookup_counts _ request.arpAgain request.host)
    cases request.resolvedAgain with
    | none => exact hsecond
    | some remoteIp => exact hsecond.append (open_counts _ request.arpOpen remoteIp)

theorem link_counts (firmware : Firmware) (preference : Nat) (op : LinkOp) :
    Counts s.stack.nextPort (linkEvents firmware preference s op)
      (linkStep firmware preference s op).stack.nextPort := by
  cases op with
  | refresh tryConnect events => exact refresh_counts s firmware preference tryConnect events
  | dns arp host => exact lookup_counts s.stack arp host
  | dhcp events retry =>
    rw [linkEvents, linkStep]
    have hconnect := connectWired_nextPort s events
    rcases hpair : networkConnectWired events s with ⟨_ | _, s'⟩
    · rw [hpair] at hconnect
      dsimp only at hconnect ⊢
      have hrenew := renewDhcp_nextPort s' retry
      rcases hretry : netstackRenewDhcp retry s' with ⟨_ | _, s''⟩
      · rw [hretry] at hrenew
        exact hrenew.trans hconnect
      · rw [hretry] at hrenew
        rw [← hconnect, ← hrenew]
        exact refresh_counts s'' firmware preference false events
    · rw [hpair] at hconnect
      rw [← hconnect]
      exact refresh_counts s' firmware preference false events
  | http request =>
    rw [linkEvents, linkStep]
    cases hconfigured : s.stack.configured with
    | true =>
      simp only [hconfigured, if_true, List.nil_append]
      exact http_counts s firmware preference request
    | false =>
      have hrefresh := refresh_counts s firmware preference true request.connect
      simp only [Bool.false_eq_true, if_false]
      split
      · exact hrefresh.append (http_counts _ firmware preference request)
      · exact hrefresh

end Steps

theorem portRun_counts (firmware : Firmware) (preference : Nat) (s : LinkState)
    (ops : List LinkOp) :
    Counts 49152 (portLog firmware preference s ops)
      (run (portStep firmware preference) ⟨s.onStack fun _ => netstackReset, []⟩
        ops).link.stack.nextPort := by
  have hstep : ∀ (p : PortRun) (op : LinkOp), Counts 49152 p.log p.link.stack.nextPort →
      Counts 49152 (portStep firmware preference p op).log
        (portStep firmware preference p op).link.stack.nextPort :=
    fun p op hp => hp.append (link_counts p.link firmware preference op)
  have hstart : Counts 49152 [] 49152 := rfl
  exact run_invariant (I := fun p : PortRun => Counts 49152 p.log p.link.stack.nextPort) hstep
    hstart ops

section Wrap

/-- Every address answers. -/
def answeringArp : Nat → UInt32 → Option Bytes := fun _ _ => some zeroMac

/-- The stack has the fixed profile. -/
def HasProfile (stack : Netstack) : Prop :=
  stack.configured = true ∧ stack.clientIp = netIpMake 10 0 2 15 ∧
    stack.subnetMask = netIpMake 255 255 255 0 ∧ stack.dnsIp = netIpMake 10 0 2 3

variable {stack : Netstack}

theorem HasProfile.nextHop (h : HasProfile stack) :
    netstackNextHopMac answeringArp stack stack.dnsIp = (some zeroMac, stack) := by
  obtain ⟨hconfigured, hclient, hmask, hdns⟩ := h
  have hsame : netSameSubnet stack.clientIp stack.dnsIp stack.subnetMask = true := by
    rw [hclient, hmask, hdns]
    decide
  have hmac : netstackArpResolve (answeringArp 0) stack stack.dnsIp = some zeroMac := by
    rw [netstackArpResolve, hconfigured, hclient, hdns]
    rfl
  rw [netstackNextHopMac, if_neg (by simp [hconfigured]), if_pos hsame, hmac]

/-- A lookup takes the next port and keeps the profile. -/
theorem HasProfile.lookup (h : HasProfile stack) :
    lookupEvents answeringArp [97] stack = [.allocate stack.nextPort true] ∧
      HasProfile (netstackLookup answeringArp [97] stack) ∧
      (netstackLookup answeringArp [97] stack).nextPort = stack.nextPort + 1 := by
  have hparse : netParseIpv4Text [97] = none := by decide
  have hname : ∃ query, dnsQueryName [97] = some query :=
    Option.isSome_iff_exists.mp (by decide +kernel)
  have hready : ¬ (stack.configured = false ∨ stack.dnsIp = 0) := by
    rw [h.1, h.2.2.2]
    decide
  obtain ⟨query, hquery⟩ := hname
  rw [lookupEvents, netstackLookup, hparse]
  dsimp only
  rw [if_neg hready, if_neg hready, h.nextHop, hquery]
  exact ⟨rfl, h, rfl⟩

theorem lookups_log (firmware : Firmware) (preference n : Nat) {p : PortRun}
    (h : HasProfile p.link.stack) :
    PortEvent.allocate (p.link.stack.nextPort + UInt16.ofNat n) true ∈
      (run (portStep firmware preference) p
        (List.replicate (n + 1) (.dns answeringArp [97]))).log := by
  induction n generalizing p with
  | zero =>
    have hlog : (portStep firmware preference p (.dns answeringArp [97])).log =
        p.log ++ [.allocate p.link.stack.nextPort true] := congrArg (p.log ++ ·) h.lookup.1
    rw [List.replicate_one, run_cons, run_nil, hlog]
    simp
  | succ n ih =>
    have hnext := ih (p := portStep firmware preference p (.dns answeringArp [97])) h.lookup.2.1
    have hport : (portStep firmware preference p (.dns answeringArp [97])).link.stack.nextPort =
        p.link.stack.nextPort + 1 := h.lookup.2.2
    rw [hport, UInt16.add_assoc, UInt16.add_comm 1, ← UInt16.ofNat_one, ← UInt16.ofNat_add] at hnext
    rw [List.replicate_succ, run_cons]
    exact hnext

end Wrap

/-- A page of the gateway, which does not answer, brings up the link. -/
def quietRequest : HttpLink where
  host := [49, 48, 46, 48, 46, 50, 46, 50]
  connect := quietEvents
  arp := fun _ _ => none
  resolved := some (netIpMake 10 0 2 2)
  reconnect := quietEvents
  arpAgain := fun _ _ => none
  resolvedAgain := none
  arpOpen := fun _ _ => none

/-- After a reset the ports of lookups and sessions are ephemeral, and none is used twice among
16384 allocations in a row, in every run in which no reset is followed by more allocations and
none comes between them. -/
theorem ports_ephemeral (firmware : Firmware) (preference : Nat) (s : LinkState)
    (ops : List LinkOp) (h : FullCycles 0 (portLog firmware preference s ops)) :
    PortsEphemeral (portLog firmware preference s ops) :=
  (portRun_counts firmware preference s ops).ephemeral h

theorem ports_ephemeral_lookup :
    PortsEphemeral (portLog vboxFirmware 0 (.boot 0)
      [.http quietRequest, .dns answeringArp [97]]) :=
  ports_ephemeral vboxFirmware 0 (.boot 0) _ (by decide +kernel)

/-- The 16385th lookup after the reset is sent from port 0. -/
theorem not_ports_ephemeral :
    ¬ PortsEphemeral (portLog vboxFirmware 0 (.boot 0)
      (.http quietRequest :: List.replicate (16384 + 1) (.dns answeringArp [97]))) := by
  have hprofile : HasProfile (portStep vboxFirmware 0
      ⟨(LinkState.boot 0).onStack fun _ => netstackReset, []⟩ (.http quietRequest)).link.stack := by
    refine ⟨?_, ?_, ?_, ?_⟩ <;> decide +kernel
  have hport : (portStep vboxFirmware 0
      ⟨(LinkState.boot 0).onStack fun _ => netstackReset, []⟩
        (.http quietRequest)).link.stack.nextPort = 49152 := by
    decide +kernel
  have hwrap := lookups_log vboxFirmware 0 16384 hprofile
  have hzero : (49152 : UInt16) + UInt16.ofNat 16384 = 0 := by decide
  rw [hport, hzero] at hwrap
  intro h
  rw [portLog, run_cons] at h
  exact absurd (h.1 0 (mem_allocations.mpr hwrap)) (by decide)

end SnsxOS.Arm64
