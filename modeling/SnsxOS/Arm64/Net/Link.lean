import SnsxOS.Arm64.Net.Netstack

/-!
# The link under the stack

`network_refresh`, `network_connect_wired` and the commands that call them, over the three
records they share: the stack, the network record and the driver of the native card. The
firmware offers a network protocol, a card, or neither, and never changes its mind; what it
answers to a call is given with the operation. Text shown to the user is left out.

A configured stack stays usable except where a native card is probed again, which forgets that
the card was initialised, and is then left as it is.
-/

namespace SnsxOS.Arm64

open Framework

/-- A simple network protocol with its mode. -/
structure Snp where
  hasStart : Bool
  hasInitialize : Bool
  hwAddressSize : UInt32
  currentAddress : Bytes
  mediaPresentSupported : Bool
  deriving DecidableEq

/-- An 82540EM on the PCI bus, with the address its registers or its EEPROM hold. -/
structure Nic where
  deviceId : UInt16
  mac : Bytes
  deriving DecidableEq

structure Firmware where
  snp : Option Snp
  nic : Option Nic

def e1000MacIsValid (mac : Bytes) : Bool :=
  mac != zeroMac && mac != List.replicate 6 0xFF && (netByte mac 0 &&& 0x01) == 0

def e1000BuildFallbackMac (deviceId : UInt16) : Bytes :=
  [0x02, 0x53, 0x4E, 0x53, 0x58, ((deviceId ^^^ 0xA5) &&& 0xFF).toUInt8]

/-- The address a card is used with. -/
def Nic.address (nic : Nic) : Bytes :=
  if e1000MacIsValid nic.mac then nic.mac else e1000BuildFallbackMac nic.deviceId

/-- `g_e1000`; the card is present when its PCI handle is. -/
structure E1000 where
  pci : Option Nic
  initialized : Bool
  linkUp : Bool
  mac : Bytes
  deriving DecidableEq

def E1000.zero : E1000 := ⟨none, false, false, zeroMac⟩

structure Network where
  available : Bool
  nativeAvailable : Bool
  mediaPresent : Bool
  mediaPresentSupported : Bool
  started : Bool
  initialized : Bool
  internetServicesReady : Bool
  modeState : Nat
  protocol : Option Snp
  deriving DecidableEq

def Network.zero : Network := ⟨false, false, false, false, false, false, false, 0, none⟩

/-- The three records and the state of the firmware interface: stopped, started, initialised. -/
structure LinkState where
  stack : Netstack
  network : Network
  e1000 : E1000
  snpState : Nat

def LinkState.boot (snpState : Nat) : LinkState := ⟨.zero, .zero, .zero, snpState⟩

/-- The outcomes of the calls that connecting makes. -/
structure ConnectEvents where
  startSucceeds : Bool
  initializeSucceeds : Bool
  mediaPresent : Bool
  linkUp : Bool
  dhcp : DhcpExchange

/-- The address of the device that frames go through. -/
def LinkState.deviceMac (s : LinkState) : Option Bytes :=
  if s.e1000.initialized then some s.e1000.mac else s.network.protocol.map Snp.currentAddress

def netstackRenewDhcp (exchange : DhcpExchange) (s : LinkState) : Bool × LinkState :=
  if s.network.initialized = false then (false, s)
  else
    match s.deviceMac with
    | none => (false, s)
    | some mac =>
        let result := netstackExchangeDhcp exchange { s.stack with clientMac := mac }
        (result.1, { s with stack := result.2 })

/-- Configure a stack that is not: by DHCP, else with the fixed profile. -/
def configureStack (exchange : DhcpExchange) (s : LinkState) : LinkState :=
  if s.stack.configured then s
  else
    match netstackRenewDhcp exchange s with
    | (true, s) => s
    | (false, s) => { s with stack := (netstackApplyVirtualboxNatProfile s.stack).2 }

def e1000Initialize (linkUp : Bool) (nic : Nic) (e1000 : E1000) : E1000 :=
  if e1000.initialized then { e1000 with linkUp := linkUp }
  else { e1000 with linkUp := linkUp, mac := nic.address, initialized := true }

def bringUpNative (events : ConnectEvents) (nic : Nic) (s : LinkState) : LinkState :=
  { s with
    e1000 := e1000Initialize events.linkUp nic s.e1000
    network := { s.network with
      started := true
      initialized := true
      internetServicesReady := true
      mediaPresentSupported := events.linkUp
      mediaPresent := true } }

/-- The native half of `network_connect_wired`. -/
def connectNative (events : ConnectEvents) (nic : Nic) (s : LinkState) : LinkState :=
  configureStack events.dhcp (bringUpNative events nic s)

/-- Start and initialise the firmware interface; only a started one is initialised. -/
def bringUpSnp (events : ConnectEvents) (snp : Snp) (s : LinkState) : LinkState :=
  let starts := s.snpState == 0 && snp.hasStart && events.startSucceeds
  let state := if starts then 1 else s.snpState
  let initializes := state == 1 && snp.hasInitialize && events.initializeSucceeds
  let started := s.network.started || starts || 1 ≤ s.snpState
  let initialized := s.network.initialized || initializes || 2 ≤ state
  let state := if initializes then 2 else state
  { s with
    snpState := state
    network := { s.network with
      started := started
      initialized := initialized
      modeState := state
      mediaPresent := events.mediaPresent
      mediaPresentSupported := snp.mediaPresentSupported
      internetServicesReady := started && initialized } }

/-- The firmware half. -/
def connectSnp (events : ConnectEvents) (snp : Snp) (s : LinkState) : LinkState :=
  let s := bringUpSnp events snp s
  if s.network.internetServicesReady &&
      (!s.network.mediaPresentSupported || s.network.mediaPresent) then
    configureStack events.dhcp s
  else s

def networkConnectWired (events : ConnectEvents) (s : LinkState) : Bool × LinkState :=
  if s.network.nativeAvailable then
    match s.e1000.pci with
    | none => (false, s)
    | some nic => ((connectNative events nic s).stack.configured, connectNative events nic s)
  else
    match s.network.protocol with
    | none => (false, s)
    | some snp => ((connectSnp events snp s).stack.configured, connectSnp events snp s)

def wifiRadioAvailable : Bool := false

/-- A refresh goes on to connect; the preferences are automatic, Ethernet, Wi-Fi and hotspot. -/
def networkConnects (preference : Nat) (tryConnect : Bool) : Bool :=
  tryConnect && (preference == 0 || preference == 1 ||
    ((preference == 2 || preference == 3) && !wifiRadioAvailable))

/-- The records as a refresh finds the firmware protocol. -/
def probeSnp (events : ConnectEvents) (snp : Snp) (s : LinkState) : LinkState where
  stack :=
    if 6 ≤ snp.hwAddressSize ∧ s.stack.clientMac ≠ snp.currentAddress then
      { netstackReset with clientMac := snp.currentAddress }
    else s.stack
  network := { Network.zero with
    available := true
    protocol := some snp
    mediaPresent := events.mediaPresent
    mediaPresentSupported := snp.mediaPresentSupported
    modeState := s.snpState
    started := 1 ≤ s.snpState
    initialized := 2 ≤ s.snpState
    internetServicesReady := 2 ≤ s.snpState }
  e1000 := s.e1000
  snpState := s.snpState

/-- The records as a refresh finds the native card. -/
def probeNative (nic : Nic) (s : LinkState) : LinkState where
  stack :=
    if s.stack.configured = false ∨ s.stack.clientMac ≠ nic.address then netstackReset else s.stack
  network := { Network.zero with available := true, nativeAvailable := true }
  e1000 := { E1000.zero with pci := some nic, mac := nic.address }
  snpState := s.snpState

/-- What a refresh copies from the card at its end. -/
def adoptNative (s : LinkState) : LinkState :=
  { s with
    stack := { s.stack with clientMac := s.e1000.mac }
    network := { s.network with mediaPresent := s.e1000.linkUp || s.e1000.initialized } }

def networkRefresh (firmware : Firmware) (preference : Nat) (tryConnect : Bool)
    (events : ConnectEvents) (s : LinkState) : LinkState :=
  let connect (s : LinkState) : LinkState :=
    if networkConnects preference tryConnect then (networkConnectWired events s).2 else s
  match firmware.snp, firmware.nic with
  | some snp, _ => connect (probeSnp events snp s)
  | none, some nic => adoptNative (connect (probeNative nic s))
  | none, none => { s with stack := netstackReset, network := .zero, e1000 := .zero }

/-- What one request of a page meets, nested requests being further operations. -/
structure HttpLink where
  host : Bytes
  connect : ConnectEvents
  arp : Nat → UInt32 → Option Bytes
  resolved : Option UInt32
  reconnect : ConnectEvents
  arpAgain : Nat → UInt32 → Option Bytes
  resolvedAgain : Option UInt32
  arpOpen : Nat → UInt32 → Option Bytes

inductive LinkOp where
  | refresh (tryConnect : Bool) (events : ConnectEvents)
  | dhcp (events : ConnectEvents) (retry : DhcpExchange)
  | dns (arp : Nat → UInt32 → Option Bytes) (host : Bytes)
  | http (request : HttpLink)

def LinkState.onStack (s : LinkState) (f : Netstack → Netstack) : LinkState :=
  { s with stack := f s.stack }

/-- The lookups and the session of a request on a configured stack. -/
def httpOnLink (firmware : Firmware) (preference : Nat) (request : HttpLink) (s : LinkState) :
    LinkState :=
  let s := s.onStack (netstackLookup request.arp request.host)
  match request.resolved with
  | some remoteIp => s.onStack (netstackOpen request.arpOpen remoteIp)
  | none =>
      let s := networkRefresh firmware preference true request.reconnect s
      let s := s.onStack (netstackLookup request.arpAgain request.host)
      match request.resolvedAgain with
      | some remoteIp => s.onStack (netstackOpen request.arpOpen remoteIp)
      | none => s

def linkStep (firmware : Firmware) (preference : Nat) (s : LinkState) : LinkOp → LinkState
  | .refresh tryConnect events => networkRefresh firmware preference tryConnect events s
  | .dhcp events retry =>
      match networkConnectWired events s with
      | (true, s) => networkRefresh firmware preference false events s
      | (false, s) =>
          match netstackRenewDhcp retry s with
          | (true, s) => networkRefresh firmware preference false events s
          | (false, s) => s
  | .dns arp host => s.onStack (netstackLookup arp host)
  | .http request =>
      let s := if s.stack.configured then s
        else networkRefresh firmware preference true request.connect s
      if s.stack.configured then httpOnLink firmware preference request s else s

/-- A configured stack has a device that sends and receives frames. -/
def UsableLink (s : LinkState) : Prop :=
  s.stack.configured = true → s.e1000.initialized = true ∨
    s.network.protocol.isSome ∧ 2 ≤ s.snpState

def DhcpExchange.leases : DhcpExchange → Bool
  | .leased _ => true
  | _ => false

section Configure

variable {s : LinkState} {mac : Bytes}

theorem exchangeDhcp_leases (exchange : DhcpExchange) (stack : Netstack) :
    (netstackExchangeDhcp exchange stack).1 = exchange.leases := by
  cases exchange <;> rfl

/-- Renewing over a device takes its address and configures the stack if a lease comes. -/
theorem renewDhcp_device (exchange : DhcpExchange) (hready : s.network.initialized = true)
    (hmac : s.deviceMac = some mac) :
    ∃ stack, netstackRenewDhcp exchange s = (exchange.leases, { s with stack := stack }) ∧
      stack.clientMac = mac ∧ stack.configured = (s.stack.configured || exchange.leases) := by
  obtain ⟨haddress, hconfigured⟩ :=
    exchangeDhcp_configured { s.stack with clientMac := mac } exchange
  rw [exchangeDhcp_leases] at hconfigured
  refine ⟨_, ?_, haddress, hconfigured⟩
  rw [netstackRenewDhcp, if_neg (by simp [hready]), hmac]
  dsimp only
  rw [exchangeDhcp_leases]

/-- Without a ready device nothing is sent. -/
theorem renewDhcp_not_ready (exchange : DhcpExchange) (h : s.network.initialized = false) :
    netstackRenewDhcp exchange s = (false, s) := by
  rw [netstackRenewDhcp, if_pos h]

theorem configureStack_configured (exchange : DhcpExchange) (h : s.stack.configured = true) :
    configureStack exchange s = s := by
  rw [configureStack, if_pos h]

/-- An unconfigured stack gets a lease or, on a VirtualBox address, the fixed profile. -/
theorem configureStack_device (exchange : DhcpExchange) (h : s.stack.configured = false)
    (hready : s.network.initialized = true) (hmac : s.deviceMac = some mac) :
    ∃ stack, configureStack exchange s = { s with stack := stack } ∧ stack.clientMac = mac ∧
      stack.configured = (exchange.leases || decide (mac.take 3 = vboxOui)) := by
  obtain ⟨stack, hrenew, hclient, hconfigured⟩ := renewDhcp_device exchange hready hmac
  rw [h, Bool.false_or] at hconfigured
  cases hleases : exchange.leases with
  | true =>
    refine ⟨stack, ?_, hclient, by rw [hconfigured, hleases, Bool.true_or]⟩
    rw [configureStack, if_neg (by simp [h]), hrenew, hleases]
  | false =>
    obtain ⟨haddress, hprofile⟩ := virtualboxProfile_configured stack
    refine ⟨_, ?_, haddress.trans hclient, ?_⟩
    · rw [configureStack, if_neg (by simp [h]), hrenew, hleases]
    · rw [hprofile, hconfigured, hleases, hclient]

end Configure

section FirmwareInterface

/-- The records over a firmware protocol: the interface they rely on is initialised. -/
structure OnSnp (snp : Snp) (s : LinkState) : Prop where
  noCard : s.e1000.initialized = false
  notNative : s.network.nativeAvailable = false
  pointer : ∀ protocol, s.network.protocol = some protocol → protocol = snp
  ready : s.network.initialized = true → s.network.protocol = some snp ∧ 2 ≤ s.snpState
  live : s.stack.configured = true → s.network.protocol = some snp ∧ 2 ≤ s.snpState

variable {snp : Snp} {s : LinkState}

theorem OnSnp.boot (snpState : Nat) : OnSnp snp (.boot snpState) where
  noCard := rfl
  notNative := rfl
  pointer := fun _ h => nomatch h
  ready := fun h => nomatch h
  live := fun h => nomatch h

theorem OnSnp.usable (h : OnSnp snp s) : UsableLink s := by
  intro hconfigured
  obtain ⟨hprotocol, hstate⟩ := h.live hconfigured
  exact Or.inr ⟨by rw [hprotocol]; rfl, hstate⟩

/-- Only a ready device configures the stack. -/
theorem OnSnp.withStack (h : OnSnp snp s) {stack : Netstack}
    (hstack : stack.configured = true → s.stack.configured = true ∨ s.network.initialized = true) :
    OnSnp snp { s with stack := stack } where
  noCard := h.noCard
  notNative := h.notNative
  pointer := h.pointer
  ready := h.ready
  live := fun hconfigured => (hstack hconfigured).elim h.live h.ready

theorem OnSnp.onStack (h : OnSnp snp s) {f : Netstack → Netstack}
    (hf : s.stack.SameProfile (f s.stack)) : OnSnp snp (s.onStack f) :=
  h.withStack fun hconfigured => Or.inl (hf.1 ▸ hconfigured)

theorem OnSnp.deviceMac (h : OnSnp snp s) (hready : s.network.initialized = true) :
    s.deviceMac = some snp.currentAddress := by
  rw [LinkState.deviceMac, if_neg (by simp [h.noCard]), (h.ready hready).1, Option.map_some]

theorem OnSnp.renew (h : OnSnp snp s) (exchange : DhcpExchange) :
    OnSnp snp (netstackRenewDhcp exchange s).2 := by
  cases hready : s.network.initialized with
  | false =>
    rw [renewDhcp_not_ready exchange hready]
    exact h
  | true =>
    obtain ⟨stack, hrenew, _⟩ := renewDhcp_device exchange hready (h.deviceMac hready)
    rw [hrenew]
    exact h.withStack fun _ => Or.inr hready

theorem OnSnp.configure (h : OnSnp snp s) (exchange : DhcpExchange)
    (hready : s.network.initialized = true) : OnSnp snp (configureStack exchange s) := by
  cases hconfigured : s.stack.configured with
  | true =>
    rw [configureStack_configured exchange hconfigured]
    exact h
  | false =>
    obtain ⟨stack, hconfigure, _⟩ :=
      configureStack_device exchange hconfigured hready (h.deviceMac hready)
    rw [hconfigure]
    exact h.withStack fun _ => Or.inr hready

/-- Bringing the interface up never takes it down, and it is not called initialised before. -/
theorem bringUpSnp_state (events : ConnectEvents) (snp : Snp) (s : LinkState) :
    (2 ≤ s.snpState → 2 ≤ (bringUpSnp events snp s).snpState) ∧
      ((bringUpSnp events snp s).network.initialized = true →
        s.network.initialized = true ∨ 2 ≤ (bringUpSnp events snp s).snpState) := by
  rw [bringUpSnp]
  dsimp only
  constructor
  · intro hstate
    have hzero : (s.snpState == 0) = false := beq_false_of_ne (by omega)
    have hone : (s.snpState == 1) = false := beq_false_of_ne (by omega)
    simpa [hzero, hone] using hstate
  · generalize (s.snpState == 0 && snp.hasStart && events.startSucceeds) = starts
    generalize (if starts then 1 else s.snpState) = state
    generalize (state == 1 && snp.hasInitialize && events.initializeSucceeds) = initializes
    cases initializes with
    | true => exact fun _ => Or.inr le_rfl
    | false => simp

theorem OnSnp.connect (h : OnSnp snp s) (events : ConnectEvents) :
    OnSnp snp (networkConnectWired events s).2 := by
  rw [networkConnectWired, if_neg (by simp [h.notNative])]
  cases hprotocol : s.network.protocol with
  | none => exact h
  | some protocol =>
    obtain rfl := h.pointer protocol hprotocol
    obtain ⟨hkeeps, hinit⟩ := bringUpSnp_state events protocol s
    have hup : OnSnp protocol (bringUpSnp events protocol s) := by
      constructor
      case noCard => exact h.noCard
      case notNative => exact h.notNative
      case pointer => exact h.pointer
      case ready =>
        intro hready
        exact ⟨hprotocol, (hinit hready).elim (fun hbefore => hkeeps (h.ready hbefore).2) id⟩
      case live => exact fun hconfigured => ⟨hprotocol, hkeeps (h.live hconfigured).2⟩
    dsimp only
    rw [connectSnp]
    split
    · rename_i hready
      have hservices := (Bool.and_eq_true_iff.mp hready).1
      exact hup.configure events.dhcp (Bool.and_eq_true_iff.mp hservices).2
    · exact hup

theorem OnSnp.refresh (h : OnSnp snp s) {firmware : Firmware} (hfirmware : firmware.snp = some snp)
    (preference : Nat) (tryConnect : Bool) (events : ConnectEvents) :
    OnSnp snp (networkRefresh firmware preference tryConnect events s) := by
  have hprobe : OnSnp snp (probeSnp events snp s) := by
    refine ⟨h.noCard, rfl, fun _ hsame => (Option.some.inj hsame).symm, fun hready => ⟨rfl, ?_⟩,
      fun hconfigured => ⟨rfl, ?_⟩⟩
    · exact of_decide_eq_true hready
    · rw [probeSnp] at hconfigured
      dsimp only at hconfigured
      split at hconfigured
      · cases hconfigured
      · exact (h.live hconfigured).2
  rw [networkRefresh, hfirmware]
  dsimp only
  split
  · exact hprobe.connect events
  · exact hprobe

theorem OnSnp.step (h : OnSnp snp s) {firmware : Firmware} (hfirmware : firmware.snp = some snp)
    (preference : Nat) (op : LinkOp) : OnSnp snp (linkStep firmware preference s op) := by
  cases op with
  | refresh tryConnect events => exact h.refresh hfirmware preference tryConnect events
  | dns arp host => exact h.onStack (lookup_sameProfile arp s.stack host)
  | dhcp events retry =>
    have hconnect := h.connect events
    rw [linkStep]
    rcases hresult : networkConnectWired events s with ⟨_ | _, s'⟩
    · rw [hresult] at hconnect
      have hrenew := OnSnp.renew hconnect retry
      dsimp only
      rcases hagain : netstackRenewDhcp retry s' with ⟨_ | _, s''⟩
      · rw [hagain] at hrenew
        exact hrenew
      · rw [hagain] at hrenew
        exact hrenew.refresh hfirmware preference false events
    · rw [hresult] at hconnect
      exact hconnect.refresh hfirmware preference false events
  | http request =>
    have hfirst : OnSnp snp (if s.stack.configured then s
        else networkRefresh firmware preference true request.connect s) := by
      split
      · exact h
      · exact h.refresh hfirmware preference true request.connect
    rw [linkStep]
    generalize (if s.stack.configured then s
      else networkRefresh firmware preference true request.connect s) = s' at hfirst
    split
    · rw [httpOnLink]
      have hlookup := hfirst.onStack (lookup_sameProfile request.arp s'.stack request.host)
      cases request.resolved with
      | some remoteIp => exact hlookup.onStack (open_sameProfile request.arpOpen _ remoteIp)
      | none =>
        have hagain := hlookup.refresh hfirmware preference true request.reconnect
        have hsecond := hagain.onStack (lookup_sameProfile request.arpAgain _ request.host)
        cases request.resolvedAgain with
        | some remoteIp => exact hsecond.onStack (open_sameProfile request.arpOpen _ remoteIp)
        | none => exact hsecond
    · exact hfirst

end FirmwareInterface

section NativeCard

/-- The records over the PCI bus alone, on which there may be a card. -/
structure OnBus (nic : Option Nic) (s : LinkState) : Prop where
  noProtocol : s.network.protocol = none
  probed : s.network.nativeAvailable = true → ∃ card, nic = some card ∧ s.e1000.pci = some card
  driven : s.e1000.initialized = true → ∃ card, nic = some card ∧ s.e1000.mac = card.address
  ready : s.network.initialized = true →
    s.network.nativeAvailable = true ∧ s.e1000.initialized = true
  leased : s.stack.configured = true → s.network.nativeAvailable = true ∧
    ∃ card, nic = some card ∧ s.stack.clientMac = card.address

variable {nic : Option Nic} {s : LinkState}

theorem OnBus.boot (snpState : Nat) : OnBus nic (.boot snpState) where
  noProtocol := rfl
  probed := fun h => nomatch h
  driven := fun h => nomatch h
  ready := fun h => nomatch h
  leased := fun h => nomatch h

theorem OnBus.usable_iff (h : OnBus nic s) :
    UsableLink s ↔ (s.stack.configured = true → s.e1000.initialized = true) := by
  rw [UsableLink, h.noProtocol]
  simp

theorem OnBus.withStack (h : OnBus nic s) {stack : Netstack}
    (hstack : stack.configured = true → s.network.nativeAvailable = true ∧
      ∃ card, nic = some card ∧ stack.clientMac = card.address) :
    OnBus nic { s with stack := stack } where
  noProtocol := h.noProtocol
  probed := h.probed
  driven := h.driven
  ready := h.ready
  leased := hstack

theorem OnBus.onStack (h : OnBus nic s) {f : Netstack → Netstack}
    (hf : s.stack.SameProfile (f s.stack)) : OnBus nic (s.onStack f) :=
  h.withStack fun hconfigured => by
    rw [hf.2]
    exact h.leased (hf.1 ▸ hconfigured)

theorem OnBus.usable_onStack (h : OnBus nic s) {f : Netstack → Netstack}
    (hf : s.stack.SameProfile (f s.stack)) : UsableLink (s.onStack f) ↔ UsableLink s := by
  rw [(h.onStack hf).usable_iff, h.usable_iff, ← hf.1]
  rfl

/-- A ready card is the device, with its address. -/
theorem OnBus.deviceMac (h : OnBus nic s) (hready : s.network.initialized = true) :
    ∃ card, nic = some card ∧ s.deviceMac = some card.address := by
  obtain ⟨_, hinitialized⟩ := h.ready hready
  obtain ⟨card, hcard, hmac⟩ := h.driven hinitialized
  exact ⟨card, hcard, by rw [LinkState.deviceMac, if_pos hinitialized, hmac]⟩

/-- Renewing configures the stack exactly when a lease comes over a ready card. -/
theorem OnBus.renew (h : OnBus nic s) (exchange : DhcpExchange) :
    OnBus nic (netstackRenewDhcp exchange s).2 ∧
      (netstackRenewDhcp exchange s).1 = (s.network.initialized && exchange.leases) ∧
      (netstackRenewDhcp exchange s).2.stack.configured =
        (s.stack.configured || (s.network.initialized && exchange.leases)) := by
  cases hready : s.network.initialized with
  | false =>
    rw [renewDhcp_not_ready exchange hready]
    exact ⟨h, rfl, (Bool.or_false _).symm⟩
  | true =>
    obtain ⟨card, hcard, hmac⟩ := h.deviceMac hready
    obtain ⟨stack, hrenew, haddress, hconfigured⟩ := renewDhcp_device exchange hready hmac
    rw [hrenew]
    exact ⟨h.withStack fun _ => ⟨(h.ready hready).1, card, hcard, haddress⟩, rfl, hconfigured⟩

theorem e1000Initialize_driven (linkUp : Bool) (card : Nic) (e1000 : E1000) :
    (e1000Initialize linkUp card e1000).initialized = true ∧
      (e1000Initialize linkUp card e1000).pci = e1000.pci ∧
      ((e1000.initialized = true → e1000.mac = card.address) →
        (e1000Initialize linkUp card e1000).mac = card.address) := by
  rw [e1000Initialize]
  split
  · rename_i hdriven
    exact ⟨hdriven, rfl, fun h => h hdriven⟩
  · exact ⟨rfl, rfl, fun _ => rfl⟩

theorem OnBus.bringUp (h : OnBus nic s) (events : ConnectEvents) {card : Nic}
    (hcard : nic = some card) (hnative : s.network.nativeAvailable = true) :
    OnBus nic (bringUpNative events card s) ∧
      (bringUpNative events card s).deviceMac = some card.address := by
  obtain ⟨hdriven, hpci, haddress⟩ := e1000Initialize_driven events.linkUp card s.e1000
  have hmac : (bringUpNative events card s).e1000.mac = card.address := by
    apply haddress
    intro hinitialized
    obtain ⟨driven, hsame, hmac⟩ := h.driven hinitialized
    rw [hmac, Option.some.inj (hcard.symm.trans hsame)]
  constructor
  · constructor
    case noProtocol => exact h.noProtocol
    case probed =>
      intro _
      obtain ⟨probed, hprobed, hsame⟩ := h.probed hnative
      exact ⟨probed, hprobed, hpci.trans hsame⟩
    case driven => exact fun _ => ⟨card, hcard, hmac⟩
    case ready => exact fun _ => ⟨hnative, hdriven⟩
    case leased => exact h.leased
  · have hinitialized : (bringUpNative events card s).e1000.initialized = true := hdriven
    rw [LinkState.deviceMac, if_pos hinitialized, hmac]

/-- Connecting drives the card and configures the stack by a lease or the fixed profile. -/
theorem OnBus.connect (h : OnBus nic s) (events : ConnectEvents) {card : Nic}
    (hcard : nic = some card) (hnative : s.network.nativeAvailable = true) :
    ∃ s', networkConnectWired events s = (s'.stack.configured, s') ∧ OnBus nic s' ∧
      s'.network.nativeAvailable = true ∧ s'.network.initialized = true ∧
      s'.e1000.initialized = true ∧ s'.stack.configured = (s.stack.configured ||
        (events.dhcp.leases || decide (card.address.take 3 = vboxOui))) := by
  obtain ⟨probed, hprobed, hpci⟩ := h.probed hnative
  obtain rfl := Option.some.inj (hcard.symm.trans hprobed)
  obtain ⟨hup, hmac⟩ := h.bringUp events hcard hnative
  have hdriven := (e1000Initialize_driven events.linkUp card s.e1000).1
  refine ⟨connectNative events card s, ?_, ?_⟩
  · rw [networkConnectWired, if_pos hnative, hpci]
  rw [connectNative]
  have hsame : (bringUpNative events card s).stack.configured = s.stack.configured := rfl
  have hready : (bringUpNative events card s).network.initialized = true := rfl
  rw [← hsame]
  cases hconfigured : (bringUpNative events card s).stack.configured with
  | true =>
    rw [configureStack_configured events.dhcp hconfigured]
    exact ⟨hup, hnative, hready, hdriven, hconfigured⟩
  | false =>
    obtain ⟨stack, hconfigure, hclient, hlease⟩ :=
      configureStack_device events.dhcp hconfigured hready hmac
    rw [hconfigure, Bool.false_or]
    exact ⟨hup.withStack fun _ => ⟨hnative, card, hcard, hclient⟩, hnative, hready, hdriven, hlease⟩

theorem OnBus.unconfigured (h : OnBus none s) : s.stack.configured = false := by
  cases hconfigured : s.stack.configured with
  | false => rfl
  | true =>
    obtain ⟨_, card, hcard, _⟩ := h.leased hconfigured
    cases hcard

/-- A probe resets the stack only for another card. -/
theorem OnBus.probeNative_configured {card : Nic} (h : OnBus (some card) s) :
    (probeNative card s).stack.configured = s.stack.configured := by
  rw [probeNative]
  dsimp only
  split
  · rename_i hreset
    rcases hreset with hunconfigured | hmac
    · exact hunconfigured.symm
    · cases hconfigured : s.stack.configured with
      | false => rfl
      | true =>
        obtain ⟨_, leased, hleased, hclient⟩ := h.leased hconfigured
        rw [← Option.some.inj hleased] at hclient
        exact absurd hclient hmac
  · rfl

theorem onBus_probeNative (card : Nic) (s : LinkState) :
    OnBus (some card) (probeNative card s) := by
  constructor
  case noProtocol => rfl
  case probed => exact fun _ => ⟨card, rfl, rfl⟩
  case driven => exact fun hfalse => nomatch hfalse
  case ready => exact fun hfalse => nomatch hfalse
  case leased =>
    intro hconfigured
    refine ⟨rfl, card, rfl, ?_⟩
    rw [probeNative] at hconfigured ⊢
    dsimp only at hconfigured ⊢
    split at hconfigured
    · cases hconfigured
    · rename_i hkeep
      rw [if_neg hkeep]
      exact not_not.mp (not_or.mp hkeep).2

/-- The stack takes the address that the probe or the driver has found. -/
theorem OnBus.adopt (h : OnBus nic s) {card : Nic} (hcard : nic = some card)
    (hnative : s.network.nativeAvailable = true) (hmac : s.e1000.mac = card.address) :
    OnBus nic (adoptNative s) := by
  constructor
  case noProtocol => exact h.noProtocol
  case probed => exact h.probed
  case driven => exact h.driven
  case ready => exact h.ready
  case leased => exact fun _ => ⟨hnative, card, hcard, hmac⟩

/-- A refresh that finds the card keeps a configured stack and forgets that the card was
initialised, which connecting makes good. -/
theorem OnBus.refresh (h : OnBus nic s) {firmware : Firmware} (hsnp : firmware.snp = none)
    (hnic : firmware.nic = nic) (preference : Nat) (tryConnect : Bool) (events : ConnectEvents) :
    OnBus nic (networkRefresh firmware preference tryConnect events s) ∧
      (UsableLink (networkRefresh firmware preference tryConnect events s) ↔
        ¬ (s.stack.configured = true ∧ networkConnects preference tryConnect = false)) ∧
      (s.stack.configured = false → networkConnects preference tryConnect = false →
        (networkRefresh firmware preference tryConnect events s).stack.configured = false) := by
  rw [networkRefresh, hsnp, hnic]
  cases nic with
  | none =>
    have hbus : OnBus none { s with stack := netstackReset, network := .zero, e1000 := .zero } := by
      constructor
      case noProtocol => rfl
      all_goals exact fun hfalse => nomatch hfalse
    refine ⟨hbus, ?_, fun _ _ => rfl⟩
    rw [hbus.usable_iff, h.unconfigured]
    exact ⟨fun _ hboth => absurd hboth.1 Bool.false_ne_true, fun _ hfalse => nomatch hfalse⟩
  | some card =>
    have hkept := h.probeNative_configured
    have hprobe := onBus_probeNative card s
    dsimp only
    cases hconnects : networkConnects preference tryConnect with
    | false =>
      rw [if_neg (by simp)]
      have hbus := hprobe.adopt rfl rfl rfl
      refine ⟨hbus, ?_, fun hunconfigured _ => hkept.trans hunconfigured⟩
      rw [hbus.usable_iff]
      have hconfigured : (adoptNative (probeNative card s)).stack.configured =
          s.stack.configured := hkept
      have hdriven : (adoptNative (probeNative card s)).e1000.initialized = false := rfl
      rw [hconfigured, hdriven]
      simp
    | true =>
      rw [if_pos rfl]
      obtain ⟨s', hconnect, hbus, hnative, _, hdriven, _⟩ := hprobe.connect events rfl rfl
      rw [hconnect]
      obtain ⟨found, hfound, hmac⟩ := hbus.driven hdriven
      have hadopt := hbus.adopt hfound hnative hmac
      refine ⟨hadopt, ?_, fun _ hfalse => nomatch hfalse⟩
      rw [hadopt.usable_iff]
      exact ⟨fun _ hboth => absurd hboth.2.symm Bool.false_ne_true, fun _ _ => hdriven⟩

end NativeCard

/-- The card has an address that the fixed profile is for. -/
def Firmware.hasVboxCard (firmware : Firmware) : Prop :=
  ∃ card, firmware.nic = some card ∧ card.address.take 3 = vboxOui

/-- Without a firmware protocol an operation must not end in a probe that leaves a configured
stack unconnected: no refresh that does not connect while the stack is configured, also not
within a request whose name is not found, and no `dhcp` command that leaves the stack
configured. -/
def KeepsLink (firmware : Firmware) (preference : Nat) (s : LinkState) : LinkOp → Prop
  | .refresh tryConnect _ => firmware.snp = none →
      ¬ (s.stack.configured = true ∧ networkConnects preference tryConnect = false)
  | .dhcp events retry => firmware.snp = none → s.network.nativeAvailable = true →
      ¬ (s.stack.configured = true ∨ events.dhcp.leases = true ∨ firmware.hasVboxCard ∨
        retry.leases = true)
  | .dns _ _ => True
  | .http request => firmware.snp = none →
      ¬ (s.stack.configured = true ∧ request.resolved = none ∧
        networkConnects preference true = false)

section Steps

variable {firmware : Firmware} {nic : Option Nic} {s : LinkState}

theorem OnBus.dhcp (h : OnBus nic s) (hsnp : firmware.snp = none) (hnic : firmware.nic = nic)
    (husable : UsableLink s) (preference : Nat) (events : ConnectEvents) (retry : DhcpExchange) :
    OnBus nic (linkStep firmware preference s (.dhcp events retry)) ∧
      (UsableLink (linkStep firmware preference s (.dhcp events retry)) ↔
        KeepsLink firmware preference s (.dhcp events retry)) := by
  rw [linkStep, KeepsLink]
  cases hnative : s.network.nativeAvailable with
  | false =>
    have hready : s.network.initialized = false := by
      cases hinitialized : s.network.initialized with
      | false => rfl
      | true => exact absurd (hnative.symm.trans (h.ready hinitialized).1) Bool.false_ne_true
    have hconnect : networkConnectWired events s = (false, s) := by
      rw [networkConnectWired, if_neg (by simp [hnative]), h.noProtocol]
    rw [hconnect]
    dsimp only
    rw [renewDhcp_not_ready retry hready]
    exact ⟨h, fun _ _ hfalse => absurd hfalse Bool.false_ne_true, fun _ => husable⟩
  | true =>
    obtain ⟨card, hcard, _⟩ := h.probed hnative
    obtain ⟨s', hconnect, hbus, _, hready, hdriven, hconfigured⟩ := h.connect events hcard hnative
    have hbroken : ∀ {t : LinkState}, OnBus nic t → t.stack.configured = true →
        OnBus nic (networkRefresh firmware preference false events t) ∧
          ¬ UsableLink (networkRefresh firmware preference false events t) := by
      intro t ht hleased
      obtain ⟨hkept, hiff, _⟩ := ht.refresh hsnp hnic preference false events
      exact ⟨hkept, fun hlink => hiff.mp hlink ⟨hleased, rfl⟩⟩
    have hguard : (s.stack.configured = true ∨ events.dhcp.leases = true ∨
        firmware.hasVboxCard ∨ retry.leases = true) ↔
          s'.stack.configured = true ∨ retry.leases = true := by
      rw [hconfigured, Firmware.hasVboxCard, hnic, hcard]
      simp only [Option.some.injEq, exists_eq_left', Bool.or_eq_true, decide_eq_true_eq, or_assoc]
    rw [hconnect, hguard]
    cases hleased : s'.stack.configured with
    | true =>
      obtain ⟨hkept, hlost⟩ := hbroken hbus hleased
      exact ⟨hkept, fun hlink => absurd hlink hlost, fun hkeeps =>
        absurd (Or.inl rfl) (hkeeps hsnp rfl)⟩
    | false =>
      obtain ⟨hrenewed, hresult, hagain⟩ := hbus.renew retry
      rw [hready, Bool.true_and] at hresult hagain
      rw [hleased, Bool.false_or] at hagain
      rcases hpair : netstackRenewDhcp retry s' with ⟨result, s''⟩
      rw [hpair] at hrenewed hresult hagain
      dsimp only at hrenewed hresult hagain ⊢
      rw [hpair]
      cases hleases : retry.leases with
      | true =>
        rw [hleases] at hresult hagain
        obtain ⟨hkept, hlost⟩ := hbroken hrenewed hagain
        rw [hresult]
        exact ⟨hkept, fun hlink => absurd hlink hlost, fun hkeeps =>
          absurd (Or.inr rfl) (hkeeps hsnp rfl)⟩
      | false =>
        rw [hleases] at hresult hagain
        rw [hresult]
        refine ⟨hrenewed, fun _ _ _ hany => ?_, fun _ hlink => ?_⟩
        · rcases hany with hfalse | hfalse
          · exact absurd hfalse Bool.false_ne_true
          · exact absurd hfalse Bool.false_ne_true
        · rw [hagain] at hlink
          exact absurd hlink Bool.false_ne_true

theorem OnBus.http (h : OnBus nic s) (hsnp : firmware.snp = none) (hnic : firmware.nic = nic)
    (husable : UsableLink s) (preference : Nat) (request : HttpLink) :
    OnBus nic (linkStep firmware preference s (.http request)) ∧
      (UsableLink (linkStep firmware preference s (.http request)) ↔
        KeepsLink firmware preference s (.http request)) := by
  have hfirst : ∃ t, (if s.stack.configured then s
      else networkRefresh firmware preference true request.connect s) = t ∧ OnBus nic t ∧
        UsableLink t ∧ (t.stack.configured = true → s.stack.configured = true ∨
          networkConnects preference true = true) ∧
        (s.stack.configured = true → t.stack.configured = true) := by
    refine ⟨_, rfl, ?_⟩
    cases hconfigured : s.stack.configured with
    | true => exact ⟨h, husable, fun _ => Or.inl rfl, fun _ => hconfigured⟩
    | false =>
      obtain ⟨hkept, hiff, hstays⟩ := h.refresh hsnp hnic preference true request.connect
      refine ⟨hkept, hiff.mpr (by simp [hconfigured]), fun hleased => Or.inr ?_,
        fun hfalse => absurd hfalse Bool.false_ne_true⟩
      cases hconnects : networkConnects preference true with
      | true => rfl
      | false => exact absurd ((hstays hconfigured hconnects).symm.trans hleased) Bool.false_ne_true
  obtain ⟨t, ht, hbus, hlink, horigin, hkeeps⟩ := hfirst
  rw [linkStep, KeepsLink, ht]
  cases hleased : t.stack.configured with
  | false =>
    rw [if_neg (by simp)]
    refine ⟨hbus, fun _ _ hbroken => ?_, fun _ => hlink⟩
    exact absurd (hleased.symm.trans (hkeeps hbroken.1)) Bool.false_ne_true
  | true =>
    rw [if_pos rfl, httpOnLink]
    have hlookup := hbus.onStack (lookup_sameProfile request.arp t.stack request.host)
    have hlookupLink := (hbus.usable_onStack
      (lookup_sameProfile request.arp t.stack request.host)).mpr hlink
    have hlookupLeased : (t.onStack (netstackLookup request.arp request.host)).stack.configured =
        true := (lookup_sameProfile request.arp t.stack request.host).1.trans hleased
    cases hresolved : request.resolved with
    | some remoteIp =>
      have hopen := open_sameProfile request.arpOpen
        (t.onStack (netstackLookup request.arp request.host)).stack remoteIp
      exact ⟨hlookup.onStack hopen, fun _ _ hbroken => (nomatch hbroken.2.1),
        fun _ => (hlookup.usable_onStack hopen).mpr hlookupLink⟩
    | none =>
      obtain ⟨hagain, hiff, _⟩ := hlookup.refresh hsnp hnic preference true request.reconnect
      have hsecond := lookup_sameProfile request.arpAgain
        (networkRefresh firmware preference true request.reconnect
          (t.onStack (netstackLookup request.arp request.host))).stack request.host
      have hguard : UsableLink (networkRefresh firmware preference true request.reconnect
          (t.onStack (netstackLookup request.arp request.host))) ↔
          (firmware.snp = none → ¬ (s.stack.configured = true ∧ (none : Option UInt32) = none ∧
            networkConnects preference true = false)) := by
        rw [hiff, hlookupLeased]
        constructor
        · intro hconnects _ hbroken
          exact hconnects ⟨rfl, hbroken.2.2⟩
        · intro hconnects hbroken
          rcases horigin hleased with hconfigured | hconnected
          · exact hconnects hsnp ⟨hconfigured, rfl, hbroken.2⟩
          · exact absurd (hbroken.2.symm.trans hconnected) Bool.false_ne_true
      cases request.resolvedAgain with
      | none =>
        exact ⟨hagain.onStack hsecond, (hagain.usable_onStack hsecond).trans hguard⟩
      | some remoteIp =>
        have hopen := open_sameProfile request.arpOpen
          ((networkRefresh firmware preference true request.reconnect
            (t.onStack (netstackLookup request.arp request.host))).onStack
              (netstackLookup request.arpAgain request.host)).stack remoteIp
        exact ⟨(hagain.onStack hsecond).onStack hopen,
          ((hagain.onStack hsecond).usable_onStack hopen).trans
            ((hagain.usable_onStack hsecond).trans hguard)⟩

theorem OnBus.step (h : OnBus nic s) (hsnp : firmware.snp = none) (hnic : firmware.nic = nic)
    (husable : UsableLink s) (preference : Nat) (op : LinkOp) :
    OnBus nic (linkStep firmware preference s op) ∧
      (UsableLink (linkStep firmware preference s op) ↔ KeepsLink firmware preference s op) := by
  cases op with
  | refresh tryConnect events =>
    obtain ⟨hkept, hiff, _⟩ := h.refresh hsnp hnic preference tryConnect events
    exact ⟨hkept, hiff.trans ⟨fun hkeeps _ => hkeeps, fun hkeeps => hkeeps hsnp⟩⟩
  | dhcp events retry => exact h.dhcp hsnp hnic husable preference events retry
  | dns arp host =>
    have hlookup := lookup_sameProfile arp s.stack host
    exact ⟨h.onStack hlookup, fun _ => trivial, fun _ => (h.usable_onStack hlookup).mpr husable⟩
  | http request => exact h.http hsnp hnic husable preference request

end Steps

/-- The records agree with the firmware. -/
def Wired (firmware : Firmware) (s : LinkState) : Prop :=
  match firmware.snp with
  | some snp => OnSnp snp s
  | none => OnBus firmware.nic s

theorem Wired.step {firmware : Firmware} {s : LinkState} (h : Wired firmware s)
    (husable : UsableLink s) (preference : Nat) (op : LinkOp) :
    Wired firmware (linkStep firmware preference s op) ∧
      (UsableLink (linkStep firmware preference s op) ↔ KeepsLink firmware preference s op) := by
  rw [Wired] at h ⊢
  cases hsnp : firmware.snp with
  | none =>
    rw [hsnp] at h
    exact OnBus.step h hsnp rfl husable preference op
  | some snp =>
    rw [hsnp] at h
    have hstep := OnSnp.step h hsnp preference op
    refine ⟨hstep, fun _ => ?_, fun _ => hstep.usable⟩
    cases op with
    | refresh tryConnect events => exact fun hnone => nomatch hsnp.symm.trans hnone
    | dhcp events retry => exact fun hnone => nomatch hsnp.symm.trans hnone
    | dns arp host => trivial
    | http request => exact fun hnone => nomatch hsnp.symm.trans hnone

/-- A configured stack has a live device all along a run exactly when no operation of the run
ends in a probe that leaves a configured stack unconnected. -/
theorem link_usable_iff (firmware : Firmware) (preference snpState : Nat) (ops : List LinkOp) :
    (∀ before after, ops = before ++ after →
      UsableLink (run (linkStep firmware preference) (.boot snpState) before)) ↔
      Guarded (linkStep firmware preference) (KeepsLink firmware preference) (.boot snpState)
        ops := by
  have hboot : Wired firmware (.boot snpState) := by
    rw [Wired]
    cases firmware.snp with
    | none => exact OnBus.boot snpState
    | some snp => exact OnSnp.boot snpState
  exact run_prefixes_iff_guarded (J := Wired firmware)
    (fun s op hwired husable => (hwired.step husable preference op).1)
    (fun s op hwired husable => (hwired.step husable preference op).2) hboot
    (fun hfalse => nomatch hfalse) ops

/-- A VirtualBox card and no firmware protocol. -/
def vboxFirmware : Firmware := ⟨none, some ⟨0x100E, [0x08, 0x00, 0x27, 0x12, 0x34, 0x56]⟩⟩

/-- Nothing answers, so the stack gets the fixed profile. -/
def quietEvents : ConnectEvents := ⟨false, false, false, true, .noOffer⟩

/-- A refresh without connecting, as `netrefresh` makes it, leaves the configured stack without
a device. -/
theorem not_link_usable : ¬ ∀ (firmware : Firmware) (preference snpState : Nat)
    (ops : List LinkOp), UsableLink (run (linkStep firmware preference) (.boot snpState) ops) := by
  intro h
  have hlink := h vboxFirmware 0 0 [.refresh true quietEvents, .refresh false quietEvents]
  have hconfigured : (run (linkStep vboxFirmware 0) (.boot 0)
      [.refresh true quietEvents, .refresh false quietEvents]).stack.configured = true := by
    decide +kernel
  rcases hlink hconfigured with hdriven | ⟨hprotocol, _⟩
  · exact absurd hdriven (by decide +kernel)
  · exact absurd hprotocol (by decide +kernel)

end SnsxOS.Arm64
