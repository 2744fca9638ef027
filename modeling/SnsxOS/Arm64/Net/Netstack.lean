import SnsxOS.Arm64.Net.Dhcp
import SnsxOS.Arm64.Net.Dns

/-!
# The record of the network stack

`g_netstack` and the operations on it: the reset, the fixed profile, a lease, the random numbers
and the next hop of a packet. The MAC address that a run of ARP finds is a given function of the
address it asks for; where a call may run ARP twice, there is one function for each run.
-/

namespace SnsxOS.Arm64

open Framework

structure Netstack where
  configured : Bool
  gatewayMacValid : Bool
  staticProfile : Bool
  clientIp : UInt32
  subnetMask : UInt32
  gatewayIp : UInt32
  dnsIp : UInt32
  leaseSeconds : UInt32
  xid : UInt32
  nextPort : UInt16
  nextIpId : UInt16
  clientMac : Bytes
  gatewayMac : Bytes
  deriving DecidableEq

def zeroMac : Bytes := List.replicate 6 0

/-- The record as `memset` leaves it. -/
def Netstack.zero : Netstack :=
  ⟨false, false, false, 0, 0, 0, 0, 0, 0, 0, 0, zeroMac, zeroMac⟩

def netstackReset : Netstack := { Netstack.zero with nextPort := 49152, nextIpId := 1 }

def vboxOui : Bytes := [0x08, 0x00, 0x27]

def netstackApplyVirtualboxNatProfile (stack : Netstack) : Bool × Netstack :=
  if stack.clientMac.take 3 ≠ vboxOui then (false, stack)
  else (true, { stack with
    configured := true
    staticProfile := true
    clientIp := netIpMake 10 0 2 15
    subnetMask := netIpMake 255 255 255 0
    gatewayIp := netIpMake 10 0 2 2
    dnsIp := netIpMake 10 0 2 3
    leaseSeconds := 0
    gatewayMacValid := false })

/-- The seed mixed from the MAC address. -/
def xidSeed (clientMac : Bytes) : UInt32 :=
  (List.range 6).foldl (fun xid i =>
    xid ^^^ (netByte clientMac i).toUInt32 <<< (UInt32.ofNat (i % 4 * 8))) 0x534E5358

def netstackRandomNext (stack : Netstack) : UInt32 × Netstack :=
  let xid := if stack.xid = 0 then xidSeed stack.clientMac else stack.xid
  let xid := xid ^^^ xid <<< 13
  let xid := xid ^^^ xid >>> 17
  let xid := xid ^^^ xid <<< 5
  let xid := if xid = 0 then 0xA5A55A5A else xid
  (xid, { stack with xid := xid })

/-- How far a DHCP exchange gets: the two messages count as built frames once sent for. -/
inductive DhcpExchange where
  | noOffer
  | noAck
  | leased (offer : DhcpOffer)
  deriving DecidableEq

/-- What `netstack_renew_dhcp` does once it knows the MAC address of its device. -/
def netstackExchangeDhcp (exchange : DhcpExchange) (stack : Netstack) : Bool × Netstack :=
  let stack := (netstackRandomNext stack).2
  match exchange with
  | .noOffer => (false, { stack with nextIpId := stack.nextIpId + 1 })
  | .noAck => (false, { stack with nextIpId := stack.nextIpId + 2 })
  | .leased offer => (true, { stack with
      nextIpId := stack.nextIpId + 2
      configured := true
      staticProfile := false
      clientIp := offer.yourIp
      subnetMask := if offer.subnetMask ≠ 0 then offer.subnetMask else netIpMake 255 255 255 0
      gatewayIp := offer.router
      dnsIp := offer.dns
      leaseSeconds := offer.leaseSeconds
      gatewayMacValid := false })

def netSameSubnet (left right mask : UInt32) : Bool := left &&& mask == right &&& mask

/-- The MAC address of a neighbour; `arp` is the reply to a request, if one comes. -/
def netstackArpResolve (arp : UInt32 → Option Bytes) (stack : Netstack) (targetIp : UInt32) :
    Option Bytes :=
  if stack.configured = false ∨ targetIp = 0 then none
  else if targetIp = stack.clientIp then some stack.clientMac
  else arp targetIp

/-- The MAC address of the gateway, which is asked for once. -/
def netstackGatewayMac (arp : UInt32 → Option Bytes) (stack : Netstack) :
    Option Bytes × Netstack :=
  if stack.gatewayMacValid then (some stack.gatewayMac, stack)
  else if stack.gatewayIp = 0 then (none, stack)
  else
    match netstackArpResolve arp stack stack.gatewayIp with
    | none => (none, stack)
    | some mac => (some mac, { stack with gatewayMac := mac, gatewayMacValid := true })

def netstackNextHopMac (arp : Nat → UInt32 → Option Bytes) (stack : Netstack) (destIp : UInt32) :
    Option Bytes × Netstack :=
  if stack.configured = false then (none, stack)
  else if netSameSubnet stack.clientIp destIp stack.subnetMask then
    match netstackArpResolve (arp 0) stack destIp with
    | some mac => (some mac, stack)
    | none =>
        if stack.gatewayIp ≠ 0 ∧ (destIp = stack.dnsIp ∨ destIp = stack.gatewayIp) then
          netstackGatewayMac (arp 1) stack
        else (none, stack)
  else netstackGatewayMac (arp 0) stack

/-- What a name lookup does to the record, whether or not it is answered. -/
def netstackLookup (arp : Nat → UInt32 → Option Bytes) (host : Bytes) (stack : Netstack) : Netstack :=
  match netParseIpv4Text host with
  | some _ => stack
  | none =>
      if stack.configured = false ∨ stack.dnsIp = 0 then stack
      else
        match netstackNextHopMac arp stack stack.dnsIp with
        | (none, stack) => stack
        | (some _, stack) =>
            let stack := (netstackRandomNext stack).2
            let stack := { stack with nextPort := stack.nextPort + 1 }
            match dnsQueryName host with
            | none => stack
            | some _ => { stack with nextIpId := stack.nextIpId + 1 }

/-- What opening a session does to the record once the remote address is known. -/
def netstackOpen (arp : Nat → UInt32 → Option Bytes) (remoteIp : UInt32) (stack : Netstack) : Netstack :=
  match netstackNextHopMac arp stack remoteIp with
  | (none, stack) => stack
  | (some _, stack) =>
      (netstackRandomNext { stack with nextPort := stack.nextPort + 1 }).2

section Keeps

variable (arp : Nat → UInt32 → Option Bytes) (stack : Netstack)

/-- The configuration of the stack: what sending does not change. -/
def Netstack.SameProfile (stack stack' : Netstack) : Prop :=
  stack'.configured = stack.configured ∧ stack'.clientMac = stack.clientMac

theorem gatewayMac_sameProfile (resolve : UInt32 → Option Bytes) :
    stack.SameProfile (netstackGatewayMac resolve stack).2 := by
  rw [netstackGatewayMac]
  split_ifs
  · exact ⟨rfl, rfl⟩
  · exact ⟨rfl, rfl⟩
  · split <;> exact ⟨rfl, rfl⟩

theorem nextHopMac_sameProfile (destIp : UInt32) :
    stack.SameProfile (netstackNextHopMac arp stack destIp).2 := by
  rw [netstackNextHopMac]
  split
  · exact ⟨rfl, rfl⟩
  split
  · cases netstackArpResolve (arp 0) stack destIp with
    | some mac => exact ⟨rfl, rfl⟩
    | none =>
      dsimp only
      split
      · exact gatewayMac_sameProfile stack (arp 1)
      · exact ⟨rfl, rfl⟩
  · exact gatewayMac_sameProfile stack (arp 0)

theorem lookup_sameProfile (host : Bytes) : stack.SameProfile (netstackLookup arp host stack) := by
  rw [netstackLookup]
  cases netParseIpv4Text host with
  | some ip => exact ⟨rfl, rfl⟩
  | none =>
    dsimp only
    split_ifs
    · exact ⟨rfl, rfl⟩
    · have hhop := nextHopMac_sameProfile arp stack stack.dnsIp
      rcases hnext : netstackNextHopMac arp stack stack.dnsIp with ⟨_ | mac, stack'⟩
      · rw [hnext] at hhop
        exact hhop
      · rw [hnext] at hhop
        dsimp only
        cases dnsQueryName host <;> exact hhop

theorem open_sameProfile (remoteIp : UInt32) :
    stack.SameProfile (netstackOpen arp remoteIp stack) := by
  have hhop := nextHopMac_sameProfile arp stack remoteIp
  rw [netstackOpen]
  rcases hnext : netstackNextHopMac arp stack remoteIp with ⟨_ | mac, stack'⟩
  · rw [hnext] at hhop
    exact hhop
  · rw [hnext] at hhop
    exact hhop

/-- An exchange configures the stack or leaves its configuration alone. -/
theorem exchangeDhcp_configured (exchange : DhcpExchange) :
    (netstackExchangeDhcp exchange stack).2.clientMac = stack.clientMac ∧
      (netstackExchangeDhcp exchange stack).2.configured =
        (stack.configured || (netstackExchangeDhcp exchange stack).1) := by
  cases exchange with
  | noOffer => exact ⟨rfl, (Bool.or_false _).symm⟩
  | noAck => exact ⟨rfl, (Bool.or_false _).symm⟩
  | leased offer => exact ⟨rfl, (Bool.or_true _).symm⟩

theorem virtualboxProfile_configured :
    (netstackApplyVirtualboxNatProfile stack).2.clientMac = stack.clientMac ∧
      (netstackApplyVirtualboxNatProfile stack).2.configured =
        (stack.configured || decide (stack.clientMac.take 3 = vboxOui)) := by
  rw [netstackApplyVirtualboxNatProfile]
  split_ifs with h
  · exact ⟨rfl, by simp [h]⟩
  · exact ⟨rfl, by simp [not_not.mp h]⟩

end Keeps

end SnsxOS.Arm64
