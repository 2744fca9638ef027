import SnsxOS.Framework.Writer
import SnsxOS.Arm64.Net.Dhcp

/-!
# Building a DHCP message

`netstack_build_dhcp_payload` fills the message at fixed places and its options at a moving index.
The option loop of `netstack_wait_for_dhcp` reads the options back one by one.
-/

namespace SnsxOS.Arm64

open Framework

/-- The fixed fields. -/
def dhcpStoreHeader (clientMac : Bytes) (xid : UInt32) (payload : Bytes) : Option Bytes := do
  let payload ← store payload 0 [1, 1, 6, 0]
  let payload ← store payload 4 (netWriteBe32 xid)
  let payload ← store payload 10 (netWriteBe16 0x8000)
  let payload ← store payload 28 clientMac
  store payload 236 [99, 130, 83, 99]

/-- The options, those without a value left out. -/
def dhcpPutOptions (hostname : Bytes) (messageType : UInt8) (requestedIp serverId : UInt32)
    (w : Writer) : Option Writer := do
  let w ← w.put [53, 1, messageType]
  let w ← w.putIf (requestedIp ≠ 0) ([50, 4] ++ netWriteBe32 requestedIp)
  let w ← w.putIf (serverId ≠ 0) ([54, 4] ++ netWriteBe32 serverId)
  let w ← w.put [55, 4, 1, 3, 6, 51]
  let w ← w.putIf (0 < hostname.length) ([12, UInt8.ofNat hostname.length] ++ hostname)
  w.put [255]

/-- The array after the call and the returned length. -/
def netstackBuildDhcpPayload (hostname clientMac payload : Bytes) (limit : Nat)
    (messageType : UInt8) (xid requestedIp serverId : UInt32) : Option (Bytes × Nat) :=
  if limit < 256 then some (payload, 0)
  else do
    let payload ← store payload 0 (List.replicate limit 0)
    let payload ← dhcpStoreHeader clientMac xid payload
    let w ← dhcpPutOptions ((cString hostname).take 31) messageType requestedIp serverId
      ⟨payload, 240⟩
    some (w.cells, w.index)

/-! ## Options -/

def encodeOption (option : UInt8 × Bytes) : Bytes :=
  option.1 :: UInt8.ofNat option.2.length :: option.2

def encodeOptions (options : List (UInt8 × Bytes)) : Bytes := options.flatMap encodeOption

theorem encodeOptions_append (options more : List (UInt8 × Bytes)) :
    encodeOptions (options ++ more) = encodeOptions options ++ encodeOptions more :=
  List.flatMap_append

theorem encodeOptions_singleton (option : UInt8 × Bytes) :
    encodeOptions [option] = encodeOption option := List.flatMap_singleton _ _

theorem encodeOptions_ite (p : Prop) [Decidable p] (option : UInt8 × Bytes) :
    encodeOptions (if p then [option] else []) = if p then encodeOption option else [] := by
  split
  · exact encodeOptions_singleton option
  · rfl

/-- An option that the loop tells apart from the padding and the end mark, with a length that
fits its byte. -/
def ProperOption (option : UInt8 × Bytes) : Prop :=
  option.1 ≠ 0 ∧ option.1 ≠ 255 ∧ option.2.length < 256

/-- The loop steps over the data of an option. -/
theorem dhcpOptions_skip (data rest : Bytes) :
    dhcpOptions data.length (data ++ rest) = dhcpOptions 0 rest := by
  induction data with
  | nil => rfl
  | cons a data ih => rw [List.length_cons, List.cons_append, dhcpOptions, ih]

theorem dhcpOptions_encodeOption {option : UInt8 × Bytes} (h : ProperOption option)
    (rest : Bytes) :
    dhcpOptions 0 (encodeOption option ++ rest) = option :: dhcpOptions 0 rest := by
  obtain ⟨hpad, hend, hlen⟩ := h
  have hlength : (UInt8.ofNat option.2.length).toNat = option.2.length := by
    rw [UInt8.toNat_ofNat']
    exact Nat.mod_eq_of_lt hlen
  have hfits : ¬ (option.2 ++ rest).length < option.2.length := by
    rw [List.length_append]
    omega
  rw [encodeOption, List.cons_append, List.cons_append, dhcpOptions, if_neg hpad, if_neg hend,
    hlength, if_neg hfits, List.take_left, dhcpOptions, dhcpOptions_skip]

/-- The loop stops at the end mark, also where it is the last byte. -/
theorem dhcpOptions_end (rest : Bytes) : dhcpOptions 0 (255 :: rest) = [] := by
  cases rest with
  | nil => rfl
  | cons a rest => rfl

/-- The options before an end mark are read as they were written. -/
theorem dhcpOptions_encode {options : List (UInt8 × Bytes)}
    (h : ∀ option ∈ options, ProperOption option) (rest : Bytes) :
    dhcpOptions 0 (encodeOptions options ++ 255 :: rest) = options := by
  induction options with
  | nil => exact dhcpOptions_end rest
  | cons option options ih =>
    rw [encodeOptions, List.flatMap_cons, List.append_assoc,
      dhcpOptions_encodeOption (h option List.mem_cons_self)]
    exact congrArg _ (ih fun other hother => h other (List.mem_cons_of_mem _ hother))

/-! ## The message -/

/-- The options of a message: its type, the two addresses that are set, the codes of the options
asked for, and the name of the host if it has one. -/
def dhcpRequestOptions (host : Bytes) (messageType : UInt8) (requestedIp serverId : UInt32) :
    List (UInt8 × Bytes) :=
  [(53, [messageType])] ++
    (if requestedIp ≠ 0 then [(50, netWriteBe32 requestedIp)] else []) ++
    (if serverId ≠ 0 then [(54, netWriteBe32 serverId)] else []) ++ [(55, [1, 3, 6, 51])] ++
    (if host ≠ [] then [(12, host)] else [])

/-- The fields before the options: a request over Ethernet with the transaction, the broadcast
flag, the address of the client and the mark of DHCP options. -/
def dhcpHeader (clientMac : Bytes) (xid : UInt32) : Bytes :=
  [1, 1, 6, 0] ++ netWriteBe32 xid ++ List.replicate 2 0 ++ netWriteBe16 0x8000 ++
    List.replicate 16 0 ++ clientMac ++ List.replicate 202 0 ++ [99, 130, 83, 99]

def dhcpMessage (host clientMac : Bytes) (messageType : UInt8)
    (xid requestedIp serverId : UInt32) : Bytes :=
  dhcpHeader clientMac xid ++
    encodeOptions (dhcpRequestOptions host messageType requestedIp serverId) ++ [255]

/-- A message carries its transaction. -/
theorem netReadBe32_dhcpMessage (host clientMac : Bytes) (messageType : UInt8)
    (xid requestedIp serverId : UInt32) (rest : Bytes) :
    netReadBe32 (dhcpMessage host clientMac messageType xid requestedIp serverId ++ rest) 4 =
      xid := by
  have hfront : ∃ behind, dhcpMessage host clientMac messageType xid requestedIp serverId ++ rest =
      [1, 1, 6, 0] ++ (netWriteBe32 xid ++ behind) := by
    simp only [dhcpMessage, dhcpHeader, List.append_assoc]
    exact ⟨_, rfl⟩
  obtain ⟨behind, hbehind⟩ := hfront
  rw [hbehind]
  exact netReadBe32_write [1, 1, 6, 0] behind xid rfl

/-- The groups that are put into the array are the encoded options. -/
theorem encodeOptions_request (host : Bytes) (messageType : UInt8)
    (requestedIp serverId : UInt32) :
    encodeOptions (dhcpRequestOptions host messageType requestedIp serverId) =
      [53, 1, messageType] ++
        (if requestedIp ≠ 0 then [50, 4] ++ netWriteBe32 requestedIp else []) ++
        (if serverId ≠ 0 then [54, 4] ++ netWriteBe32 serverId else []) ++ [55, 4, 1, 3, 6, 51] ++
        (if 0 < host.length then [12, UInt8.ofNat host.length] ++ host else []) := by
  have hhost : host ≠ [] ↔ 0 < host.length := List.length_pos_iff.symm
  simp only [dhcpRequestOptions, encodeOptions_append, encodeOptions_ite, encodeOptions_singleton,
    hhost]
  rfl

/-- The options fill the array behind the header. -/
theorem dhcpPutOptions_eq {host header : Bytes} (hhost : host.length ≤ 31) (messageType : UInt8)
    (requestedIp serverId : UInt32) {limit : Nat} (hlimit : header.length + 55 ≤ limit) :
    dhcpPutOptions host messageType requestedIp serverId (Writer.behind limit header) =
      some (Writer.behind limit (header ++
        encodeOptions (dhcpRequestOptions host messageType requestedIp serverId) ++ [255])) := by
  have hrequested := length_ite_le (requestedIp ≠ 0) ([50, 4] ++ netWriteBe32 requestedIp)
  have hserver := length_ite_le (serverId ≠ 0) ([54, 4] ++ netWriteBe32 serverId)
  have hname := length_ite_le (0 < host.length) ([12, UInt8.ofNat host.length] ++ host)
  simp only [List.length_append, List.length_cons, List.length_nil, netWriteBe32_length]
    at hrequested hserver hname
  rw [encodeOptions_request, dhcpPutOptions]
  rw [Writer.put_behind, Option.bind_eq_bind, Option.bind_some, Writer.putIf_behind,
    Option.bind_some, Writer.putIf_behind, Option.bind_some, Writer.put_behind, Option.bind_some,
    Writer.putIf_behind, Option.bind_some, Writer.put_behind]
  · simp only [List.append_assoc]
  all_goals
    simp only [List.length_append, List.length_cons, List.length_nil, netWriteBe32_length]
    omega

section Built

variable {clientMac : Bytes} (hclient : clientMac.length = 6)

include hclient

theorem dhcpHeader_length (xid : UInt32) : (dhcpHeader clientMac xid).length = 240 := by
  simp only [dhcpHeader, List.length_append, netWriteBe32_length, netWriteBe16_length,
    List.length_replicate, List.length_cons, List.length_nil, hclient]

/-- Each field is stored behind those before it. -/
theorem dhcpStoreHeader_eq (xid : UInt32) {limit : Nat} (hlimit : 240 ≤ limit) :
    dhcpStoreHeader clientMac xid (List.replicate limit 0) =
      some (padded limit (dhcpHeader clientMac xid)) := by
  have hxid := netWriteBe32_length xid
  have hflags := netWriteBe16_length 0x8000
  rw [dhcpStoreHeader, ← padded_nil, store_padded (Nat.zero_le _) (by simp; omega),
    Option.bind_eq_bind, Option.bind_some, store_padded (by simp) (by omega), Option.bind_some,
    store_padded (by simp [hxid]) (by omega), Option.bind_some,
    store_padded (by simp [hxid, hflags]) (by omega), Option.bind_some]
  rw [store_padded (by simp [hxid, hflags, hclient]) (show 236 + 4 ≤ limit from hlimit)]
  simp only [List.length_append, List.length_replicate, List.length_cons, List.length_nil, hxid,
    hflags, hclient, Nat.reduceAdd, Nat.reduceSub, List.nil_append, List.replicate_zero,
    List.append_nil, dhcpHeader]

/-- The message is built for every limit that has room for all options. -/
theorem netstackBuildDhcpPayload_eq (hostname payload : Bytes) (messageType : UInt8)
    (xid requestedIp serverId : UInt32) {limit : Nat} (hlimit : 295 ≤ limit)
    (hpayload : payload.length = limit) :
    netstackBuildDhcpPayload hostname clientMac payload limit messageType xid requestedIp serverId =
      some (padded limit (dhcpMessage ((cString hostname).take 31) clientMac messageType xid
          requestedIp serverId),
        (dhcpMessage ((cString hostname).take 31) clientMac messageType xid requestedIp
          serverId).length) := by
  have hheader := dhcpHeader_length hclient xid
  have hclear : store payload 0 (List.replicate limit 0) = some (List.replicate limit 0) := by
    rw [store, if_pos (by simp [hpayload]), List.take_zero, List.length_replicate,
      List.drop_eq_nil_of_le (by omega), List.nil_append, List.append_nil]
  have hbehind : Writer.mk (padded limit (dhcpHeader clientMac xid)) 240 =
      Writer.behind limit (dhcpHeader clientMac xid) := by
    rw [Writer.behind, hheader]
  have hroom : (dhcpHeader clientMac xid).length + 55 ≤ limit := by omega
  have hput := dhcpPutOptions_eq (List.length_take_le 31 (cString hostname)) messageType
    requestedIp serverId hroom
  rw [netstackBuildDhcpPayload, if_neg (by omega), hclear, Option.bind_eq_bind, Option.bind_some,
    dhcpStoreHeader_eq hclient xid (by omega), Option.bind_some, hbehind, hput]
  rfl

end Built

theorem dhcpMessage_length_le {host clientMac : Bytes} (hclient : clientMac.length = 6)
    (hhost : host.length ≤ 31) (messageType : UInt8) (xid requestedIp serverId : UInt32) :
    (dhcpMessage host clientMac messageType xid requestedIp serverId).length ≤ 295 := by
  have hrequested := length_ite_le (requestedIp ≠ 0) ([50, 4] ++ netWriteBe32 requestedIp)
  have hserver := length_ite_le (serverId ≠ 0) ([54, 4] ++ netWriteBe32 serverId)
  have hname := length_ite_le (0 < host.length) ([12, UInt8.ofNat host.length] ++ host)
  rw [dhcpMessage, encodeOptions_request]
  simp only [List.length_append, List.length_cons, List.length_nil, netWriteBe32_length,
    dhcpHeader_length hclient] at *
  omega

theorem dhcpRequestOptions_proper {host : Bytes} (hhost : host.length ≤ 31) (messageType : UInt8)
    (requestedIp serverId : UInt32) :
    ∀ option ∈ dhcpRequestOptions host messageType requestedIp serverId, ProperOption option := by
  have hproper : ∀ (code : UInt8) (data : Bytes), code ≠ 0 → code ≠ 255 → data.length < 256 →
      ProperOption (code, data) := fun _ _ hpad hend hdata => ⟨hpad, hend, hdata⟩
  intro option hoption
  simp only [dhcpRequestOptions, List.mem_append, List.mem_ite_nil_right, List.mem_singleton]
    at hoption
  rcases hoption with (((rfl | ⟨_, rfl⟩) | ⟨_, rfl⟩) | rfl) | ⟨_, rfl⟩
  · exact hproper 53 _ (by decide) (by decide) (show 1 < 256 by decide)
  · exact hproper 50 _ (by decide) (by decide) (show 4 < 256 by decide)
  · exact hproper 54 _ (by decide) (by decide) (show 4 < 256 by decide)
  · exact hproper 55 _ (by decide) (by decide) (show 4 < 256 by decide)
  · exact hproper 12 _ (by decide) (by decide) (by omega)

theorem dhcpRequestOptions_nodup (host : Bytes) (messageType : UInt8)
    (requestedIp serverId : UInt32) :
    ((dhcpRequestOptions host messageType requestedIp serverId).map Prod.fst).Nodup := by
  rw [dhcpRequestOptions]
  split <;> split <;> split <;> exact of_decide_eq_true rfl

/-- The options written are the options read: the message fits the array of the caller, the option
loop yields each option exactly once, and the end mark is the last byte of the message. -/
theorem netstackBuildDhcpPayload_options {host rest clientMac payload : Bytes}
    (hclient : clientMac.length = 6) (hpayload : payload.length = 320) (hhost : host.length ≤ 31)
    (hnul : NulFree host) (messageType : UInt8) (xid requestedIp serverId : UInt32) :
    ∃ built length, netstackBuildDhcpPayload (host ++ 0 :: rest) clientMac payload 320 messageType
        xid requestedIp serverId = some (built, length) ∧
      built.length = 320 ∧ length ≤ 320 ∧ netReadBe32 built 4 = xid ∧
      dhcpOptions 0 ((built.take length).drop 240) =
        dhcpRequestOptions host messageType requestedIp serverId ∧
      dhcpOptions 0 (built.drop 240) =
        dhcpRequestOptions host messageType requestedIp serverId ∧
      ((dhcpRequestOptions host messageType requestedIp serverId).map Prod.fst).Nodup ∧
      (built.take length).drop 240 =
        encodeOptions (dhcpRequestOptions host messageType requestedIp serverId) ++ [255] := by
  have hname : (cString (host ++ 0 :: rest)).take 31 = host := by
    rw [cString_append_nul hnul, List.take_of_length_le hhost]
  have hbuilt := netstackBuildDhcpPayload_eq hclient (host ++ 0 :: rest) payload messageType xid
    requestedIp serverId (show 295 ≤ 320 by decide) hpayload
  have hlength := dhcpMessage_length_le hclient hhost messageType xid requestedIp serverId
  have hproper := dhcpRequestOptions_proper hhost messageType requestedIp serverId
  have hheader := dhcpHeader_length hclient xid
  rw [hname] at hbuilt
  generalize hmessage : dhcpMessage host clientMac messageType xid requestedIp serverId =
    message at *
  have harea : message.drop 240 =
      encodeOptions (dhcpRequestOptions host messageType requestedIp serverId) ++ [255] := by
    rw [← hmessage, dhcpMessage, List.append_assoc, List.drop_left' hheader]
  refine ⟨_, _, hbuilt, padded_length (by omega), by omega, ?_, ?_, ?_,
    dhcpRequestOptions_nodup host messageType requestedIp serverId, ?_⟩
  · rw [padded, ← hmessage]
    exact netReadBe32_dhcpMessage host clientMac messageType xid requestedIp serverId _
  · rw [take_padded, harea]
    exact dhcpOptions_encode hproper []
  · have hlong : 240 ≤ message.length := by
      rw [← hheader, ← hmessage, dhcpMessage, List.append_assoc, List.length_append]
      exact Nat.le_add_right _ _
    rw [padded, List.drop_append_of_le_length hlong, harea, List.append_assoc]
    exact dhcpOptions_encode hproper _
  · rw [take_padded, harea]

/-- The first message of an exchange by the host `SNSX`. -/
theorem netstackBuildDhcpPayload_options_discover :
    ∃ built length, netstackBuildDhcpPayload (ascii "SNSX" ++ 0 :: []) (List.replicate 6 2)
        (List.replicate 320 7) 320 1 9 0 0 = some (built, length) ∧
      built.length = 320 ∧ length ≤ 320 ∧ netReadBe32 built 4 = 9 ∧
      dhcpOptions 0 ((built.take length).drop 240) = dhcpRequestOptions (ascii "SNSX") 1 0 0 ∧
      dhcpOptions 0 (built.drop 240) = dhcpRequestOptions (ascii "SNSX") 1 0 0 ∧
      ((dhcpRequestOptions (ascii "SNSX") 1 0 0).map Prod.fst).Nodup ∧
      (built.take length).drop 240 =
        encodeOptions (dhcpRequestOptions (ascii "SNSX") 1 0 0) ++ [255] :=
  netstackBuildDhcpPayload_options rfl List.length_replicate (by decide) (by decide) 1 9 0 0

end SnsxOS.Arm64
