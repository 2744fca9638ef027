import SnsxOS.Lib.Strings
import SnsxOS.Lib.Decimal

/-!
# URLs of the HTTP client

`netstack_parse_url` with the buffer sizes of its caller, and the URL under which the host
bridge serves an https page. Every bridge URL parses as a plain http URL of the bridge.
-/

namespace SnsxOS.Arm64

open Framework

def netUrlMax : Nat := 768

def netHostMax : Nat := 64

def netPathMax : Nat := 512

/-- What `netstack_parse_url` stores through its pointers. -/
structure UrlParts where
  host : Bytes
  path : Bytes
  port : UInt16
  https : Bool
  deriving DecidableEq

/-- The part of a URL behind its scheme. -/
def urlParts (cursor : Bytes) (port : UInt16) (https : Bool) : Option UrlParts :=
  let host := cursor.takeWhile (· != slash)
  let pathStart := cursor.dropWhile (· != slash)
  if host.length = 0 ∨ netHostMax ≤ host.length then none
  else some {
    host := host.takeWhile (· != 58)
    path := if pathStart = [] then strcopyLimit [slash] netPathMax
      else strcopyLimit pathStart netPathMax
    port := match strchr host 58 with
      | some (_ :: digits) => (atoi digits).toUInt32.toUInt16
      | _ => port
    https := https }

def netstackParseUrl (url : Bytes) : Option UrlParts :=
  if (ascii "http://").isPrefixOf url then urlParts (url.drop 7) 80 false
  else if (ascii "https://").isPrefixOf url then urlParts (url.drop 8) 443 true
  else none

def httpsBridgePrefix : Bytes := ascii "http://10.0.2.2:8787/fetch?url="

def hexDigit (value : UInt8) : UInt8 := if value < 10 then 48 + value else 55 + value

/-- The characters of a URL that stand for themselves in the query of the bridge. -/
def urlUnreserved (ch : UInt8) : Bool :=
  (65 ≤ ch && ch ≤ 90) || (97 ≤ ch && ch ≤ 122) || isdigit ch || ch == 45 || ch == 95 ||
    ch == 46 || ch == 126

/-- Append the encoded characters to a bridge URL. -/
def bridgeUrlAppend (bridgeUrl : Bytes) : Bytes → Option Bytes
  | [] => some bridgeUrl
  | ch :: url =>
      if urlUnreserved ch then
        if netUrlMax ≤ bridgeUrl.length + 1 then none
        else bridgeUrlAppend (bridgeUrl ++ [ch]) url
      else if netUrlMax ≤ bridgeUrl.length + 3 then none
      else bridgeUrlAppend
        (bridgeUrl ++ [37, hexDigit ((ch >>> 4) &&& 0x0F), hexDigit (ch &&& 0x0F)]) url

def netstackBuildHttpsBridgeUrl (url : Bytes) : Option Bytes :=
  bridgeUrlAppend (strcopyLimit httpsBridgePrefix netUrlMax) url

/-- How the query of the bridge holds one character. -/
def bridgeUrlEscape (ch : UInt8) : Bytes :=
  if urlUnreserved ch then [ch]
  else [37, hexDigit ((ch >>> 4) &&& 0x0F), hexDigit (ch &&& 0x0F)]

theorem bridgeUrlAppend_eq {start url bridgeUrl : Bytes}
    (h : bridgeUrlAppend start url = some bridgeUrl) :
    bridgeUrl = start ++ url.flatMap bridgeUrlEscape := by
  induction url generalizing start with
  | nil =>
    cases h
    simp
  | cons ch url ih =>
    rw [bridgeUrlAppend] at h
    rw [List.flatMap_cons, bridgeUrlEscape, ← List.append_assoc]
    split at h
    · rename_i hsafe
      split at h
      · cases h
      · rw [if_pos hsafe]
        exact ih h
    · rename_i hsafe
      split at h
      · cases h
      · rw [if_neg hsafe]
        exact ih h

/-- The host ends at the first slash. -/
theorem urlParts_append {authority tail : Bytes} (hauthority : ∀ c ∈ authority, (c != slash) = true)
    (htail : ∀ c ∈ tail.head?, c = slash) (port : UInt16) (https : Bool) :
    urlParts (authority ++ tail) port https =
      if authority.length = 0 ∨ netHostMax ≤ authority.length then none
      else some {
        host := authority.takeWhile (· != 58)
        path := if tail = [] then strcopyLimit [slash] netPathMax
          else strcopyLimit tail netPathMax
        port := match strchr authority 58 with
          | some (_ :: digits) => (atoi digits).toUInt32.toUInt16
          | _ => port
        https := https } := by
  have hends : tail.takeWhile (· != slash) = [] ∧ tail.dropWhile (· != slash) = tail := by
    cases tail with
    | nil => exact ⟨rfl, rfl⟩
    | cons c tail =>
      obtain rfl : c = slash := htail c rfl
      exact ⟨rfl, rfl⟩
  rw [urlParts, List.takeWhile_append_of_pos hauthority,
    List.dropWhile_append_of_pos hauthority, hends.1, hends.2, List.append_nil]

/-- A plain http URL with a path. -/
theorem netstackParseUrl_http {host : Bytes} (hhost : ∀ c ∈ host, (c != slash) = true)
    (hlength : host.length ≠ 0 ∧ host.length < netHostMax) (path : Bytes) :
    netstackParseUrl (ascii "http://" ++ (host ++ slash :: path)) = some {
      host := host.takeWhile (· != 58)
      path := strcopyLimit (slash :: path) netPathMax
      port := match strchr host 58 with
        | some (_ :: digits) => (atoi digits).toUInt32.toUInt16
        | _ => 80
      https := false } := by
  have hhttp : (ascii "http://").isPrefixOf (ascii "http://" ++ (host ++ slash :: path)) = true :=
    List.isPrefixOf_iff_prefix.mpr (List.prefix_append _ _)
  have hfits : ¬ (host.length = 0 ∨ netHostMax ≤ host.length) := by omega
  rw [netstackParseUrl, if_pos hhttp, List.drop_left' (by decide), urlParts_append hhost (by simp)]
  exact if_neg hfits

/-- The bridge is asked over plain http. -/
theorem netstackParseUrl_bridgeUrl (query : Bytes) :
    netstackParseUrl (httpsBridgePrefix ++ query) = some {
      host := ascii "10.0.2.2"
      path := strcopyLimit (ascii "/fetch?url=" ++ query) netPathMax
      port := 8787
      https := false } := by
  have hcopy : httpsBridgePrefix ++ query =
      ascii "http://" ++ (ascii "10.0.2.2:8787" ++ slash :: (ascii "fetch?url=" ++ query)) := by
    have hsplit : httpsBridgePrefix =
        ascii "http://" ++ (ascii "10.0.2.2:8787" ++ slash :: ascii "fetch?url=") := by decide
    rw [hsplit, List.append_assoc, List.append_assoc, List.cons_append]
  have hhost : ∀ c ∈ ascii "10.0.2.2:8787", (c != slash) = true := by
    decide +kernel
  rw [hcopy, netstackParseUrl_http hhost (by decide)]
  rfl

theorem netstackBuildHttpsBridgeUrl_eq {url bridgeUrl : Bytes}
    (h : netstackBuildHttpsBridgeUrl url = some bridgeUrl) :
    bridgeUrl = httpsBridgePrefix ++ url.flatMap bridgeUrlEscape := by
  have hcopy : strcopyLimit httpsBridgePrefix netUrlMax = httpsBridgePrefix := by decide
  rw [netstackBuildHttpsBridgeUrl, hcopy] at h
  exact bridgeUrlAppend_eq h

theorem netstackParseUrl_bridge {url bridgeUrl : Bytes}
    (h : netstackBuildHttpsBridgeUrl url = some bridgeUrl) :
    ∃ path, netstackParseUrl bridgeUrl = some ⟨ascii "10.0.2.2", path, 8787, false⟩ := by
  rw [netstackBuildHttpsBridgeUrl_eq h]
  exact ⟨_, netstackParseUrl_bridgeUrl _⟩

/-! ## Faithful URLs -/

/-- The parts of a URL, each as it is written. -/
structure WrittenUrl where
  https : Bool
  host : Bytes
  port : Option Bytes
  rest : Option Bytes
  host_ne_nil : host ≠ []
  host_colon : (58 : UInt8) ∉ host
  host_slash : slash ∉ host
  port_slash : ∀ port' ∈ port, slash ∉ port'

namespace WrittenUrl

variable (url : WrittenUrl)

def scheme : Bytes := if url.https then ascii "https://" else ascii "http://"

/-- The host with the port. -/
def authority : Bytes := url.host ++ url.port.elim [] (58 :: ·)

/-- The slash with what follows it. -/
def pathText : Bytes := url.rest.elim [] (slash :: ·)

def text : Bytes := url.scheme ++ (url.authority ++ url.pathText)

def path : Bytes := url.rest.elim [slash] (slash :: ·)

/-- The port that the URL names: the number of the digits behind the colon, or that of the
scheme. -/
def NamesPort (port : UInt16) : Prop :=
  match url.port with
  | none => port = if url.https then 443 else 80
  | some digits => digits ≠ [] ∧ (∀ ch ∈ digits, isdigit ch = true) ∧ 1 ≤ decimalValue digits ∧
      port.toNat = decimalValue digits

/-- Either the URL is rejected, or every part of it is reproduced. -/
def Faithful : Prop :=
  ∀ parts, netstackParseUrl url.text = some parts →
    parts.https = url.https ∧ parts.host = url.host ∧ url.NamesPort parts.port ∧
      parts.path = url.path

/-- The port is absent or a number that a port can be. -/
def PortFits : Prop :=
  ∀ digits ∈ url.port, digits ≠ [] ∧ (∀ ch ∈ digits, isdigit ch = true) ∧
    1 ≤ decimalValue digits ∧ decimalValue digits ≤ 65535

/-- The port as the parser stores it. -/
def storedPort : UInt16 :=
  match url.port with
  | none => if url.https then 443 else 80
  | some digits => (atoi digits).toUInt32.toUInt16

theorem authority_slash : ∀ c ∈ url.authority, (c != slash) = true := by
  apply bne_of_not_mem
  rw [authority]
  intro h
  rcases List.mem_append.mp h with hhost | hport
  · exact url.host_slash hhost
  · cases hp : url.port with
    | none =>
      rw [hp] at hport
      cases hport
    | some digits =>
      rw [hp] at hport
      rcases List.mem_cons.mp hport with hcolon | hdigits
      · exact absurd hcolon (by decide)
      · exact url.port_slash digits hp hdigits

theorem authority_length_pos : 0 < url.authority.length := by
  have hhost := List.length_pos_of_ne_nil url.host_ne_nil
  rw [authority, List.length_append]
  omega

theorem takeWhile_authority : url.authority.takeWhile (· != 58) = url.host := by
  have hends : (url.port.elim [] (58 :: ·)).takeWhile (· != (58 : UInt8)) = [] := by
    cases url.port <;> rfl
  rw [authority, List.takeWhile_append_of_pos (bne_of_not_mem url.host_colon), hends,
    List.append_nil]

theorem strchr_authority : strchr url.authority 58 = url.port.map (58 :: ·) := by
  have hends : (url.port.elim [] (58 :: ·)).dropWhile (· != (58 : UInt8)) =
      url.port.elim [] (58 :: ·) := by
    cases url.port <;> rfl
  rw [strchr, authority, List.dropWhile_append_of_pos (bne_of_not_mem url.host_colon), hends]
  cases url.port <;> rfl

/-- What the parser makes of a URL. -/
theorem netstackParseUrl_text : netstackParseUrl url.text =
    if netHostMax ≤ url.authority.length then none
    else some ⟨url.host, strcopyLimit url.path netPathMax, url.storedPort, url.https⟩ := by
  have htail : ∀ c ∈ url.pathText.head?, c = slash := by
    rw [pathText]
    cases url.rest <;> simp
  have hpath : (if url.pathText = [] then strcopyLimit [slash] netPathMax
      else strcopyLimit url.pathText netPathMax) = strcopyLimit url.path netPathMax := by
    rw [pathText, path]
    cases url.rest <;> rfl
  have hpos := url.authority_length_pos
  have hlong : (url.authority.length = 0 ∨ netHostMax ≤ url.authority.length) ↔
      netHostMax ≤ url.authority.length := ⟨fun h => by omega, .inr⟩
  have hparts := fun port => urlParts_append url.authority_slash htail port url.https
  simp only [hpath, url.takeWhile_authority, url.strchr_authority, hlong] at hparts
  cases hs : url.https with
  | false =>
    have hhttp : (ascii "http://").isPrefixOf url.text = true := by
      rw [List.isPrefixOf_iff_prefix, text, scheme, hs]
      exact List.prefix_append _ _
    have hdrop : url.text.drop 7 = url.authority ++ url.pathText := by
      rw [text, scheme, hs]
      rfl
    rw [netstackParseUrl, if_pos hhttp, hdrop, ← hs, hparts 80, storedPort, hs]
    cases url.port <;> rfl
  | true =>
    have hhttp : ¬ (ascii "http://").isPrefixOf url.text = true := by
      rw [text, scheme, hs]
      exact Bool.false_ne_true
    have hhttps : (ascii "https://").isPrefixOf url.text = true := by
      rw [List.isPrefixOf_iff_prefix, text, scheme, hs]
      exact List.prefix_append _ _
    have hdrop : url.text.drop 8 = url.authority ++ url.pathText := by
      rw [text, scheme, hs]
      rfl
    rw [netstackParseUrl, if_neg hhttp, if_pos hhttps, hdrop, ← hs, hparts 443, storedPort, hs]
    cases url.port <;> rfl

/-- A port that fits is stored as the number it is. -/
theorem namesPort_storedPort_iff : url.NamesPort url.storedPort ↔ url.PortFits := by
  rw [NamesPort, storedPort, PortFits]
  cases url.port with
  | none => simp
  | some digits =>
    have hstored : (∀ ch ∈ digits, isdigit ch = true) →
        (atoi digits).toUInt32.toUInt16.toNat = decimalValue digits % 2 ^ 16 := by
      intro hdigits
      have hvalue : atoiDigits 0 digits = Int32.ofNat (decimalValue digits) :=
        atoiDigits_decimal hdigits 0
      rw [atoi_of_digits hdigits, hvalue, ← UInt32.toInt32_ofNat', UInt32.toUInt32_toInt32,
        UInt32.toUInt16_ofNat', UInt16.toNat_ofNat']
    constructor
    · intro h
      obtain ⟨hne, hdigits, hpos, hvalue⟩ := h
      intro other hother
      obtain rfl := Option.some.inj hother
      have hlt := (atoi digits).toUInt32.toUInt16.toNat_lt
      rw [show (atoi digits).toUInt32.toUInt16.toNat = decimalValue digits from hvalue] at hlt
      exact ⟨hne, hdigits, hpos, by omega⟩
    · intro h
      obtain ⟨hne, hdigits, hpos, hle⟩ := h digits rfl
      refine ⟨hne, hdigits, hpos, ?_⟩
      rw [hstored hdigits]
      exact Nat.mod_eq_of_lt (by omega)

/-- A URL is rejected or reproduced exactly when the host with the port leaves no room in the
buffer for the host, or the port is a number that fits and the path fits its buffer. -/
theorem faithful_iff : url.Faithful ↔
    netHostMax ≤ url.authority.length ∨ (url.PortFits ∧ url.path.length < netPathMax) := by
  rw [Faithful, url.netstackParseUrl_text]
  by_cases hlong : netHostMax ≤ url.authority.length
  · simp [hlong]
  rw [if_neg hlong]
  constructor
  · intro h
    obtain ⟨-, -, hport, hpath⟩ := h _ rfl
    refine .inr ⟨url.namesPort_storedPort_iff.mp hport, ?_⟩
    have hlength := length_strcopyLimit_lt url.path (show 0 < netPathMax by decide)
    rwa [show strcopyLimit url.path netPathMax = url.path from hpath] at hlength
  · intro h parts hparts
    obtain ⟨hport, hpath⟩ := h.resolve_left hlong
    obtain rfl := Option.some.inj hparts
    exact ⟨rfl, rfl, url.namesPort_storedPort_iff.mpr hport, strcopyLimit_of_lt hpath⟩

end WrittenUrl

/-- A port of 17 bits. -/
def largePortUrl : WrittenUrl :=
  ⟨false, ascii "h", some (ascii "65616"), some [], by decide, by decide, by decide, by decide⟩

/-- The URL `http://h:65616/` names port 65616 and is parsed as one of port 80. -/
theorem not_netstackParseUrl_faithful : ¬ ∀ url : WrittenUrl, url.Faithful := by
  intro h
  have hparts : netstackParseUrl largePortUrl.text = some ⟨ascii "h", [slash], 80, false⟩ := by
    decide
  obtain ⟨-, -, hport, -⟩ := h largePortUrl _ hparts
  exact absurd hport.2.2.2 (by decide)

end SnsxOS.Arm64
