import SnsxOS.Framework.Writer
import SnsxOS.Arm64.Links
import SnsxOS.Arm64.Net.Bridges

/-!
# The text of an HTTP request

`netstack_http_request_text` joins the request from its parts in `g_net_http_request`. The readers
of a request, as the servers of the host, end a line at each line feed.
-/

namespace SnsxOS.Arm64

open Framework

def netHttpRequestMax : Nat := 1024

def fixedHeader : Bytes :=
  ascii "\r\nUser-Agent: SNSX/0.3\r\nConnection: close\r\n" ++
    ascii "Accept: text/html, text/plain, application/json\r\n"

/-- The arguments of a call but its URL; `bodyGiven` is whether `body` is not null. -/
structure HttpCall where
  method : Bytes
  contentType : Option Bytes
  bodyGiven : Bool
  bodyLen : Nat

namespace HttpCall

variable (call : HttpCall)

def SendsBody : Prop := call.bodyGiven = true ∧ call.bodyLen > 0

instance : Decidable call.SendsBody := inferInstanceAs (Decidable (_ ∧ _))

def lengthText : Bytes := u32ToDec (UInt32.ofNat call.bodyLen)

/-- The texts that `strcat` appends behind the method. -/
def texts (parts : UrlParts) : List Bytes :=
  [ascii " ", parts.path, ascii " HTTP/1.0\r\nHost: ", parts.host, fixedHeader] ++
  (if call.SendsBody then
    [ascii "Content-Type: ", call.contentType.getD (ascii "text/plain"),
      ascii "\r\nContent-Length: ", call.lengthText, ascii "\r\n"]
  else []) ++
  [ascii "\r\n"]

/-- The request in its buffer. There is no result where a text leaves its array. -/
def requestText (request : Buffer netHttpRequestMax) (parts : UrlParts) :
    Option (Buffer netHttpRequestMax) :=
  if call.SendsBody ∧ call.lengthText.length + 1 > 24 then none
  else
    (request.empty.strcpy (strcopyLimit call.method netHttpRequestMax)).strcatAll
      (call.texts parts)

/-- The lines of a request without their ends: the request line, the header and an empty line. -/
def lines (parts : UrlParts) : List Bytes :=
  [httpRequestLine call.method parts.path, ascii "Host: " ++ parts.host,
    ascii "User-Agent: SNSX/0.3", ascii "Connection: close",
    ascii "Accept: text/html, text/plain, application/json"] ++
  (if call.SendsBody then
    [ascii "Content-Type: " ++ call.contentType.getD (ascii "text/plain"),
      ascii "Content-Length: " ++ call.lengthText]
  else []) ++
  [[]]

/-- The lines as they are read, each with its carriage return. -/
def readLines (parts : UrlParts) : List Bytes := (call.lines parts).map fun line => line ++ [13]

/-- The callers pass a method and a content type of their own. -/
structure Passed : Prop where
  method : call.method = ascii "GET" ∨ call.method = ascii "POST"
  contentType : call.contentType = none ∨
    call.contentType = some (ascii "text/plain; charset=utf-8")
  bodyLen : call.bodyLen < 2 ^ 32

/-- The request fits its buffer, whatever that held, and is read as its own lines. -/
def Unsplit (parts : UrlParts) : Prop :=
  ∀ request, ∃ filled, call.requestText request parts = some filled ∧
    filled.str.length + 1 ≤ netHttpRequestMax ∧
    linesOf newline filled.str = call.readLines parts ∧
    decimalValue call.lengthText = call.bodyLen

end HttpCall

/-- What the parser stores fits the arrays of its caller. -/
structure UrlParts.Stored (parts : UrlParts) : Prop where
  host : NulFree parts.host
  host_length : parts.host.length < netHostMax
  path : NulFree parts.path
  path_length : parts.path.length < netPathMax

theorem urlParts_stored {cursor : Bytes} {port : UInt16} {https : Bool} {parts : UrlParts}
    (hcursor : NulFree cursor) (h : urlParts cursor port https = some parts) : parts.Stored := by
  rw [urlParts] at h
  split at h
  · cases h
  · rename_i hlength
    cases h
    have hhost : NulFree (cursor.takeWhile (· != slash)) :=
      hcursor.mono (List.takeWhile_prefix _).subset
    have hpath : NulFree (cursor.dropWhile (· != slash)) :=
      hcursor.mono (List.dropWhile_suffix _).subset
    have hcut := (List.takeWhile_prefix (l := cursor.takeWhile (· != slash)) (· != 58)).length_le
    constructor
    · exact hhost.mono (List.takeWhile_prefix _).subset
    · dsimp only at hlength ⊢
      omega
    · dsimp only
      split
      · decide
      · exact hpath.take _
    · dsimp only
      split
      · decide
      · exact length_strcopyLimit_lt _ (by decide)

theorem netstackParseUrl_stored {url : Bytes} {parts : UrlParts} (hurl : NulFree url)
    (h : netstackParseUrl url = some parts) : parts.Stored := by
  rw [netstackParseUrl] at h
  split at h
  · exact urlParts_stored (hurl.drop 7) h
  · split at h
    · exact urlParts_stored (hurl.drop 8) h
    · cases h

section Lines

variable {call : HttpCall} {parts : UrlParts}

/-- What is appended makes up the lines. -/
theorem texts_flatten (call : HttpCall) (parts : UrlParts) :
    call.method ++ (call.texts parts).flatten = unlines newline (call.readLines parts) := by
  have hhost : ascii " HTTP/1.0\r\nHost: " = ascii " HTTP/1.0" ++ [13, 10] ++ ascii "Host: " := by
    decide
  have hfixed : fixedHeader =
      [13, 10] ++ ascii "User-Agent: SNSX/0.3" ++ [13, 10] ++ ascii "Connection: close" ++
        [13, 10] ++ ascii "Accept: text/html, text/plain, application/json" ++ [13, 10] := by
    decide
  have hlength : ascii "\r\nContent-Length: " = [13, 10] ++ ascii "Content-Length: " := by decide
  have hend : ascii "\r\n" = [13, 10] := by decide
  rw [HttpCall.texts, HttpCall.readLines, HttpCall.lines, hhost, hfixed, hlength, hend,
    httpRequestLine]
  split <;> simp [unlines, newline]

theorem lengthText_length_le (call : HttpCall) : call.lengthText.length ≤ 10 := by
  apply length_u32ToDec_le (by decide)
  exact (UInt32.toNat_lt _).trans (by decide)

theorem HttpCall.Passed.method_plain (h : call.Passed) :
    NulFree call.method ∧ newline ∉ call.method ∧ call.method.length ≤ 4 := by
  cases h.method with
  | inl hget => rw [hget]; decide
  | inr hpost => rw [hpost]; decide

theorem HttpCall.Passed.contentType_plain (h : call.Passed) :
    NulFree (call.contentType.getD (ascii "text/plain")) ∧
      newline ∉ call.contentType.getD (ascii "text/plain") ∧
      (call.contentType.getD (ascii "text/plain")).length ≤ 25 := by
  cases h.contentType with
  | inl hnone => rw [hnone]; decide
  | inr htext => rw [htext]; decide

theorem texts_nulFree (h : call.Passed) (hparts : parts.Stored) :
    ∀ text ∈ call.texts parts, NulFree text := by
  have hlength : NulFree call.lengthText := (u32ToDec_line _).1
  have hshared : ∀ text ∈ [ascii " ", parts.path, ascii " HTTP/1.0\r\nHost: ", parts.host,
      fixedHeader], NulFree text := by
    simp only [List.forall_mem_cons, List.not_mem_nil, false_implies, implies_true, and_true]
    exact ⟨by decide, hparts.path, by decide, hparts.host, by decide⟩
  have hbody : ∀ text ∈ [ascii "Content-Type: ", call.contentType.getD (ascii "text/plain"),
      ascii "\r\nContent-Length: ", call.lengthText, ascii "\r\n"], NulFree text := by
    simp only [List.forall_mem_cons, List.not_mem_nil, false_implies, implies_true, and_true]
    exact ⟨by decide, h.contentType_plain.1, by decide, hlength, by decide⟩
  intro text htext
  rw [HttpCall.texts] at htext
  cases List.mem_append.mp htext with
  | inl hfront =>
    cases List.mem_append.mp hfront with
    | inl hmem => exact hshared text hmem
    | inr hmem =>
      split at hmem
      · exact hbody text hmem
      · cases hmem
  | inr hend =>
    rw [List.mem_singleton.mp hend]
    decide

/-- The longest request takes 760 bytes with its terminator. -/
theorem texts_length_le (h : call.Passed) (hparts : parts.Stored) :
    call.method.length + (call.texts parts).flatten.length + 1 ≤ 760 := by
  have hmethod := h.method_plain.2.2
  have htype := h.contentType_plain.2.2
  have hlength := lengthText_length_le call
  have hhost := hparts.host_length
  have hpath := hparts.path_length
  have hspace : (ascii " ").length = 1 := by decide
  have hline : (ascii " HTTP/1.0\r\nHost: ").length = 17 := by decide
  have hfixed : fixedHeader.length = 92 := by decide
  have hname : (ascii "Content-Type: ").length = 14 := by decide
  have hcount : (ascii "\r\nContent-Length: ").length = 18 := by decide
  have hend : (ascii "\r\n").length = 2 := by decide
  rw [netHostMax] at hhost
  rw [netPathMax] at hpath
  rw [HttpCall.texts]
  split <;> simp only [List.flatten_append, List.flatten_cons, List.flatten_nil, List.append_nil,
    List.length_append] <;> omega

/-- The request is joined in its buffer. -/
theorem requestText_eq (h : call.Passed) (hparts : parts.Stored)
    (request : Buffer netHttpRequestMax) :
    ∃ filled, call.requestText request parts = some filled ∧
      filled.str = unlines newline (call.readLines parts) ∧
      filled.str.length + 1 ≤ netHttpRequestMax := by
  have hfit := texts_length_le h hparts
  have hcopy : strcopyLimit call.method netHttpRequestMax = call.method := by
    apply strcopyLimit_of_lt
    have hmethod := h.method_plain.2.2
    rw [netHttpRequestMax]
    omega
  have hstart : (request.empty.strcpy call.method).str = call.method := by
    apply Buffer.str_strcpy _ h.method_plain.1
    rw [netHttpRequestMax]
    omega
  have hroom : (request.empty.strcpy call.method).str.length + (call.texts parts).flatten.length +
      1 ≤ netHttpRequestMax := by
    rw [hstart, netHttpRequestMax]
    omega
  obtain ⟨filled, hrun, hstr⟩ := Buffer.strcatAll_str _ (texts_nulFree h hparts) hroom
  have hnumber : ¬ (call.SendsBody ∧ call.lengthText.length + 1 > 24) := by
    intro hbody
    have hlength := lengthText_length_le call
    omega
  refine ⟨filled, ?_, ?_, ?_⟩
  · rw [HttpCall.requestText, if_neg hnumber, hcopy, hrun]
  · rw [hstr, hstart, texts_flatten]
  · rw [hstr, hstart, List.length_append, netHttpRequestMax]
    omega

/-- No part that the callers pass holds a line feed. -/
theorem mem_readLines_plain (h : call.Passed) (hpath : newline ∉ parts.path)
    (hhost : newline ∉ parts.host) : ∀ line ∈ call.readLines parts, newline ∉ line := by
  have hlength : newline ∉ call.lengthText := (u32ToDec_line _).2
  have hmethod := h.method_plain.2.1
  have htype := h.contentType_plain.2.1
  intro line hline
  obtain ⟨content, hcontent, rfl⟩ := List.mem_map.mp hline
  have hplain : newline ∉ content := by
    have hshared : ∀ text ∈ [httpRequestLine call.method parts.path, ascii "Host: " ++ parts.host,
        ascii "User-Agent: SNSX/0.3", ascii "Connection: close",
        ascii "Accept: text/html, text/plain, application/json"], newline ∉ text := by
      simp only [List.forall_mem_cons, List.not_mem_nil, false_implies, implies_true, and_true,
        httpRequestLine, List.mem_append, not_or]
      exact ⟨⟨⟨⟨hmethod, by decide⟩, hpath⟩, by decide⟩, ⟨by decide, hhost⟩, by decide, by decide,
        by decide⟩
    have hbody : ∀ text ∈ [ascii "Content-Type: " ++ call.contentType.getD (ascii "text/plain"),
        ascii "Content-Length: " ++ call.lengthText], newline ∉ text := by
      simp only [List.forall_mem_cons, List.not_mem_nil, false_implies, implies_true, and_true,
        List.mem_append, not_or]
      exact ⟨⟨by decide, htype⟩, by decide, hlength⟩
    rw [HttpCall.lines] at hcontent
    cases List.mem_append.mp hcontent with
    | inl hfront =>
      cases List.mem_append.mp hfront with
      | inl hmem => exact hshared content hmem
      | inr hmem =>
        split at hmem
        · exact hbody content hmem
        · cases hmem
    | inr hend =>
      rw [List.mem_singleton.mp hend]
      exact List.not_mem_nil
  rw [List.mem_append, not_or]
  exact ⟨hplain, by decide⟩

theorem requestLine_mem (call : HttpCall) (parts : UrlParts) :
    httpRequestLine call.method parts.path ++ [13] ∈ call.readLines parts ∧
      ascii "Host: " ++ parts.host ++ [13] ∈ call.readLines parts := by
  simp [HttpCall.readLines, HttpCall.lines]

theorem unsplit_iff (h : call.Passed) (hparts : parts.Stored) :
    call.Unsplit parts ↔ newline ∉ parts.path ∧ newline ∉ parts.host := by
  constructor
  · intro hunsplit
    obtain ⟨filled, _, _, hlines, _⟩ := hunsplit (Buffer.zero netHttpRequestMax)
    have hplain : ∀ line ∈ call.readLines parts, newline ∉ line := by
      intro line hline
      rw [← hlines] at hline
      exact not_mem_of_mem_linesOf hline
    obtain ⟨hfirst, hhost⟩ := requestLine_mem call parts
    constructor
    · intro hmem
      apply hplain _ hfirst
      simp [httpRequestLine, hmem]
    · intro hmem
      apply hplain _ hhost
      simp [hmem]
  · intro hplain request
    obtain ⟨filled, hrun, hstr, hfit⟩ := requestText_eq h hparts request
    refine ⟨filled, hrun, hfit, ?_, ?_⟩
    · rw [hstr, linesOf_unlines (mem_readLines_plain h hplain.1 hplain.2)]
    · rw [HttpCall.lengthText, decimalValue_u32ToDec, UInt32.toNat_ofNat',
        Nat.mod_eq_of_lt h.bodyLen]

/-- The request for a URL is its own lines exactly if no line feed comes with its path or host. -/
theorem httpRequest_unsplit_iff (h : call.Passed) {url : Bytes} (hurl : NulFree url)
    (hparse : netstackParseUrl url = some parts) :
    call.Unsplit parts ↔ newline ∉ parts.path ∧ newline ∉ parts.host :=
  unsplit_iff h (netstackParseUrl_stored hurl hparse)

end Lines

/-- The call that fetches a page. -/
def fetchCall : HttpCall := ⟨ascii "GET", none, false, 0⟩

theorem fetchCall_passed : fetchCall.Passed := ⟨Or.inl rfl, Or.inl rfl, by decide⟩

theorem httpRequest_unsplit_iff_ping :
    fetchCall.Unsplit ⟨ascii "a", ascii "/", 80, false⟩ ↔
      newline ∉ (⟨ascii "a", ascii "/", 80, false⟩ : UrlParts).path ∧
      newline ∉ (⟨ascii "a", ascii "/", 80, false⟩ : UrlParts).host := by
  have hparse : netstackParseUrl (ascii "http://a/") =
      some ⟨ascii "a", ascii "/", 80, false⟩ := by decide
  exact httpRequest_unsplit_iff fetchCall_passed (by decide) hparse

/-- A link with a line break in its path, and the page that it comes from. -/
def brokenLink : Bytes := ascii "http://a/\r\nX-Mark: 1"

def brokenPage : Bytes := ascii "<a href='" ++ brokenLink ++ ascii "'>"

/-- The link reaches the table as it is, and the request for it has a header line of the page. -/
theorem not_httpRequest_unsplit : browserExtractHtmlLinks brokenPage [] = [brokenLink] ∧
    netstackParseUrl brokenLink = some ⟨ascii "a", ascii "/\r\nX-Mark: 1", 80, false⟩ ∧
    ¬ fetchCall.Unsplit ⟨ascii "a", ascii "/\r\nX-Mark: 1", 80, false⟩ := by
  have hparse : netstackParseUrl brokenLink =
      some ⟨ascii "a", ascii "/\r\nX-Mark: 1", 80, false⟩ := by decide
  have hstored := netstackParseUrl_stored (by decide : NulFree brokenLink) hparse
  refine ⟨?_, hparse, ?_⟩
  · have hnext : nextHref brokenPage = some (39 :: (brokenLink ++ ascii "'>")) := by decide
    have hcopied : copiedLink 39 (brokenLink ++ ascii "'>") = brokenLink := by decide
    have hlast : nextHref ((brokenLink ++ ascii "'>").drop brokenLink.length) = none := by decide
    rw [browserExtractHtmlLinks_eq, linkReads_of_quote hnext (by decide), hcopied,
      linkReads_of_none hlast]
    decide
  · intro hunsplit
    exact ((unsplit_iff fetchCall_passed hstored).mp hunsplit).1 (by decide)

end SnsxOS.Arm64
