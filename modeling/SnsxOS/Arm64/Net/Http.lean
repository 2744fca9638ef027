import SnsxOS.Arm64.Net.Url

/-!
# Following redirects

`netstack_http_request_text` with its two nested calls: an https page is asked of the host
bridge, and a redirect is followed. What each TCP exchange leaves in `g_net_http_buffer`, or why
it failed, is a given stream of answers. A call may nest to any depth, so it is computed up to a
depth.

The call returns exactly when an answer ends the chain of redirects. Two pages that refer to
each other keep it going.
-/

namespace SnsxOS.Arm64

open Framework

inductive HttpFailure where
  | unsupportedScheme | bridgeGetOnly | bridgeUrlTooLong | bridgeUnreachable
  | offline | dnsFailed | noNextHop | synFailed | requestFailed | bodyFailed
  | handshakeFailed | reset | noPayload
  deriving DecidableEq

/-- The text a failed request leaves in `output`. -/
def HttpFailure.message : HttpFailure → String
  | .unsupportedScheme =>
      "Browser supports snsx:// pages, http:// URLs, and https:// via the SNSX bridge."
  | .bridgeGetOnly => "HTTPS bridge currently supports GET requests only."
  | .bridgeUrlTooLong => "HTTPS bridge URL is too long for this SNSX browser build."
  | .bridgeUnreachable =>
      "SNSX could not reach the HTTPS bridge. On the host Mac, run `make https-bridge` and try again."
  | .offline => "SNSX is offline. Run CONNECT in Network Center first."
  | .dnsFailed => "DNS lookup failed for that host."
  | .noNextHop => "SNSX could not resolve a MAC address for that destination."
  | .synFailed => "TCP SYN transmit failed."
  | .requestFailed => "HTTP request transmit failed."
  | .bodyFailed => "HTTP body transmit failed."
  | .handshakeFailed => "TCP handshake failed."
  | .reset => "Remote host reset the TCP session."
  | .noPayload => "The remote host did not return any HTTP payload."

def crlf : Bytes := [13, 10]

def netstackParseStatusCode (statusLine : Bytes) : UInt32 :=
  match strchr statusLine 32 with
  | none => 0
  | some cursor => (atoi (cursor.dropWhile (· == 32))).toUInt32

/-- The value of the first line that starts with the name and a colon, with what follows it. -/
def netstackFindHeaderValue (name line : Bytes) : Option Bytes :=
  if line = [] then none
  else if (name ++ [58]).isPrefixOf line then
    some ((line.drop (name.length + 1)).dropWhile (· == 32))
  else
    match _h : findText crlf line with
    | none => none
    | some lineEnd => netstackFindHeaderValue name (lineEnd.drop 2)
termination_by line.length
decreasing_by
  have hsuffix := (findText_suffix _h).length_le
  have hprefix : 2 ≤ lineEnd.length := (findText_startsWith _h).length_le
  rw [List.length_drop]
  omega

/-- The first line of a response, cut to its buffer. -/
def httpStatusLine (response : Bytes) : Bytes :=
  match findText crlf response with
  | none => ascii "HTTP response"
  | some lineEnd => (response.take (response.length - lineEnd.length)).take 95

/-- The address a response redirects to. -/
def httpLocation (response : Bytes) : Option Bytes :=
  let statusCode := netstackParseStatusCode (httpStatusLine response)
  match findText (crlf ++ crlf) response, netstackFindHeaderValue (ascii "Location") response with
  | some _, some location =>
      let text := (location.takeWhile fun ch => ch != 13 && ch != 10).take (netUrlMax - 1)
      if 300 ≤ statusCode ∧ statusCode < 400 ∧ text ≠ [] then some text else none
  | _, _ => none

/-- The nested call that a response to a request leads to. -/
def httpRedirect (method url response : Bytes) : Option Bytes :=
  if method = ascii "GET" then (httpLocation response).filter (· ≠ url) else none

/-- What the text of a fetched page is rendered from. -/
structure HttpPage where
  host : Bytes
  statusLine : Bytes
  body : Bytes
  html : Bool
  deriving DecidableEq

def httpPage (parts : UrlParts) (response : Bytes) : HttpPage where
  host := parts.host
  statusLine := httpStatusLine response
  body := match findText (crlf ++ crlf) response with
    | some headersEnd => headersEnd.drop 4
    | none => response
  html := match findText (crlf ++ crlf) response,
      netstackFindHeaderValue (ascii "Content-Type") response with
    | some _, some contentType => (ascii "text/html").isPrefixOf contentType ||
        (ascii "application/xhtml").isPrefixOf contentType
    | _, _ => false

/-- What a call returns, and how many answers were used. -/
structure HttpReply where
  result : Except HttpFailure HttpPage
  used : Nat

/-- The reply to a request that the bridge was asked for. -/
def HttpReply.overBridge (reply : HttpReply) : HttpReply where
  result := match reply.result with
    | .ok page => .ok page
    | .error _ => .error .bridgeUnreachable
  used := reply.used

/-- The call nested to a depth at most, `none` when the depth does not suffice. -/
def netstackHttpRequestText : Nat → (Nat → Except HttpFailure Bytes) → Bytes → Bytes → Bytes →
    Option HttpReply
  | 0, _, _, _, _ => none
  | depth + 1, answers, method, url, body =>
      match netstackParseUrl url with
      | none => some ⟨.error .unsupportedScheme, 0⟩
      | some parts =>
          if parts.https then
            if method ≠ ascii "GET" ∨ body ≠ [] then some ⟨.error .bridgeGetOnly, 0⟩
            else
              match netstackBuildHttpsBridgeUrl url with
              | none => some ⟨.error .bridgeUrlTooLong, 0⟩
              | some bridgeUrl =>
                  (netstackHttpRequestText depth answers (ascii "GET") bridgeUrl []).map
                    HttpReply.overBridge
          else
            match answers 0 with
            | .error failure => some ⟨.error failure, 1⟩
            | .ok response =>
                match httpRedirect method url response with
                | none => some ⟨.ok (httpPage parts response), 1⟩
                | some location =>
                    (netstackHttpRequestText depth (fun n => answers (n + 1)) (ascii "GET")
                      location []).map fun reply => ⟨reply.result, reply.used + 1⟩

/-- The URL of the exchange that fetches a page. -/
def httpWireUrl (url : Bytes) : Option Bytes :=
  match netstackParseUrl url with
  | none => none
  | some parts => if parts.https then netstackBuildHttpsBridgeUrl url else some url

/-- The request gets as far as an exchange. -/
def HttpFetched (method url body : Bytes) : Prop :=
  (httpWireUrl url).isSome ∧ ∀ parts, netstackParseUrl url = some parts → parts.https = true →
    method = ascii "GET" ∧ body = []

/-- The URL that the answer of an exchange belongs to. -/
def httpAsked (answers : Nat → Except HttpFailure Bytes) (url : Bytes) : Nat → Option Bytes
  | 0 => httpWireUrl url
  | i + 1 =>
      match answers i with
      | .error _ => none
      | .ok response => (httpLocation response).bind httpWireUrl

/-- The answer redirects a GET request to another URL that gets as far as an exchange. -/
def HttpRedirects (answers : Nat → Except HttpFailure Bytes) (method url : Bytes) (i : Nat) :
    Prop :=
  ∃ response location, answers i = .ok response ∧ httpLocation response = some location ∧
    httpAsked answers url i ≠ some location ∧ (httpWireUrl location).isSome ∧
    (i = 0 → method = ascii "GET")

/-- The call returns after at most the given number of exchanges. -/
def HttpReturnsWithin (k : Nat) (answers : Nat → Except HttpFailure Bytes)
    (method url body : Bytes) : Prop :=
  ∃ depth reply, netstackHttpRequestText depth answers method url body = some reply ∧
    reply.used ≤ k

section Chain

variable {answers : Nat → Except HttpFailure Bytes} {method url body : Bytes} {k : Nat}

theorem httpFetched_get {url : Bytes} :
    HttpFetched (ascii "GET") url [] ↔ (httpWireUrl url).isSome :=
  ⟨And.left, fun h => ⟨h, fun _ _ _ => ⟨rfl, rfl⟩⟩⟩

/-- A call that returns has at least depth one. -/
theorem returnsWithin_succ :
    HttpReturnsWithin k answers method url body ↔ ∃ depth reply,
      netstackHttpRequestText (depth + 1) answers method url body = some reply ∧
        reply.used ≤ k := by
  constructor
  · rintro ⟨depth, reply, hreply, hused⟩
    cases depth with
    | zero => cases hreply
    | succ depth => exact ⟨depth, reply, hreply, hused⟩
  · rintro ⟨depth, reply, hreply, hused⟩
    exact ⟨depth + 1, reply, hreply, hused⟩

theorem returnsWithin_of_not_fetched (h : ¬ HttpFetched method url body) :
    HttpReturnsWithin k answers method url body := by
  rw [HttpFetched, httpWireUrl] at h
  cases hparse : netstackParseUrl url with
  | none => exact ⟨1, _, by rw [netstackHttpRequestText, hparse], Nat.zero_le k⟩
  | some parts =>
    by_cases hhttps : parts.https = true
    · by_cases hget : method ≠ ascii "GET" ∨ body ≠ []
      · refine ⟨1, ⟨.error .bridgeGetOnly, 0⟩, ?_, Nat.zero_le k⟩
        simp [netstackHttpRequestText, hparse, hhttps, hget]
      · have hplain : method = ascii "GET" ∧ body = [] := by
          rwa [not_or, not_not, not_not] at hget
        cases hbridge : netstackBuildHttpsBridgeUrl url with
        | none =>
          refine ⟨1, ⟨.error .bridgeUrlTooLong, 0⟩, ?_, Nat.zero_le k⟩
          simp [netstackHttpRequestText, hparse, hhttps, hplain, hbridge]
        | some bridgeUrl => simp [hparse, hhttps, hbridge, hplain] at h
    · simp [hparse, hhttps] at h

/-- An https page takes the exchanges of its bridge URL. -/
theorem returnsWithin_bridge {parts : UrlParts} {bridgeUrl : Bytes}
    (hparse : netstackParseUrl url = some parts) (hhttps : parts.https = true)
    (hbridge : netstackBuildHttpsBridgeUrl url = some bridgeUrl) :
    HttpReturnsWithin k answers (ascii "GET") url [] ↔
      HttpReturnsWithin k answers (ascii "GET") bridgeUrl [] := by
  have hcall : ∀ depth, netstackHttpRequestText (depth + 1) answers (ascii "GET") url [] =
      (netstackHttpRequestText depth answers (ascii "GET") bridgeUrl []).map
        HttpReply.overBridge := by
    intro depth
    simp [netstackHttpRequestText, hparse, hhttps, hbridge]
  rw [returnsWithin_succ]
  constructor
  · rintro ⟨depth, reply, hreply, hused⟩
    rw [hcall] at hreply
    obtain ⟨nested, hnested, rfl⟩ := Option.map_eq_some_iff.mp hreply
    exact ⟨depth, nested, hnested, hused⟩
  · rintro ⟨depth, reply, hreply, hused⟩
    exact ⟨depth, reply.overBridge, by rw [hcall, hreply]; rfl, hused⟩

/-- A plain page takes one exchange, and those of the page it redirects to. -/
theorem returnsWithin_plain {parts : UrlParts} (hparse : netstackParseUrl url = some parts)
    (hplain : parts.https = false) :
    HttpReturnsWithin k answers method url body ↔ 0 < k ∧
      ∀ response location, answers 0 = .ok response → httpRedirect method url response =
        some location →
          HttpReturnsWithin (k - 1) (fun n => answers (n + 1)) (ascii "GET") location [] := by
  rw [returnsWithin_succ]
  cases hanswer : answers 0 with
  | error failure =>
    have hcall : ∀ depth, netstackHttpRequestText (depth + 1) answers method url body =
        some ⟨.error failure, 1⟩ := by
      intro depth
      simp [netstackHttpRequestText, hparse, hplain, hanswer]
    constructor
    · rintro ⟨depth, reply, hreply, hused⟩
      rw [hcall] at hreply
      cases hreply
      exact ⟨hused, fun _ _ h => nomatch h⟩
    · intro h
      exact ⟨0, _, hcall 0, h.1⟩
  | ok response =>
    cases hredirect : httpRedirect method url response with
    | none =>
      have hcall : ∀ depth, netstackHttpRequestText (depth + 1) answers method url body =
          some ⟨.ok (httpPage parts response), 1⟩ := by
        intro depth
        simp [netstackHttpRequestText, hparse, hplain, hanswer, hredirect]
      constructor
      · rintro ⟨depth, reply, hreply, hused⟩
        rw [hcall] at hreply
        cases hreply
        refine ⟨hused, fun _ location h hlocation => ?_⟩
        cases h
        rw [hredirect] at hlocation
        cases hlocation
      · intro h
        exact ⟨0, _, hcall 0, h.1⟩
    | some location =>
      have hcall : ∀ depth, netstackHttpRequestText (depth + 1) answers method url body =
          (netstackHttpRequestText depth (fun n => answers (n + 1)) (ascii "GET")
            location []).map fun reply => ⟨reply.result, reply.used + 1⟩ := by
        intro depth
        simp [netstackHttpRequestText, hparse, hplain, hanswer, hredirect]
      constructor
      · rintro ⟨depth, reply, hreply, hused⟩
        rw [hcall] at hreply
        obtain ⟨nested, hnested, rfl⟩ := Option.map_eq_some_iff.mp hreply
        have hnestedUsed : nested.used + 1 ≤ k := hused
        refine ⟨by omega, fun _ _ h hlocation => ?_⟩
        cases h
        rw [hredirect] at hlocation
        cases hlocation
        exact ⟨depth, nested, hnested, by omega⟩
      · rintro ⟨hpos, hnext⟩
        obtain ⟨depth, reply, hreply, hused⟩ := hnext response location rfl hredirect
        refine ⟨depth, ⟨reply.result, reply.used + 1⟩, by rw [hcall, hreply]; rfl, ?_⟩
        show reply.used + 1 ≤ k
        omega

/-- A fetched page takes the exchanges of a plain URL. -/
theorem returnsWithin_wire (h : HttpFetched method url body) :
    ∃ wireUrl parts, httpWireUrl url = some wireUrl ∧ netstackParseUrl wireUrl = some parts ∧
      parts.https = false ∧ ∀ answers k, HttpReturnsWithin k answers method url body ↔
        HttpReturnsWithin k answers method wireUrl body := by
  obtain ⟨hwire, hbridgeable⟩ := h
  rw [httpWireUrl] at hwire ⊢
  cases hparse : netstackParseUrl url with
  | none => simp [hparse] at hwire
  | some parts =>
    cases hhttps : parts.https with
    | false => exact ⟨url, parts, by simp [hhttps], hparse, hhttps, fun _ _ => Iff.rfl⟩
    | true =>
      obtain ⟨rfl, rfl⟩ := hbridgeable parts hparse hhttps
      cases hbridge : netstackBuildHttpsBridgeUrl url with
      | none => simp [hparse, hhttps, hbridge] at hwire
      | some bridgeUrl =>
        obtain ⟨path, hpath⟩ := netstackParseUrl_bridge hbridge
        exact ⟨bridgeUrl, _, by simp [hhttps], hpath, rfl,
          fun _ _ => returnsWithin_bridge hparse hhttps hbridge⟩

/-- The rest of the chain behind a redirect is the chain of the page redirected to. -/
theorem httpAsked_shift (url : Bytes) {response location : Bytes} (hanswer : answers 0 = .ok response)
    (hlocation : httpLocation response = some location) (i : Nat) :
    httpAsked (fun n => answers (n + 1)) location i = httpAsked answers url (i + 1) := by
  cases i with
  | zero => simp [httpAsked, hanswer, hlocation]
  | succ i => rfl

theorem httpRedirects_shift {response location : Bytes} (hanswer : answers 0 = .ok response)
    (hlocation : httpLocation response = some location) (i : Nat) :
    HttpRedirects (fun n => answers (n + 1)) (ascii "GET") location i ↔
      HttpRedirects answers method url (i + 1) := by
  rw [HttpRedirects, HttpRedirects, httpAsked_shift url hanswer hlocation]
  simp

/-- A call returns within `k` exchanges when one of the first `k` answers ends the chain. -/
theorem returnsWithin_iff : HttpReturnsWithin k answers method url body ↔
    ¬ HttpFetched method url body ∨ ∃ i < k, ¬ HttpRedirects answers method url i := by
  induction k generalizing answers method url body with
  | zero =>
    by_cases hfetched : HttpFetched method url body
    · obtain ⟨wireUrl, parts, _, hparse, hplain, hiff⟩ := returnsWithin_wire hfetched
      rw [hiff, returnsWithin_plain hparse hplain]
      simp [hfetched]
    · simp [hfetched, returnsWithin_of_not_fetched hfetched]
  | succ k ih =>
    by_cases hfetched : HttpFetched method url body
    · obtain ⟨wireUrl, parts, hwire, hparse, hplain, hiff⟩ := returnsWithin_wire hfetched
      rw [hiff, returnsWithin_plain hparse hplain, Nat.add_sub_cancel]
      have hredirect : ∀ response location, httpRedirect method wireUrl response = some location ↔
          method = ascii "GET" ∧ httpLocation response = some location ∧ location ≠ wireUrl := by
        intro response location
        rw [httpRedirect]
        split
        · rename_i hget
          simp [hget, Option.filter_eq_some_iff]
        · rename_i hget
          simp [hget]
      constructor
      · rintro ⟨_, hnext⟩
        refine Or.inr ?_
        by_cases hfirst : HttpRedirects answers method url 0
        · obtain ⟨response, location, hanswer, hlocation, hother, hagain, hget⟩ := hfirst
          have hnested := hnext response location hanswer ((hredirect _ _).mpr
            ⟨hget rfl, hlocation, fun h => hother (by rw [httpAsked, hwire, h])⟩)
          rcases ih.mp hnested with hunfetched | ⟨i, hi, hends⟩
          · exact absurd (httpFetched_get.mpr hagain) hunfetched
          · exact ⟨i + 1, by omega,
              fun h => hends ((httpRedirects_shift hanswer hlocation i).mpr h)⟩
        · exact ⟨0, by omega, hfirst⟩
      · rintro (hunfetched | ⟨i, hi, hends⟩)
        · exact absurd hfetched hunfetched
        refine ⟨by omega, fun response location hanswer hfollow => ih.mpr ?_⟩
        obtain ⟨hget, hlocation, hother⟩ := (hredirect _ _).mp hfollow
        by_cases hagain : (httpWireUrl location).isSome
        · cases i with
          | zero =>
            refine absurd ⟨response, location, hanswer, hlocation, ?_, hagain, fun _ => hget⟩ hends
            rw [httpAsked, hwire]
            exact fun h => hother (Option.some.inj h).symm
          | succ i =>
            exact Or.inr ⟨i, by omega,
              fun h => hends ((httpRedirects_shift hanswer hlocation i).mp h)⟩
        · exact Or.inl fun h => hagain (httpFetched_get.mp h)
    · simp [hfetched, returnsWithin_of_not_fetched hfetched]

end Chain

section Headers

variable {name line lineEnd : Bytes}

theorem netstackFindHeaderValue_here (h : line ≠ [])
    (hname : (name ++ [58]).isPrefixOf line = true) :
    netstackFindHeaderValue name line =
      some ((line.drop (name.length + 1)).dropWhile (· == 32)) := by
  rw [netstackFindHeaderValue, if_neg h, if_pos hname]

theorem netstackFindHeaderValue_next (h : line ≠ [])
    (hname : (name ++ [58]).isPrefixOf line = false) (hline : findText crlf line = some lineEnd) :
    netstackFindHeaderValue name line = netstackFindHeaderValue name (lineEnd.drop 2) := by
  rw [netstackFindHeaderValue, if_neg h, if_neg (by simp [hname])]
  split
  · rename_i hnone
    rw [hnone] at hline
    cases hline
  · rename_i hsome
    rw [hsome] at hline
    cases hline
    rfl

end Headers

section Bounce

/-- A redirect as a server writes it. -/
def redirectResponse (target : Bytes) : Bytes :=
  ascii "HTTP/1.0 302 Found\r\n" ++ (ascii "Location: " ++ target ++ crlf ++ crlf)

def pingUrl : Bytes := ascii "http://a/"

def pongUrl : Bytes := ascii "http://b/"

theorem httpLocation_redirectResponse {target : Bytes} (h : target = pingUrl ∨ target = pongUrl) :
    httpLocation (redirectResponse target) = some target := by
  have hline : findText crlf (redirectResponse target) =
      some (crlf ++ (ascii "Location: " ++ target ++ crlf ++ crlf)) := by
    rcases h with rfl | rfl <;> decide
  have hname : (ascii "Location" ++ [58]).isPrefixOf (redirectResponse target) = false := by
    rcases h with rfl | rfl <;> decide
  have hheader : netstackFindHeaderValue (ascii "Location") (redirectResponse target) =
      some (target ++ crlf ++ crlf) := by
    have hne : redirectResponse target ≠ [] := by
      rcases h with rfl | rfl <;> decide
    rw [netstackFindHeaderValue_next hne hname hline]
    rcases h with rfl | rfl
    · exact netstackFindHeaderValue_here (by decide) (by decide)
    · exact netstackFindHeaderValue_here (by decide) (by decide)
  rw [httpLocation, hheader]
  rcases h with rfl | rfl <;> decide

/-- A server whose two pages refer to each other. -/
def bouncing (first second : Bytes) (i : Nat) : Except HttpFailure Bytes :=
  .ok (redirectResponse (if i % 2 = 0 then first else second))

/-- Every answer of such a server is a redirect that is followed. -/
theorem httpRedirects_bouncing {first second method url : Bytes}
    (hfirst : first = pingUrl ∨ first = pongUrl) (hsecond : second = pingUrl ∨ second = pongUrl)
    (hne : first ≠ second) (hasked : httpWireUrl url ≠ some first)
    (hget : method = ascii "GET") (i : Nat) :
    HttpRedirects (bouncing first second) method url i := by
  have hpage : ∀ n, (if n % 2 = 0 then first else second) = pingUrl ∨
      (if n % 2 = 0 then first else second) = pongUrl := by
    intro n
    split
    · exact hfirst
    · exact hsecond
  have hwire : ∀ target, target = pingUrl ∨ target = pongUrl →
      httpWireUrl target = some target := by
    rintro target (rfl | rfl) <;> decide
  refine ⟨_, _, rfl, httpLocation_redirectResponse (hpage i), ?_,
    by rw [hwire _ (hpage i)]; rfl, fun _ => hget⟩
  cases i with
  | zero => exact hasked
  | succ i =>
    have hprevious : httpAsked (bouncing first second) url (i + 1) =
        some (if i % 2 = 0 then first else second) := by
      rw [httpAsked, bouncing]
      dsimp only
      rw [httpLocation_redirectResponse (hpage i), Option.bind_some, hwire _ (hpage i)]
    rw [hprevious]
    intro h
    have hsame := Option.some.inj h
    rcases Nat.mod_two_eq_zero_or_one i with hi | hi
    · rw [if_pos hi, if_neg (by omega)] at hsame
      exact hne hsame
    · rw [if_neg (by omega), if_pos (by omega)] at hsame
      exact hne hsame.symm

/-- For every page there is a server that is asked without end. -/
theorem exists_bouncing (url : Bytes) : ∃ answers : Nat → Except HttpFailure Bytes,
    ∀ i, HttpRedirects answers (ascii "GET") url i := by
  have hne : pingUrl ≠ pongUrl := by decide
  by_cases hasked : httpWireUrl url = some pingUrl
  · refine ⟨bouncing pongUrl pingUrl, httpRedirects_bouncing (.inr rfl) (.inl rfl) hne.symm ?_ rfl⟩
    rw [hasked]
    exact fun h => hne (Option.some.inj h)
  · exact ⟨bouncing pingUrl pongUrl, httpRedirects_bouncing (.inl rfl) (.inr rfl) hne hasked rfl⟩

end Bounce

/-- Within how many exchanges a request returns: it is refused without one, or one of that many
answers ends the chain. A number that does for every server exists only where no redirect is
followed at all. -/
theorem httpRequest_returns_iff (method url body : Bytes) :
    (∀ answers k, HttpReturnsWithin k answers method url body ↔
      ¬ HttpFetched method url body ∨ ∃ i < k, ¬ HttpRedirects answers method url i) ∧
    ((∃ k, ∀ answers, HttpReturnsWithin k answers method url body) ↔
      ¬ (method = ascii "GET" ∧ HttpFetched method url body)) := by
  refine ⟨fun answers k => returnsWithin_iff, ?_, ?_⟩
  · rintro ⟨k, hreturns⟩ ⟨rfl, hfetched⟩
    obtain ⟨answers, hredirects⟩ := exists_bouncing url
    rcases returnsWithin_iff.mp (hreturns answers) with hunfetched | ⟨i, _, hends⟩
    · exact hunfetched hfetched
    · exact hends (hredirects i)
  · intro h
    refine ⟨1, fun answers => returnsWithin_iff.mpr ?_⟩
    by_cases hfetched : HttpFetched method url body
    · refine Or.inr ⟨0, one_pos, ?_⟩
      rintro ⟨response, location, _, _, _, _, hget⟩
      exact h ⟨hget rfl, hfetched⟩
    · exact Or.inl hfetched

/-- Two pages that refer to each other are asked for in turn without end. -/
theorem not_httpRequest_returns : ¬ ∃ k, ∀ method url body answers,
    HttpReturnsWithin k answers method url body := by
  rintro ⟨k, hreturns⟩
  have hbounce := httpRedirects_bouncing (.inr rfl) (.inl rfl)
    (by decide : pongUrl ≠ pingUrl) (by decide : httpWireUrl pingUrl ≠ some pongUrl) rfl
  rcases returnsWithin_iff.mp (hreturns (ascii "GET") pingUrl [] (bouncing pongUrl pingUrl)) with
    hunfetched | ⟨i, _, hends⟩
  · exact hunfetched (httpFetched_get.mpr (by decide))
  · exact hends (hbounce i)

end SnsxOS.Arm64
