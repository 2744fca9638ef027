import SnsxOS.Arm64.RoundTrip
import SnsxOS.Arm64.Studio
import SnsxOS.Arm64.Net.Http
import SnsxOS.Lib.Urllib

/-!
# The host bridges

A page under https and a program of the studio go through two servers on the host, which read
the target of the request from its first line. The kernel writes that line; the servers are
`snsx_https_bridge.py` and `snsx_dev_bridge.py`.
-/

namespace SnsxOS.Arm64

open Framework

/-- The first line of `g_net_http_request`. -/
def httpRequestLine (method path : Bytes) : Bytes :=
  method ++ ascii " " ++ path ++ ascii " HTTP/1.0"

/-- The first line of what `netstack_http_request_text` sends, once it is connected. The bridge
is asked by a nested call, whose URL is a plain one. -/
def httpSentLine (method url body : Bytes) : Option Bytes :=
  match netstackParseUrl url with
  | none => none
  | some parts =>
      if parts.https then
        if method ≠ ascii "GET" ∨ body ≠ [] then none
        else
          (netstackBuildHttpsBridgeUrl url).bind fun bridgeUrl =>
            (netstackParseUrl bridgeUrl).map fun bridge =>
              httpRequestLine (ascii "GET") bridge.path
      else some (httpRequestLine method parts.path)

section HttpsBridge

/-- What the server does with a request. -/
inductive HttpsBridgeReply where
  | ready
  | unknownRoute
  | missingUrl
  | unsupportedTarget
  | fetch (target : Bytes)
  deriving DecidableEq

/-- `SnsxHttpsBridge.do_GET`. -/
def httpsBridgeDoGet (line : Bytes) : Option HttpsBridgeReply :=
  match parseRequest line with
  | none => none
  | some (command, path) =>
      if command ≠ ascii "GET" then none
      else
        let parsed := urlparse path
        if parsed.path = ascii "/health" then some .ready
        else if parsed.path ≠ ascii "/fetch" then some .unknownRoute
        else
          let target := pyStrip (queryParam parsed.query (ascii "url"))
          if target = [] then some .missingUrl
          else if (ascii "https://").isPrefixOf target || (ascii "http://").isPrefixOf target then
            some (.fetch target)
          else some .unsupportedTarget

/-- The encoded address fits in the path of the request, or the cut leaves of its last character
the percent sign alone, or with the first digit, and the address ends in just that. -/
def SurvivesCut (url : Bytes) : Prop :=
  (url.flatMap bridgeUrlEscape).length ≤ 500 ∨
    ∃ front, (front.flatMap bridgeUrlEscape).length = 499 ∧ url = front ++ [37] ∨
      (front.flatMap bridgeUrlEscape).length = 498 ∧ url = front ++ [37, 50]

variable {url line text : Bytes} {ch : UInt8}

/-- The server decodes an encoded character. -/
theorem percentDecode_bridgeUrlEscape (ch : UInt8) (text : Bytes) :
    percentDecode (bridgeUrlEscape ch ++ text) = ch :: percentDecode text := by
  rw [bridgeUrlEscape]
  split
  · rename_i hsafe
    have hne : ch ≠ 37 := by
      rintro rfl
      exact absurd hsafe (by decide)
    exact percentDecode_plain hne text
  · have hescape : ∀ c : UInt8,
        escapedByte 37 (hexDigit ((c >>> 4) &&& 0x0F)) (hexDigit (c &&& 0x0F)) = some c :=
      forall_byte (by decide +kernel)
    exact percentDecode_escape (hescape ch) text

/-- The characters an encoded address is made of. -/
theorem bridgeUrlEscape_plain {c : UInt8} (hc : c ∈ bridgeUrlEscape ch) :
    isPySpace c = false ∧ c ≠ 35 ∧ c ≠ 38 ∧ c ≠ 43 := by
  have hall : ∀ ch : UInt8, (bridgeUrlEscape ch).all
      (fun c => !isPySpace c && c != 35 && c != 38 && c != 43) = true :=
    forall_byte (by decide +kernel)
  have hone := List.all_eq_true.mp (hall ch) c hc
  simpa [and_assoc] using hone

theorem urlPlain_flatMap {c : UInt8} {n : Nat}
    (hc : c ∈ (url.flatMap bridgeUrlEscape).take n) :
    isPySpace c = false ∧ c ≠ 35 ∧ c ≠ 38 ∧ c ≠ 43 := by
  obtain ⟨ch, -, hch⟩ := List.mem_flatMap.mp (List.mem_of_mem_take hc)
  exact bridgeUrlEscape_plain hch

theorem percentDecode_encoded (url : Bytes) :
    percentDecode (url.flatMap bridgeUrlEscape) = url := by
  have h := percentDecode_flatMap percentDecode_bridgeUrlEscape url []
  rwa [List.append_nil, percentDecode, List.append_nil] at h

/-- A cut address keeps the characters that fit, and what is left of the next one. -/
theorem percentDecode_cut {n : Nat} (h : n < (url.flatMap bridgeUrlEscape).length) :
    ∃ (front rest left : Bytes) (ch : UInt8), url = front ++ ch :: rest ∧
      percentDecode ((url.flatMap bridgeUrlEscape).take n) = front ++ left ∧
      (front.flatMap bridgeUrlEscape).length + left.length = n ∧
      (left = [] ∨ left = [37] ∨ left = [37, hexDigit ((ch >>> 4) &&& 0x0F)]) := by
  obtain ⟨front, ch, rest, hurl, hle, hlt, htake⟩ := take_flatMap_of_lt h
  have hdecode : ∀ left, (bridgeUrlEscape ch).take (n - (front.flatMap bridgeUrlEscape).length) =
      left → percentDecode left = left → percentDecode ((url.flatMap bridgeUrlEscape).take n) =
        front ++ left := by
    intro left hleft hkeep
    rw [htake, hleft, percentDecode_flatMap percentDecode_bridgeUrlEscape, hkeep]
  rw [bridgeUrlEscape] at hlt hdecode
  split at hlt
  · rename_i hsafe
    rw [if_pos hsafe] at hdecode
    rw [List.length_singleton] at hlt
    have hn : n - (front.flatMap bridgeUrlEscape).length = 0 := by omega
    refine ⟨front, rest, [], ch, hurl, hdecode [] (by rw [hn]; rfl) rfl, ?_, .inl rfl⟩
    rw [List.length_nil]
    omega
  · rename_i hsafe
    rw [if_neg hsafe] at hdecode
    simp only [List.length_cons, List.length_nil] at hlt
    have hn : n - (front.flatMap bridgeUrlEscape).length = 0 ∨
        n - (front.flatMap bridgeUrlEscape).length = 1 ∨
        n - (front.flatMap bridgeUrlEscape).length = 2 := by omega
    rcases hn with hn | hn | hn
    · refine ⟨front, rest, [], ch, hurl, hdecode [] (by rw [hn]; rfl) rfl, ?_, .inl rfl⟩
      rw [List.length_nil]
      omega
    · refine ⟨front, rest, [37], ch, hurl, hdecode _ (by rw [hn]; rfl) rfl, ?_, .inr (.inl rfl)⟩
      rw [List.length_singleton]
      omega
    · refine ⟨front, rest, _, ch, hurl, hdecode _ (by rw [hn]; rfl) rfl, ?_, .inr (.inr rfl)⟩
      simp only [List.length_cons, List.length_nil]
      omega

/-- What the server decodes is the address exactly when the address survives the cut. -/
theorem percentDecode_take_eq_iff :
    percentDecode ((url.flatMap bridgeUrlEscape).take 500) = url ↔ SurvivesCut url := by
  by_cases hfits : (url.flatMap bridgeUrlEscape).length ≤ 500
  · rw [List.take_of_length_le hfits]
    exact ⟨fun _ => .inl hfits, fun _ => percentDecode_encoded url⟩
  obtain ⟨front, rest, left, ch, hurl, hdecode, hlength, hleft⟩ :=
    percentDecode_cut (Nat.lt_of_not_le hfits)
  constructor
  · intro h
    rw [hdecode, hurl, List.append_cancel_left_eq] at h
    rcases hleft with rfl | rfl | rfl
    · cases h
    · obtain ⟨rfl, rfl⟩ := List.cons_eq_cons.mp h
      exact .inr ⟨front, .inl ⟨by simpa using hlength, hurl⟩⟩
    · obtain ⟨rfl, rfl⟩ := List.cons_eq_cons.mp h
      exact .inr ⟨front, .inr ⟨by simpa using hlength, hurl⟩⟩
  · rintro (h | ⟨whole, ⟨hwhole, rfl⟩ | ⟨hwhole, rfl⟩⟩)
    · exact absurd h hfits
    · have hcut : ((whole ++ [37]).flatMap bridgeUrlEscape).take 500 =
          whole.flatMap bridgeUrlEscape ++ [37] := by
        rw [List.flatMap_append, List.take_append, List.take_of_length_le (by omega), hwhole]
        rfl
      rw [hcut, percentDecode_flatMap percentDecode_bridgeUrlEscape]
      rfl
    · have hcut : ((whole ++ [37, 50]).flatMap bridgeUrlEscape).take 500 =
          whole.flatMap bridgeUrlEscape ++ [37, 50] := by
        rw [List.flatMap_append, List.take_append, List.take_of_length_le (by omega), hwhole]
        rfl
      rw [hcut, percentDecode_flatMap percentDecode_bridgeUrlEscape]
      rfl

theorem httpRequestLine_eq (method path : Bytes) :
    httpRequestLine method path = requestLine method path := by
  have hversion : ascii " HTTP/1.0" = 32 :: ascii "HTTP/1.0" := by decide
  have hspace : ascii " " = [32] := by decide
  rw [httpRequestLine, requestLine, hversion, hspace]
  simp

/-- The server reads the target of an encoded request. -/
theorem httpsBridgeDoGet_fetch (htext : ∀ c ∈ text, isPySpace c = false ∧ c ≠ 35 ∧ c ≠ 38 ∧ c ≠ 43)
    (hurl : (ascii "https://").isPrefixOf url = true) :
    httpsBridgeDoGet (httpRequestLine (ascii "GET") (ascii "/fetch?url=" ++ text)) =
      some (.fetch url) ↔ pyStrip (percentDecode text) = url := by
  have hget : ∀ c ∈ ascii "GET", isPySpace c = false := by decide +kernel
  have hpath : ∀ c ∈ ascii "/fetch?url=", isPySpace c = false := by decide +kernel
  have htarget : ∀ c ∈ ascii "/fetch?url=" ++ text, isPySpace c = false := by
    intro c hc
    rcases List.mem_append.mp hc with hc | hc
    · exact hpath c hc
    · exact (htext c hc).1
  have hquery : ascii "/fetch?url=" ++ text =
      ascii "/fetch" ++ 63 :: (ascii "url" ++ 61 :: text) := by
    have hsplit : ascii "/fetch?url=" = ascii "/fetch" ++ 63 :: (ascii "url" ++ [61]) := by decide
    rw [hsplit]
    simp
  have hwhole : (ascii "url" ++ 61 :: text).takeWhile (· != 35) = ascii "url" ++ 61 :: text := by
    refine List.takeWhile_eq_self_iff.mpr (bne_of_not_mem ?_)
    intro hmem
    rcases List.mem_append.mp hmem with hmem | hmem
    · exact absurd hmem (by decide +kernel)
    · rcases List.mem_cons.mp hmem with hmem | hmem
      · exact absurd hmem (by decide)
      · exact (htext 35 hmem).2.1 rfl
  have hname : PlainName (ascii "url") := ⟨by decide +kernel, by decide +kernel, by decide +kernel⟩
  have hplain : unquotePlus text = percentDecode text := by
    have hmap : (text.map fun c => if c = 43 then 32 else c) = text.map id :=
      List.map_congr_left fun c hc => if_neg (htext c hc).2.2.2
    rw [unquotePlus, hmap, List.map_id]
  have hne : ascii "/fetch?url=" ++ text ≠ [] := by
    rw [hquery]
    simp
  rw [httpRequestLine_eq, httpsBridgeDoGet, parseRequest_word hget (by decide) htarget hne]
  dsimp only
  rw [hquery, urlparse_query (by decide +kernel) (by decide +kernel), hwhole]
  dsimp only
  rw [queryParam_last hname fun hmem => (htext 38 hmem).2.2.1 rfl, hplain, if_neg (by decide),
    if_neg (by decide), if_neg (by decide)]
  constructor
  · intro h
    split at h
    · cases h
    · split at h
      · cases h
        rfl
      · cases h
  · rintro rfl
    have hfound : pyStrip (percentDecode text) ≠ [] := by
      intro hempty
      rw [hempty] at hurl
      exact absurd hurl (by decide)
    rw [if_neg hfound, if_pos (by rw [hurl, Bool.true_or])]

/-- The line that is sent holds the first 500 characters of the encoded address. -/
theorem httpSentLine_https (hurl : (ascii "https://").isPrefixOf url = true)
    (hsent : httpSentLine (ascii "GET") url [] = some line) :
    line = httpRequestLine (ascii "GET")
      (ascii "/fetch?url=" ++ (url.flatMap bridgeUrlEscape).take 500) := by
  obtain ⟨rest, rfl⟩ := List.isPrefixOf_iff_prefix.mp hurl
  have hscheme : ∀ parts, netstackParseUrl (ascii "https://" ++ rest) = some parts →
      parts.https = true := by
    intro parts hparts
    have hhttp : (ascii "http://").isPrefixOf (ascii "https://" ++ rest) = false := rfl
    rw [netstackParseUrl, hhttp, hurl, if_neg Bool.false_ne_true, if_pos rfl, urlParts] at hparts
    split at hparts
    · cases hparts
    · cases hparts
      rfl
  rw [httpSentLine] at hsent
  cases hparse : netstackParseUrl (ascii "https://" ++ rest) with
  | none =>
    rw [hparse] at hsent
    cases hsent
  | some parts =>
    rw [hparse] at hsent
    dsimp only at hsent
    rw [if_pos (hscheme parts hparse), if_neg (by simp)] at hsent
    cases hbridge : netstackBuildHttpsBridgeUrl (ascii "https://" ++ rest) with
    | none =>
      rw [hbridge] at hsent
      cases hsent
    | some bridgeUrl =>
      rw [hbridge, Option.bind_some, netstackBuildHttpsBridgeUrl_eq hbridge,
        netstackParseUrl_bridgeUrl, Option.map_some] at hsent
      rw [← Option.some.inj hsent]
      have hfront : (ascii "/fetch?url=").length = 11 := by decide
      rw [strcopyLimit, List.take_append, hfront, List.take_of_length_le (by rw [hfront]; decide)]
      rfl

/-- Nothing is stripped from a printable address, whole or cut. -/
theorem pyStrip_encoded (hprint : ∀ c ∈ url, 33 ≤ c ∧ c ≤ 126) (n : Nat) :
    pyStrip (percentDecode ((url.flatMap bridgeUrlEscape).take n)) =
      percentDecode ((url.flatMap bridgeUrlEscape).take n) := by
  have hblank : ∀ c : UInt8, 33 ≤ c ∧ c ≤ 126 → isPyBlank c = false :=
    forall_byte (by decide +kernel)
  refine pyStrip_of_plain fun c hc => ?_
  by_cases hfits : (url.flatMap bridgeUrlEscape).length ≤ n
  · rw [List.take_of_length_le hfits, percentDecode_encoded] at hc
    exact hblank c (hprint c hc)
  · obtain ⟨front, rest, left, ch, hurl, hdecode, -, hleft⟩ :=
      percentDecode_cut (Nat.lt_of_not_le hfits)
    have hdigit : ∀ c : UInt8, isPyBlank (hexDigit ((c >>> 4) &&& 0x0F)) = false :=
      forall_byte (by decide +kernel)
    rw [hdecode] at hc
    rcases List.mem_append.mp hc with hc | hc
    · exact hblank c (hprint c (by rw [hurl]; exact List.mem_append_left _ hc))
    · rcases hleft with rfl | rfl | rfl
      · cases hc
      · rw [List.mem_singleton.mp hc]
        rfl
      · rcases List.mem_cons.mp hc with rfl | hc
        · rfl
        · rw [List.mem_singleton.mp hc]
          exact hdigit ch

/-- The server is asked to fetch the address of a page under https exactly when the encoded
address survives the cut. -/
theorem httpsBridge_fetch_iff (url line : Bytes) (hurl : (ascii "https://").isPrefixOf url = true)
    (hprint : ∀ c ∈ url, 33 ≤ c ∧ c ≤ 126)
    (hsent : httpSentLine (ascii "GET") url [] = some line) :
    httpsBridgeDoGet line = some (.fetch url) ↔ SurvivesCut url := by
  rw [httpSentLine_https hurl hsent, httpsBridgeDoGet_fetch (fun c hc => urlPlain_flatMap hc) hurl,
    pyStrip_encoded hprint, percentDecode_take_eq_iff]

theorem httpsBridge_fetch_short :
    httpsBridgeDoGet (httpRequestLine (ascii "GET") (ascii "/fetch?url=https%3A%2F%2Fa%2F")) =
      some (.fetch (ascii "https://a/")) ↔ SurvivesCut (ascii "https://a/") :=
  httpsBridge_fetch_iff (ascii "https://a/") _ (by decide) (by decide +kernel) (by decide +kernel)

/-- An address of 171 characters, 501 when encoded. -/
def longUrl : Bytes := ascii "https://a/" ++ List.replicate 161 61

/-- The address that the server reads in its place. -/
def cutUrl : Bytes := ascii "https://a/" ++ List.replicate 160 61 ++ ascii "%3"

theorem not_httpsBridge_fetch : (ascii "https://").isPrefixOf longUrl = true ∧
    (∀ c ∈ longUrl, 33 ≤ c ∧ c ≤ 126) ∧
    ∃ line, httpSentLine (ascii "GET") longUrl [] = some line ∧
      httpsBridgeDoGet line = some (.fetch cutUrl) ∧ cutUrl ≠ longUrl := by
  have hreply : (httpSentLine (ascii "GET") longUrl []).bind httpsBridgeDoGet =
      some (.fetch cutUrl) := by
    decide +kernel
  obtain ⟨line, hline, hfetch⟩ := Option.bind_eq_some_iff.mp hreply
  exact ⟨by decide, by decide +kernel, line, hline, hfetch, by decide +kernel⟩

end HttpsBridge

section DevBridge

def devBridgePrefix : Bytes := ascii "http://10.0.2.2:8790"

def netstackBuildDevBridgeUrl (path : Bytes) : Option Bytes :=
  let bridgeUrl := strcopyLimit devBridgePrefix netUrlMax
  if path = [] then some bridgeUrl
  else if netUrlMax ≤ bridgeUrl.length + path.length + 2 then none
  else if path.head? ≠ some slash then some (bridgeUrl ++ [slash] ++ path)
  else some (bridgeUrl ++ path)

/-- The first line of the request of `studio_execute_bridge`, if it makes one. -/
def studioExecuteBridge (fs : ArmFs) (studio : Studio) (action : Bytes) : Option Bytes :=
  if action = [] then none
  else
    match studioCollectSource fs studio.activePath with
    | none => none
    | some source =>
        let route := strcopyLimit action netUrlMax ++ ascii "?lang=" ++ studio.language ++
          ascii "&path=" ++ studio.activePath
        (netstackBuildDevBridgeUrl route).bind fun url =>
          httpSentLine (ascii "POST") url source

/-- What the server reads before it looks at the body. -/
structure DevBridgeJob where
  action : Bytes
  language : Bytes
  pathHint : Bytes
  deriving DecidableEq

/-- `SnsxDevBridge.do_POST`. -/
def devBridgeDoPost (line : Bytes) : Option DevBridgeJob :=
  match parseRequest line with
  | none => none
  | some (command, path) =>
      if command ≠ ascii "POST" then none
      else
        let parsed := urlparse path
        if parsed.path = ascii "/run" ∨ parsed.path = ascii "/build" then
          some {
            action := parsed.path.dropWhile (· == slash)
            language := queryParam parsed.query (ascii "lang")
            pathHint := queryParam parsed.query (ascii "path") }
        else none

/-- Nothing in the text has a meaning in a request line or a query. -/
def PlainInQuery (text : Bytes) : Prop :=
  32 ∉ text ∧ 35 ∉ text ∧ 38 ∉ text ∧ 43 ∉ text ∧ hasEscape text = false

variable {fs : ArmFs} {action language path value line source : Bytes}

/-- A language is short and stands for itself in a query. -/
theorem studioLanguage_plain (h : language ∈ studioLanguages) :
    language.length ≤ 10 ∧ language ≠ [] ∧ (∀ c ∈ language, isPySpace c = false) ∧
      35 ∉ language ∧ 38 ∉ language ∧ unquotePlus language = language := by
  have hall : (studioLanguages.all fun language =>
      language.length ≤ 10 && language != [] && language.all (fun c => !isPySpace c) &&
        !language.contains 35 && !language.contains 38 && unquotePlus language == language) =
      true := by
    decide +kernel
  have hone := List.all_eq_true.mp hall language h
  simpa [and_assoc] using hone

/-- The target of the request. -/
def devBridgeTarget (action language path : Bytes) : Bytes :=
  (slash :: action) ++ 63 :: ((ascii "lang" ++ 61 :: language) ++ 38 ::
    (ascii "path" ++ 61 :: path))

/-- The studio sends its texts as they are. -/
theorem studioExecuteBridge_line (lastAction : Bytes)
    (haction : action = ascii "run" ∨ action = ascii "build") (hlanguage : language.length ≤ 10)
    (hpath : path.length ≤ 95) (hsource : studioCollectSource fs path = some source) :
    studioExecuteBridge fs ⟨path, language, lastAction⟩ action =
      some (httpRequestLine (ascii "POST") (devBridgeTarget action language path)) := by
  have hactions : action ≠ [] ∧ action.length ≤ 5 ∧ action.head? ≠ some slash ∧
      strcopyLimit action netUrlMax = action := by
    rcases haction with rfl | rfl <;> decide
  obtain ⟨hne, hshort, hhead, hcopy⟩ := hactions
  have hroute : slash :: (action ++ ascii "?lang=" ++ language ++ ascii "&path=" ++ path) =
      devBridgeTarget action language path := by
    have hlang : ascii "?lang=" = 63 :: (ascii "lang" ++ [61]) := by decide
    have hpath : ascii "&path=" = 38 :: (ascii "path" ++ [61]) := by decide
    rw [devBridgeTarget, hlang, hpath]
    simp
  have hlength : (devBridgeTarget action language path).length ≤ 123 := by
    have hlang : (ascii "lang").length = 4 := by decide
    have hname : (ascii "path").length = 4 := by decide
    simp only [devBridgeTarget, List.length_append, List.length_cons, hlang, hname]
    omega
  have hprefix : strcopyLimit devBridgePrefix netUrlMax =
      ascii "http://" ++ ascii "10.0.2.2:8790" := by
    decide
  have hhost : ∀ c ∈ ascii "10.0.2.2:8790", (c != slash) = true := by decide +kernel
  have hurl : netstackBuildDevBridgeUrl
      (action ++ ascii "?lang=" ++ language ++ ascii "&path=" ++ path) =
        some (ascii "http://" ++ (ascii "10.0.2.2:8790" ++ slash ::
          (action ++ ascii "?lang=" ++ language ++ ascii "&path=" ++ path))) := by
    have hrouteHead : (action ++ ascii "?lang=" ++ language ++ ascii "&path=" ++ path).head? =
        action.head? := by
      simp only [List.append_assoc]
      exact List.head?_append_of_ne_nil _ hne
    have hfits : ¬ netUrlMax ≤ (ascii "http://" ++ ascii "10.0.2.2:8790").length +
        (action ++ ascii "?lang=" ++ language ++ ascii "&path=" ++ path).length + 2 := by
      have hurlLength : (ascii "http://" ++ ascii "10.0.2.2:8790").length = 20 := by decide
      rw [← hroute, List.length_cons] at hlength
      rw [hurlLength, netUrlMax]
      omega
    rw [netstackBuildDevBridgeUrl, hprefix, if_neg (by simp [hne]), if_neg hfits,
      if_pos (by rw [hrouteHead]; exact hhead)]
    simp
  rw [studioExecuteBridge, if_neg hne, hsource]
  dsimp only
  rw [hcopy, hurl, Option.bind_some, httpSentLine, netstackParseUrl_http hhost (by decide), hroute,
    strcopyLimit_of_lt (by rw [netPathMax]; omega)]
  rfl

/-- The server reads the query up to a fragment. -/
theorem devBridgeDoPost_target (haction : action = ascii "run" ∨ action = ascii "build")
    (hlanguage : language ∈ studioLanguages)
    (hparse : parseRequest line = some (ascii "POST", devBridgeTarget action language value)) :
    devBridgeDoPost line = some {
      action := action
      language := language
      pathHint :=
        queryParam (ascii "path" ++ 61 :: value.takeWhile (· != 35)) (ascii "path") } := by
  obtain ⟨-, hne, -, hfragment, hamp, hplain⟩ := studioLanguage_plain hlanguage
  have hroute : 35 ∉ slash :: action ∧ 63 ∉ slash :: action ∧
      (slash :: action = ascii "/run" ∨ slash :: action = ascii "/build") ∧
      (slash :: action).dropWhile (· == slash) = action := by
    rcases haction with rfl | rfl <;> decide +kernel
  have hlang : PlainName (ascii "lang") := ⟨by decide +kernel, by decide +kernel, by decide +kernel⟩
  have hfield : queryField (ascii "lang" ++ 61 :: language) = some (ascii "lang", language) := by
    rw [queryField_pair hlang.1 hne, hlang.2.2, hplain]
  have hquery : ((ascii "lang" ++ 61 :: language) ++ 38 :: (ascii "path" ++ 61 :: value)).takeWhile
      (· != 35) = (ascii "lang" ++ 61 :: language) ++ 38 ::
        (ascii "path" ++ 61 :: value.takeWhile (· != 35)) := by
    have hfront : ∀ c ∈ ascii "lang" ++ 61 :: language, (c != 35) = true := by
      refine bne_of_not_mem fun hmem => ?_
      rcases List.mem_append.mp hmem with hmem | hmem
      · exact absurd hmem (by decide +kernel)
      · rcases List.mem_cons.mp hmem with hmem | hmem
        · exact absurd hmem (by decide)
        · exact hfragment hmem
    have hname : ∀ c ∈ ascii "path", (c != 35) = true := by decide +kernel
    rw [List.takeWhile_append_of_pos hfront, List.takeWhile_cons_of_pos rfl,
      List.takeWhile_append_of_pos hname, List.takeWhile_cons_of_pos rfl]
  rw [devBridgeDoPost, hparse]
  dsimp only
  rw [if_neg (by simp), devBridgeTarget, urlparse_query hroute.1 hroute.2.1, hquery]
  rw [if_pos hroute.2.2.1, hroute.2.2.2, queryParam_first (hlang.not_mem_field hamp) hfield,
    queryParam_next (hlang.not_mem_field hamp) hfield (by decide)]

theorem devBridgeTarget_append (action language path : Bytes) :
    devBridgeTarget action language path = devBridgeTarget action language [] ++ path := by
  simp [devBridgeTarget]

theorem devBridgeTarget_plain (haction : action = ascii "run" ∨ action = ascii "build")
    (hlanguage : language ∈ studioLanguages) (c : UInt8)
    (hc : c ∈ devBridgeTarget action language []) : isPySpace c = false := by
  obtain ⟨-, -, hplain, -⟩ := studioLanguage_plain hlanguage
  have hactions : ∀ c ∈ slash :: action, isPySpace c = false := by
    rcases haction with rfl | rfl <;> decide +kernel
  have hlang : ∀ c ∈ ascii "lang", isPySpace c = false := by decide +kernel
  have hname : ∀ c ∈ ascii "path", isPySpace c = false := by decide +kernel
  have hmarks : isPySpace 63 = false ∧ isPySpace 61 = false ∧ isPySpace 38 = false := by decide
  simp only [devBridgeTarget, List.mem_append, List.mem_cons, List.not_mem_nil, or_false] at hc
  rcases hc with hc | rfl | (hc | rfl | hc) | rfl | hc | rfl
  · exact hactions c (List.mem_cons.mpr hc)
  · exact hmarks.1
  · exact hlang c hc
  · exact hmarks.2.1
  · exact hplain c hc
  · exact hmarks.2.2
  · exact hname c hc
  · exact hmarks.2.1

/-- The server reads the language and the file name that the studio sent exactly when nothing in
the name has a meaning in the request line or the query. -/
theorem devBridge_receives_iff (fs : ArmFs) (file action path lastAction source : Bytes)
    (haction : action = ascii "run" ∨ action = ascii "build") (hlength : path.length ≤ 95)
    (hprint : ∀ c ∈ path, isprint c = true)
    (hsource : studioCollectSource fs path = some source) :
    (∃ line job, studioExecuteBridge fs ⟨path, studioLanguageForPath file, lastAction⟩ action =
        some line ∧ devBridgeDoPost line = some job ∧
      job.language = studioLanguageForPath file ∧ job.pathHint = path) ↔ PlainInQuery path := by
  have hlanguage := studioLanguageForPath_mem file
  have hline := studioExecuteBridge_line lastAction haction (studioLanguage_plain hlanguage).1
    hlength hsource
  have hpost : ∀ c ∈ ascii "POST", isPySpace c = false := by decide +kernel
  have hfront := devBridgeTarget_plain haction hlanguage
  have hfrontNe : devBridgeTarget action (studioLanguageForPath file) [] ≠ [] := by
    simp [devBridgeTarget]
  have hname : PlainName (ascii "path") := ⟨by decide +kernel, by decide +kernel, by decide +kernel⟩
  constructor
  · rintro ⟨line, job, hsent, hjob, -, hpath⟩
    obtain rfl := Option.some.inj (hline.symm.trans hsent)
    rw [httpRequestLine_eq, devBridgeTarget_append] at hjob
    cases hparse : parseRequest (requestLine (ascii "POST")
        (devBridgeTarget action (studioLanguageForPath file) [] ++ path)) with
    | none =>
      rw [devBridgeDoPost, hparse] at hjob
      cases hjob
    | some request =>
      obtain rfl := parseRequest_cut hpost (by decide) hfront hfrontNe hparse
      rw [← devBridgeTarget_append _ _ (path.takeWhile _)] at hparse
      rw [devBridgeDoPost_target haction hlanguage hparse] at hjob
      cases hjob
      have hcut : (path.takeWhile fun c => !isPySpace c).takeWhile (· != 35) <+: path :=
        (List.takeWhile_prefix _).trans (List.takeWhile_prefix _)
      obtain ⟨hwhole, hamp, hplus, hescape⟩ := (queryParam_eq_iff hname hcut).mp hpath
      refine ⟨fun hmem => ?_, fun hmem => ?_, hamp, hplus, hescape⟩
      · rw [← hwhole] at hmem
        have hspace := List.mem_takeWhile_imp ((List.takeWhile_prefix _).subset hmem)
        exact absurd hspace (by decide)
      · rw [← hwhole] at hmem
        exact absurd (List.mem_takeWhile_imp hmem) (by decide)
  · rintro ⟨hspace, hfragment, hamp, hplus, hescape⟩
    have hprintable : ∀ c : UInt8, isprint c = true → c ≠ 32 → isPySpace c = false :=
      forall_byte (by decide +kernel)
    have hwords : ∀ c ∈ devBridgeTarget action (studioLanguageForPath file) path,
        isPySpace c = false := by
      intro c hc
      rw [devBridgeTarget_append] at hc
      rcases List.mem_append.mp hc with hc | hc
      · exact hfront c hc
      · exact hprintable c (hprint c hc) fun h => hspace (h ▸ hc)
    have hparse := parseRequest_word hpost (by decide) hwords (by simp [devBridgeTarget])
    have hkeep : path.takeWhile (· != 35) = path :=
      List.takeWhile_eq_self_iff.mpr (bne_of_not_mem hfragment)
    rw [httpRequestLine_eq] at hline
    refine ⟨_, _, hline, devBridgeDoPost_target haction hlanguage hparse, rfl, ?_⟩
    rw [hkeep]
    exact (queryParam_eq_iff hname (List.prefix_refl path)).mpr ⟨rfl, hamp, hplus, hescape⟩

/-- A directory of projects with one source file. -/
def sourceCalls (path : Bytes) : List FsOp :=
  [.mkdir (ascii "/projects"), .write path (ascii "x") .text]

def sourceFs (path : Bytes) : ArmFs := run fsStep (ArmFs.empty offline) (sourceCalls path)

theorem studioCollectSource_sourceFs (hpath : NulFree path)
    (htable : run tableStep [] (sourceCalls path) =
      [⟨ascii "/projects", .dir, []⟩, ⟨path, .text, ascii "x"⟩])
    (hne : ascii "/projects" ≠ path) :
    studioCollectSource (sourceFs path) path = some (ascii "x") := by
  have hfits : Guarded tableStep OpFits [] (sourceCalls path) := ⟨by decide, hpath, trivial⟩
  obtain ⟨hnodes, -⟩ := run_refines (empty_entriesOk offline) hfits
  have hfound := fsEntry_nodes (sourceFs path) path
  rw [sourceFs, hnodes, show (ArmFs.empty offline).nodes = [] from rfl, htable, lookup,
    List.find?_cons_of_neg (by simpa using hne), List.find?_cons_of_pos (by simp)] at hfound
  obtain ⟨entry, hentry, hnode⟩ := Option.map_eq_some_iff.mp hfound.symm
  have htype : entry.type = .text := congrArg FileNode.type hnode
  have hbytes : entry.bytes = ascii "x" := congrArg FileNode.bytes hnode
  rw [studioCollectSource, sourceFs, hentry]
  dsimp only
  rw [if_pos htype, hbytes]

theorem devBridge_receives_plain :
    (∃ line job, studioExecuteBridge (sourceFs (ascii "/projects/a.py"))
      ⟨ascii "/projects/a.py", studioLanguageForPath (ascii "/projects/a.py"), ascii "idle"⟩
        (ascii "run") = some line ∧ devBridgeDoPost line = some job ∧
        job.language = studioLanguageForPath (ascii "/projects/a.py") ∧
          job.pathHint = ascii "/projects/a.py") ↔ PlainInQuery (ascii "/projects/a.py") :=
  devBridge_receives_iff _ (ascii "/projects/a.py") _ _ (ascii "idle") (ascii "x") (.inl rfl)
    (by decide) (by decide +kernel)
    (studioCollectSource_sourceFs (by decide) (by decide +kernel) (by decide))

/-- A file whose name ends at an ampersand for the server. -/
def ampersandPath : Bytes := ascii "/projects/a&b.py"

theorem not_devBridge_receives : ampersandPath.length ≤ 95 ∧
    (∀ c ∈ ampersandPath, isprint c = true) ∧
    ∃ line, studioExecuteBridge (sourceFs ampersandPath)
        ⟨ampersandPath, studioLanguageForPath ampersandPath, ascii "idle"⟩ (ascii "run") =
          some line ∧
      devBridgeDoPost line = some ⟨ascii "run", ascii "python", ascii "/projects/a"⟩ := by
  have hsource : studioCollectSource (sourceFs ampersandPath) ampersandPath = some (ascii "x") :=
    studioCollectSource_sourceFs (by decide) (by decide +kernel) (by decide)
  have hlanguage : studioLanguageForPath ampersandPath = ascii "python" := by decide +kernel
  rw [hlanguage]
  exact ⟨by decide, by decide +kernel, _,
    studioExecuteBridge_line _ (.inl rfl) (by decide) (by decide) hsource, by decide +kernel⟩

end DevBridge

end SnsxOS.Arm64
