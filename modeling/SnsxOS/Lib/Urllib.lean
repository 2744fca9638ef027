import SnsxOS.Framework.PercentCode

/-!
# The libraries of the host tools

What `http.server` and `urllib.parse` make of a request line: its words, the path and the query
of its target, and the fields of the query. Decoded text is kept as its UTF-8 bytes, so it is an
ASCII text exactly when its bytes are that text.
-/

namespace SnsxOS

open Framework

/-- White space of `str.split`, on Latin-1 text. -/
def isPySpace (c : UInt8) : Bool :=
  (9 ≤ c && c ≤ 13) || (28 ≤ c && c ≤ 32) || c == 0x85 || c == 0xA0

/-- White space of `str.strip`, as far as it is ASCII. -/
def isPyBlank (c : UInt8) : Bool := (9 ≤ c && c ≤ 13) || (28 ≤ c && c ≤ 32)

def pyStrip (text : Bytes) : Bytes :=
  ((text.dropWhile isPyBlank).reverse.dropWhile isPyBlank).reverse

def pySplit (text : Bytes) : List Bytes := (text.splitOnP isPySpace).filter fun word => word != []

/-- The command and the target of a request line. -/
def parseRequest (requestLine : Bytes) : Option (Bytes × Bytes) :=
  match pySplit requestLine with
  | [command, target] => if command = ascii "GET" then some (command, target) else none
  | [command, target, version] =>
      if (ascii "HTTP/").isPrefixOf version then some (command, target) else none
  | _ => none

structure ParseResult where
  path : Bytes
  query : Bytes

/-- The parts of a target that starts with a single slash. -/
def urlparse (target : Bytes) : ParseResult :=
  let target := target.takeWhile (· != 35)
  ⟨target.takeWhile (· != 63), (target.dropWhile (· != 63)).drop 1⟩

/-- The decoding of a name or a value. -/
def unquotePlus (text : Bytes) : Bytes := percentDecode (text.map fun c => if c = 43 then 32 else c)

/-- A field without a value is skipped. -/
def queryField (field : Bytes) : Option (Bytes × Bytes) :=
  let value := (field.dropWhile (· != 61)).drop 1
  if value = [] then none else some (unquotePlus (field.takeWhile (· != 61)), unquotePlus value)

def parseQs (query : Bytes) : List (Bytes × Bytes) := (query.splitOn 38).filterMap queryField

/-- `parse_qs(query).get(name, [""])[0]`. -/
def queryParam (query name : Bytes) : Bytes :=
  match (parseQs query).find? fun field => field.1 == name with
  | some field => field.2
  | none => []

section Words

variable {word method front text version : Bytes} {sep : UInt8}

theorem pySplit_append (text : Bytes) (h : isPySpace sep = true) (rest : Bytes) :
    pySplit (text ++ sep :: rest) = pySplit text ++ pySplit rest := by
  rw [pySplit, List.splitOnP_append_cons text rest h, List.filter_append]
  rfl

theorem pySplit_word (hword : ∀ c ∈ word, isPySpace c = false) (hne : word ≠ []) :
    pySplit word = [word] := by
  rw [pySplit, List.splitOnP_eq_singleton hword]
  simp [hne]

theorem pyStrip_of_plain (h : ∀ c ∈ text, isPyBlank c = false) : pyStrip text = text := by
  have hkeep : ∀ s : Bytes, (∀ c ∈ s, isPyBlank c = false) → s.dropWhile isPyBlank = s := by
    intro s hs
    cases s with
    | nil => rfl
    | cons c s => exact List.dropWhile_cons_of_neg (by simp [hs c List.mem_cons_self])
  rw [pyStrip, hkeep text h, hkeep text.reverse fun c hc => h c (List.mem_reverse.mp hc),
    List.reverse_reverse]

/-- A request line as clients write it. -/
def requestLine (method target : Bytes) : Bytes :=
  method ++ 32 :: (target ++ 32 :: ascii "HTTP/1.0")

theorem pySplit_requestLine (hmethod : ∀ c ∈ method, isPySpace c = false) (hne : method ≠ [])
    (target : Bytes) :
    pySplit (requestLine method target) = method :: (pySplit target ++ [ascii "HTTP/1.0"]) := by
  have hversion : pySplit (ascii "HTTP/1.0") = [ascii "HTTP/1.0"] := by decide
  rw [requestLine, pySplit_append method rfl, pySplit_append target rfl, hversion,
    pySplit_word hmethod hne, List.singleton_append]

/-- A target without white space arrives. -/
theorem parseRequest_word (hmethod : ∀ c ∈ method, isPySpace c = false) (hne : method ≠ [])
    {target : Bytes} (htarget : ∀ c ∈ target, isPySpace c = false) (htargetNe : target ≠ []) :
    parseRequest (requestLine method target) = some (method, target) := by
  have hversion : (ascii "HTTP/").isPrefixOf (ascii "HTTP/1.0") = true := by decide
  rw [parseRequest, pySplit_requestLine hmethod hne, pySplit_word htarget htargetNe,
    List.singleton_append]
  exact if_pos hversion

/-- White space in a target cuts it there, if the line is accepted at all. -/
theorem parseRequest_cut (hmethod : ∀ c ∈ method, isPySpace c = false) (hne : method ≠ [])
    (hfront : ∀ c ∈ front, isPySpace c = false) (hfrontNe : front ≠ []) {request : Bytes × Bytes}
    (h : parseRequest (requestLine method (front ++ text)) = some request) :
    request = (method, front ++ text.takeWhile fun c => !isPySpace c) := by
  have hwhole : ∀ c ∈ front ++ text.takeWhile (fun c => !isPySpace c), isPySpace c = false := by
    intro c hc
    rcases List.mem_append.mp hc with hc | hc
    · exact hfront c hc
    · simpa using List.mem_takeWhile_imp hc
  have hwholeNe : front ++ text.takeWhile (fun c => !isPySpace c) ≠ [] := by simp [hfrontNe]
  have hsplit : ∃ words, pySplit (front ++ text) =
      (front ++ text.takeWhile fun c => !isPySpace c) :: words := by
    have htext := List.takeWhile_append_dropWhile (p := fun c => !isPySpace c) (l := text)
    cases hrest : text.dropWhile fun c => !isPySpace c with
    | nil =>
      rw [hrest, List.append_nil] at htext
      exact ⟨[], by rw [← pySplit_word hwhole hwholeNe, htext]⟩
    | cons sep rest =>
      have hsep : isPySpace sep = true := by
        have hhead := List.head_dropWhile_not (fun c => !isPySpace c) (l := text) (by simp [hrest])
        simpa [hrest] using hhead
      rw [hrest] at htext
      have hcut : front ++ text =
          (front ++ text.takeWhile fun c => !isPySpace c) ++ sep :: rest := by
        rw [List.append_assoc, htext]
      refine ⟨pySplit rest, ?_⟩
      rw [hcut, pySplit_append _ hsep, pySplit_word hwhole hwholeNe, List.singleton_append]
  obtain ⟨words, hwords⟩ := hsplit
  rw [parseRequest, pySplit_requestLine hmethod hne, hwords] at h
  have hversion : (ascii "HTTP/").isPrefixOf (ascii "HTTP/1.0") = true := by decide
  rcases words with _ | ⟨word, _ | ⟨next, words⟩⟩
  · exact (Option.some.inj ((if_pos hversion).symm.trans h)).symm
  · cases h
  · cases h

end Words

section Query

variable {name value field rest text path : Bytes}

theorem urlparse_query (hfragment : 35 ∉ path) (hquery : 63 ∉ path) (query : Bytes) :
    urlparse (path ++ 63 :: query) = ⟨path, query.takeWhile (· != 35)⟩ := by
  have hpath := bne_of_not_mem hquery
  have htarget : (path ++ 63 :: query).takeWhile (· != 35) =
      path ++ 63 :: query.takeWhile (· != 35) := by
    rw [List.takeWhile_append_of_pos (bne_of_not_mem hfragment)]
    rfl
  rw [urlparse, htarget, List.takeWhile_append_of_pos hpath, List.dropWhile_append_of_pos hpath]
  simp

theorem length_unquotePlus_le (text : Bytes) : (unquotePlus text).length ≤ text.length := by
  have hle := length_percentDecode_le (text.map fun c => if c = 43 then 32 else c)
  rwa [List.length_map] at hle

theorem unquotePlus_eq_self_iff : unquotePlus text = text ↔ 43 ∉ text ∧ hasEscape text = false := by
  constructor
  · intro h
    have hescape : hasEscape (text.map fun c => if c = 43 then 32 else c) = false := by
      refine hasEscape_eq_false_of_length ?_
      rw [List.length_map]
      exact (congrArg List.length h).ge
    rw [unquotePlus, percentDecode_eq_self hescape] at h
    refine ⟨fun hplus => ?_, by rwa [h] at hescape⟩
    have hmem : (43 : UInt8) ∈ text.map fun c => if c = 43 then 32 else c := by rwa [h]
    obtain ⟨c, -, hc⟩ := List.mem_map.mp hmem
    split at hc
    · exact absurd hc (by decide)
    · contradiction
  · rintro ⟨hplus, hescape⟩
    have hmap : (text.map fun c => if c = 43 then 32 else c) = text.map id :=
      List.map_congr_left fun c hc => if_neg fun h : c = 43 => hplus (h ▸ hc)
    rw [List.map_id] at hmap
    rw [unquotePlus, hmap, percentDecode_eq_self hescape]

theorem parseQs_cons (h : 38 ∉ field) (rest : Bytes) :
    parseQs (field ++ 38 :: rest) = (queryField field).toList ++ parseQs rest := by
  rw [parseQs, List.splitOn_append_cons_self_of_not_mem h, List.filterMap_cons]
  cases queryField field <;> rfl

theorem parseQs_field (h : 38 ∉ field) : parseQs field = (queryField field).toList := by
  rw [parseQs, List.splitOn_eq_singleton h]
  cases hfield : queryField field <;> simp [hfield]

/-- No value is longer than what is left of the query. -/
theorem length_value_le {query : Bytes} {found : Bytes × Bytes} (h : found ∈ parseQs query) :
    found.2.length ≤ query.length := by
  obtain ⟨field, hfield, hfound⟩ := List.mem_filterMap.mp h
  have hvalue : found.2.length ≤ field.length := by
    rw [queryField] at hfound
    split at hfound
    · cases hfound
    · cases hfound
      have hle := length_unquotePlus_le ((field.dropWhile (· != 61)).drop 1)
      have hdrop := (List.dropWhile_suffix (· != 61) (l := field)).length_le
      rw [List.length_drop] at hle
      exact hle.trans ((Nat.sub_le _ _).trans hdrop)
  have hlength : ∀ text : Bytes, ∀ field ∈ text.splitOn 38, field.length ≤ text.length := by
    intro text
    induction text with
    | nil => simp
    | cons c text ih =>
      intro field hmem
      rw [List.splitOn_cons_eq_if_modifyHead] at hmem
      cases hsplit : text.splitOn 38 with
      | nil => exact absurd hsplit (List.splitOn_ne_nil 38 text)
      | cons first others =>
        rw [hsplit] at ih hmem
        split at hmem
        · rcases List.mem_cons.mp hmem with rfl | hmem
          · exact Nat.zero_le _
          · exact (ih field hmem).trans (Nat.le_succ _)
        · rcases List.mem_cons.mp hmem with rfl | hmem
          · exact Nat.succ_le_succ (ih first List.mem_cons_self)
          · exact (ih field (List.mem_cons_of_mem _ hmem)).trans (Nat.le_succ _)
  exact hvalue.trans (hlength query field hfield)

theorem queryField_pair (hname : 61 ∉ name) (hvalue : value ≠ []) :
    queryField (name ++ 61 :: value) = some (unquotePlus name, unquotePlus value) := by
  have hplain := bne_of_not_mem hname
  rw [queryField, List.takeWhile_append_of_pos hplain, List.dropWhile_append_of_pos hplain]
  simp [hvalue]

theorem queryField_empty (hname : 61 ∉ name) : queryField (name ++ [61]) = none := by
  have hplain := bne_of_not_mem hname
  rw [queryField, List.dropWhile_append_of_pos hplain]
  simp

theorem queryParam_first (h : 38 ∉ field) (hfield : queryField field = some (name, value))
    (rest : Bytes) : queryParam (field ++ 38 :: rest) name = value := by
  rw [queryParam, parseQs_cons h, hfield]
  simp

theorem queryParam_next (h : 38 ∉ field) {other : Bytes}
    (hfield : queryField field = some (other, value)) (hne : other ≠ name) (rest : Bytes) :
    queryParam (field ++ 38 :: rest) name = queryParam rest name := by
  rw [queryParam, parseQs_cons h, hfield, queryParam]
  simp [hne]

theorem queryParam_mem (query name : Bytes) :
    queryParam query name = [] ∨ ∃ found ∈ parseQs query, found.2 = queryParam query name := by
  rw [queryParam]
  cases hfind : (parseQs query).find? fun field => field.1 == name with
  | none => exact Or.inl rfl
  | some found => exact Or.inr ⟨found, List.mem_of_find?_eq_some hfind, rfl⟩

theorem length_queryParam_le (query name : Bytes) :
    (queryParam query name).length ≤ query.length := by
  rcases queryParam_mem query name with h | ⟨found, hmem, hfound⟩
  · rw [h]
    exact Nat.zero_le _
  · rw [← hfound]
    exact length_value_le hmem

/-- A name that is read as it is written. -/
def PlainName (name : Bytes) : Prop := 61 ∉ name ∧ 38 ∉ name ∧ unquotePlus name = name

theorem PlainName.not_mem_field (hname : PlainName name) (hvalue : 38 ∉ value) :
    38 ∉ name ++ 61 :: value := by
  simp only [List.mem_append, List.mem_cons, not_or]
  exact ⟨hname.2.1, by decide, hvalue⟩

theorem queryParam_last (hname : PlainName name) (hvalue : 38 ∉ value) :
    queryParam (name ++ 61 :: value) name = unquotePlus value := by
  rw [queryParam, parseQs_field (hname.not_mem_field hvalue)]
  cases hempty : value with
  | nil =>
    rw [queryField_empty hname.1]
    rfl
  | cons c rest =>
    rw [queryField_pair hname.1 (List.cons_ne_nil c rest), hname.2.2]
    simp

/-- A value that is cut at an ampersand is shorter than it was. -/
theorem length_queryParam_lt (hname : PlainName name) (hvalue : 38 ∈ value) :
    (queryParam (name ++ 61 :: value) name).length < value.length := by
  obtain ⟨front, rest, rfl, hfront⟩ := List.eq_append_cons_of_mem hvalue
  have hassoc : name ++ 61 :: (front ++ 38 :: rest) = (name ++ 61 :: front) ++ 38 :: rest := by
    simp
  have hfield := hname.not_mem_field hfront
  rw [hassoc]
  cases hempty : front with
  | nil =>
    rw [hempty] at hfield
    have hrest := length_queryParam_le rest name
    rw [queryParam, parseQs_cons hfield, queryField_empty hname.1, Option.toList_none,
      List.nil_append, ← queryParam, List.nil_append, List.length_cons]
    omega
  | cons c text =>
    rw [hempty] at hfield
    have hpair := queryField_pair hname.1 (List.cons_ne_nil c text)
    rw [hname.2.2] at hpair
    have hle := length_unquotePlus_le (c :: text)
    rw [queryParam_first hfield hpair, List.length_append, List.length_cons (a := 38)]
    omega

/-- What is left of a text when it is cut arrives whole exactly when nothing was cut off and
nothing in it has a meaning in a query. -/
theorem queryParam_eq_iff (hname : PlainName name) (hvalue : value <+: text) :
    queryParam (name ++ 61 :: value) name = text ↔
      value = text ∧ 38 ∉ text ∧ 43 ∉ text ∧ hasEscape text = false := by
  constructor
  · intro h
    have hlength := hvalue.length_le
    have hamp : 38 ∉ value := by
      intro hmem
      have hlt := length_queryParam_lt hname hmem
      rw [h] at hlt
      omega
    rw [queryParam_last hname hamp] at h
    have hle := length_unquotePlus_le value
    rw [h] at hle
    have hwhole : value = text := hvalue.eq_of_length_le hle
    subst hwhole
    exact ⟨rfl, hamp, unquotePlus_eq_self_iff.mp h⟩
  · rintro ⟨rfl, hamp, hplain⟩
    rw [queryParam_last hname hamp, unquotePlus_eq_self_iff.mpr hplain]

end Query

end SnsxOS
