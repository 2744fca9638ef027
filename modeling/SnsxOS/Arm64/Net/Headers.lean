import SnsxOS.Arm64.Net.Http

/-!
# Looking up a header

`netstack_find_header_value` against the header fields of a response. The search compares names
byte by byte, while the names of header fields do not depend on case, and it goes on behind the
empty line that ends the header.

A value is the place in the response where it starts, so that two values are equal when they are
those of the same line.
-/

namespace SnsxOS.Arm64

open Framework

/-- The text from the start of each line on. -/
def lineStarts (text : Bytes) : List Bytes :=
  if text = [] then []
  else text :: match _h : findText crlf text with
    | none => []
    | some lineEnd => lineStarts (lineEnd.drop 2)
termination_by text.length
decreasing_by
  have hsuffix := (findText_suffix _h).length_le
  have hprefix : 2 ≤ lineEnd.length := (findText_startsWith _h).length_le
  rw [List.length_drop]
  omega

theorem lineStarts_last {text : Bytes} (hne : text ≠ []) (h : findText crlf text = none) :
    lineStarts text = [text] := by
  rw [lineStarts, if_neg hne]
  split
  · rfl
  · rename_i hlineEnd
    rw [h] at hlineEnd
    cases hlineEnd

theorem lineStarts_cons {text lineEnd : Bytes} (hne : text ≠ [])
    (h : findText crlf text = some lineEnd) :
    lineStarts text = text :: lineStarts (lineEnd.drop 2) := by
  rw [lineStarts, if_neg hne]
  split
  · rename_i hnone
    rw [h] at hnone
    cases hnone
  · rename_i hlineEnd
    rw [h] at hlineEnd
    rw [Option.some.inj hlineEnd]

/-- Induction over the lines of a text. -/
theorem lines_induction {motive : Bytes → Prop} (nil : motive [])
    (last : ∀ text, text ≠ [] → findText crlf text = none → motive text)
    (cons : ∀ text lineEnd, text ≠ [] → findText crlf text = some lineEnd →
      motive (lineEnd.drop 2) → motive text) (text : Bytes) : motive text := by
  fun_induction lineStarts text with
  | case1 => exact nil
  | case2 text hne ih =>
    cases hfind : findText crlf text with
    | none => exact last text hne hfind
    | some lineEnd => exact cons text lineEnd hne hfind (ih lineEnd hfind)

/-- The name of the field in a line: what comes before the colon. -/
def fieldName (line : Bytes) : Bytes := line.takeWhile (· != 58)

/-- What follows the colon and the spaces behind it. -/
def fieldValue (line : Bytes) : Bytes := ((line.dropWhile (· != 58)).drop 1).dropWhile (· == 32)

/-- The line has a field of this name, in any case of its letters. -/
def NamesField (name line : Bytes) : Prop :=
  (fieldName line).map asciiLower = name.map asciiLower ∧ fieldName line ≠ line

/-- The line has a field of this name, spelled like it. -/
def SpellsField (name line : Bytes) : Prop := fieldName line = name ∧ fieldName line ≠ line

instance (name : Bytes) : DecidablePred (NamesField name) :=
  fun _ => inferInstanceAs (Decidable (_ ∧ _))

instance (name : Bytes) : DecidablePred (SpellsField name) :=
  fun _ => inferInstanceAs (Decidable (_ ∧ _))

/-- The lines between the status line and the first empty line. -/
def headerLines (response : Bytes) : List Bytes :=
  ((lineStarts response).takeWhile fun line => !crlf.isPrefixOf line).drop 1

/-- The value of the first header line with the name. -/
def headerValue (name response : Bytes) : Option Bytes :=
  ((headerLines response).find? (NamesField name ·)).map fieldValue

/-- The value that `netstack_http_request_text` uses. -/
def usedHeaderValue (name response : Bytes) : Option Bytes :=
  match findText (crlf ++ crlf) response with
  | none => none
  | some _ => netstackFindHeaderValue name response

/-- The first line is empty, or a later one. -/
def HasEmptyLine (response : Bytes) : Prop := crlf <+: response ∨ crlf ++ crlf <:+: response

/-- A name as `netstack_http_request_text` looks it up: neither a colon nor a line end in it. -/
def HeaderName (name : Bytes) : Prop := (58 : UInt8) ∉ name ∧ (13 : UInt8) ∉ name

section Lines

variable {name line : Bytes}

theorem SpellsField.namesField (h : SpellsField name line) : NamesField name line :=
  ⟨congrArg _ h.1, h.2⟩

theorem fieldName_append {rest : Bytes} (hname : (58 : UInt8) ∉ name) :
    fieldName (name ++ 58 :: rest) = name := takeWhile_append_sep hname rest

theorem fieldValue_append {rest : Bytes} (hname : (58 : UInt8) ∉ name) :
    fieldValue (name ++ 58 :: rest) = rest.dropWhile (· == 32) := by
  rw [fieldValue, dropWhile_append_sep hname]
  rfl

/-- A line with a field is its name, the colon and the rest. -/
theorem fieldName_split (h : fieldName line ≠ line) :
    ∃ rest, line = fieldName line ++ 58 :: rest := by
  have hsplit := List.takeWhile_append_dropWhile (p := (· != (58 : UInt8))) (l := line)
  cases hrest : line.dropWhile (· != 58) with
  | nil =>
    rw [hrest, List.append_nil] at hsplit
    exact absurd hsplit h
  | cons c rest =>
    have hhead := List.head_dropWhile_not (· != (58 : UInt8)) (l := line) (by simp [hrest])
    simp only [hrest, List.head_cons, bne_eq_false_iff_eq] at hhead
    rw [hrest, hhead] at hsplit
    exact ⟨rest, hsplit.symm⟩

theorem colon_not_mem_fieldName (line : Bytes) : (58 : UInt8) ∉ fieldName line := by
  intro h
  have hcolon := List.mem_takeWhile_imp h
  simp at hcolon

/-- The test of the search is that for a field spelled like the name. -/
theorem spellsField_iff (hname : (58 : UInt8) ∉ name) :
    (name ++ [58]).isPrefixOf line = true ↔ SpellsField name line := by
  rw [List.isPrefixOf_iff_prefix]
  constructor
  · intro h
    obtain ⟨rest, rfl⟩ := h
    rw [List.append_assoc, SpellsField, List.singleton_append, fieldName_append hname]
    exact ⟨rfl, fun h => by simpa using congrArg List.length h⟩
  · intro h
    obtain ⟨rest, hrest⟩ := fieldName_split h.2
    rw [h.1] at hrest
    exact ⟨rest, by rw [hrest, List.append_assoc, List.singleton_append]⟩

theorem drop_name_of_spellsField (h : SpellsField name line) :
    (line.drop (name.length + 1)).dropWhile (· == 32) = fieldValue line := by
  obtain ⟨rest, hrest⟩ := fieldName_split h.2
  have hcolon := colon_not_mem_fieldName line
  rw [h.1] at hrest hcolon
  rw [hrest, fieldValue_append hcolon, List.drop_append, List.drop_eq_nil_of_le (by omega)]
  simp

/-- The search finds the first line, of the header or not, that spells the name. -/
theorem netstackFindHeaderValue_eq (hname : (58 : UInt8) ∉ name) (text : Bytes) :
    netstackFindHeaderValue name text =
      ((lineStarts text).find? (SpellsField name ·)).map fieldValue := by
  have hspell : ∀ {line rest}, SpellsField name line →
      (line :: rest).find? (SpellsField name ·) = some line := by
    intro line rest h
    exact List.find?_cons_of_pos (decide_eq_true h)
  have hpass : ∀ {line rest}, ¬ (name ++ [58]).isPrefixOf line = true →
      (line :: rest).find? (SpellsField name ·) = rest.find? (SpellsField name ·) := by
    intro line rest h
    rw [spellsField_iff hname] at h
    exact List.find?_cons_of_neg (by simpa using h)
  fun_induction netstackFindHeaderValue name text with
  | case1 => simp [lineStarts]
  | case2 line hne hprefix =>
    have hspells := (spellsField_iff hname).mp hprefix
    rw [lineStarts, if_neg hne, hspell hspells, Option.map_some, drop_name_of_spellsField hspells]
  | case3 line hne hprefix hnone =>
    rw [lineStarts_last hne hnone, hpass hprefix]
    rfl
  | case4 line hne hprefix lineEnd hlineEnd ih =>
    rw [lineStarts_cons hne hlineEnd, hpass hprefix, ih]

theorem suffix_of_mem_lineStarts {text : Bytes} (h : line ∈ lineStarts text) : line <:+ text := by
  induction text using lines_induction with
  | nil => simp [lineStarts] at h
  | last text hne hfind =>
    rw [lineStarts_last hne hfind, List.mem_singleton] at h
    exact h ▸ List.suffix_refl text
  | cons text lineEnd hne hfind ih =>
    rw [lineStarts_cons hne hfind] at h
    rcases List.mem_cons.mp h with rfl | hrest
    · exact List.suffix_refl _
    · exact ((ih hrest).trans (List.drop_suffix 2 lineEnd)).trans (findText_suffix hfind)

/-- A field name that is plain up to case has no line end in it. -/
theorem NamesField.plain (h : NamesField name line) (hname : (13 : UInt8) ∉ name) :
    (13 : UInt8) ∉ fieldName line := by
  have hlower : ∀ ch : UInt8, asciiLower ch = asciiLower 13 → ch = 13 :=
    forall_byte (by decide +kernel)
  intro hmem
  have hmap := List.mem_map_of_mem (f := asciiLower) hmem
  rw [h.1] at hmap
  obtain ⟨ch, hch, heq⟩ := List.mem_map.mp hmap
  exact hname (hlower ch heq ▸ hch)

theorem suffix_dropWhile {rest lineEnd : Bytes} (h : lineEnd <:+ rest)
    (hhead : ∀ c ∈ lineEnd.head?, c ≠ 32) : lineEnd <:+ rest.dropWhile (· == 32) := by
  obtain ⟨pre, rfl⟩ := h
  induction pre with
  | nil =>
    cases lineEnd with
    | nil => exact List.nil_suffix
    | cons c lineEnd =>
      have hc : ¬ (c == 32) = true := by simpa using hhead c rfl
      rw [List.nil_append, List.dropWhile_cons_of_neg (p := (· == (32 : UInt8))) hc]
  | cons c pre ih =>
    rw [List.cons_append]
    by_cases hc : (c == 32) = true
    · rw [List.dropWhile_cons_of_pos (p := (· == (32 : UInt8))) hc]
      exact ih
    · rw [List.dropWhile_cons_of_neg (p := (· == (32 : UInt8))) hc]
      exact ⟨c :: pre, rfl⟩

/-- The value of a field ends behind the end of its line. -/
theorem NamesField.lineEnd_suffix (h : NamesField name line) (hname : (13 : UInt8) ∉ name)
    {lineEnd : Bytes} (hend : findText crlf line = some lineEnd) : lineEnd <:+ fieldValue line := by
  obtain ⟨rest, hrest⟩ := fieldName_split h.2
  have hplain := h.plain hname
  have hcolon := colon_not_mem_fieldName line
  generalize fieldName line = field at hrest hplain hcolon
  subst hrest
  have hfind : findText crlf rest = some lineEnd := by
    rw [← hend, ← List.singleton_append, ← List.append_assoc]
    refine (findText_append ?_ [10] rest).symm
    intro hmem
    rcases List.mem_append.mp hmem with hfield | hsingle
    · exact hplain hfield
    · exact absurd (List.mem_singleton.mp hsingle) (by decide)
  rw [fieldValue_append hcolon]
  apply suffix_dropWhile (findText_suffix hfind)
  intro c hc
  obtain ⟨tail, htail⟩ := findText_startsWith hfind
  rw [← htail] at hc
  cases hc
  decide

/-- The value of a field is longer than all that starts with a later line. -/
theorem lineStarts_pairwise (hname : (13 : UInt8) ∉ name) (text : Bytes) :
    (lineStarts text).Pairwise fun line later =>
      NamesField name line → later.length < (fieldValue line).length := by
  induction text using lines_induction with
  | nil => simp [lineStarts]
  | last text hne hfind =>
    rw [lineStarts_last hne hfind]
    exact List.pairwise_singleton _ text
  | cons text lineEnd hne hfind ih =>
    rw [lineStarts_cons hne hfind]
    refine List.pairwise_cons.mpr ⟨?_, ih⟩
    intro later hlater hnames
    have hvalue := (hnames.lineEnd_suffix hname hfind).length_le
    have hlater := (suffix_of_mem_lineStarts hlater).length_le
    have hcrlf : 2 ≤ lineEnd.length := (findText_startsWith hfind).length_le
    rw [List.length_drop] at hlater
    omega

theorem fieldValue_length_le (line : Bytes) : (fieldValue line).length ≤ line.length :=
  ((List.dropWhile_suffix _).trans
    ((List.drop_suffix 1 _).trans (List.dropWhile_suffix _))).length_le

/-- Fields of different lines have different values. -/
theorem fieldValue_inj (hname : (13 : UInt8) ∉ name) {text later : Bytes}
    (hline : line ∈ lineStarts text) (hlater : later ∈ lineStarts text)
    (hnames : NamesField name line) (hnames' : NamesField name later)
    (h : fieldValue line = fieldValue later) : line = later := by
  let Differ : Bytes → Bytes → Prop := fun line later =>
    NamesField name line → NamesField name later → fieldValue line ≠ fieldValue later
  have hdiffer : (lineStarts text).Pairwise Differ := by
    refine (lineStarts_pairwise hname text).imp ?_
    intro line later hlonger hnames _ heq
    have hlt := hlonger hnames
    have hle := fieldValue_length_le later
    rw [heq] at hlt
    omega
  have hsymm : Std.Symm Differ := ⟨fun _ _ hd hy hx => (hd hx hy).symm⟩
  by_contra hne
  exact hdiffer.forall hline hlater hne hnames hnames' h

end Lines

section Lookup

variable {name response : Bytes}

/-- A search for fewer elements in a longer list finds the same one exactly when it is among
them and none before the shorter list is. -/
theorem find?_eq_some_iff_of_imp {α : Type*} {p q : α → Bool} {first found : α}
    {shorter : List α} (rest : List α) (himp : ∀ a, p a = true → q a = true) (hfirst : first ∉ shorter)
    (hfound : shorter.find? q = some found) :
    (first :: (shorter ++ rest)).find? p = some found ↔ p found = true ∧ ¬ p first = true := by
  constructor
  · intro h
    refine ⟨List.find?_some h, fun hp => ?_⟩
    rw [List.find?_cons_of_pos hp] at h
    exact hfirst (Option.some.inj h ▸ List.mem_of_find?_eq_some hfound)
  · intro h
    obtain ⟨_, before, after, hsplit, hbefore⟩ := List.find?_eq_some_iff_append.mp hfound
    have hpass : before.find? p = none := by
      rw [List.find?_eq_none]
      intro a ha hp
      have hq := hbefore a ha
      rw [himp a hp] at hq
      cases hq
    rw [List.find?_cons_of_neg h.2, hsplit, List.append_assoc, List.find?_append, hpass,
      Option.none_or, List.cons_append, List.find?_cons_of_pos h.1]

theorem lineStarts_head (hne : response ≠ []) :
    ∃ rest, lineStarts response = response :: rest ∧
      ∀ line ∈ rest, line.length < response.length := by
  cases hfind : findText crlf response with
  | none => exact ⟨[], lineStarts_last hne hfind, fun line hline => by cases hline⟩
  | some lineEnd =>
    refine ⟨_, lineStarts_cons hne hfind, ?_⟩
    intro line hline
    have hle := (suffix_of_mem_lineStarts hline).length_le
    have hsuffix := (findText_suffix hfind).length_le
    have hcrlf : 2 ≤ lineEnd.length := (findText_startsWith hfind).length_le
    rw [List.length_drop] at hle
    omega

/-- The lines are the first one, those of the header and the rest. -/
theorem lineStarts_split (hne : response ≠ []) :
    ∃ rest, lineStarts response = response :: (headerLines response ++ rest) ∧
      ∀ line ∈ headerLines response, line.length < response.length := by
  obtain ⟨tail, hlines, hshorter⟩ := lineStarts_head hne
  rw [headerLines, hlines, List.takeWhile_cons]
  split
  · refine ⟨tail.dropWhile fun line => !crlf.isPrefixOf line, ?_, ?_⟩
    · rw [List.drop_one, List.tail_cons, List.takeWhile_append_dropWhile]
    · intro line hline
      exact hshorter line (List.takeWhile_subset _ hline)
  · refine ⟨tail, rfl, ?_⟩
    intro line hline
    cases hline

theorem headerLines_of_crlf (h : crlf <+: response) : headerLines response = [] := by
  have hne : response ≠ [] := by
    rintro rfl
    simp [crlf] at h
  obtain ⟨tail, hlines, -⟩ := lineStarts_head hne
  rw [headerLines, hlines, List.takeWhile_cons, List.isPrefixOf_iff_prefix.mpr h]
  rfl

/-- The value is used that the header has for the name. -/
def LooksUp (name response : Bytes) : Prop :=
  usedHeaderValue name response = headerValue name response

/-- The first header line with the name is spelled like it, and the status line is not. Where no
header line has the name, no line of the response is spelled like it. -/
def SpelledInHeader (name response : Bytes) : Prop :=
  (∀ line, (headerLines response).find? (NamesField name ·) = some line →
      SpellsField name line ∧ ¬ SpellsField name response) ∧
    ((headerLines response).find? (NamesField name ·) = none → crlf ++ crlf <:+: response →
      ∀ line ∈ lineStarts response, ¬ SpellsField name line)

/-- A search that finds some line has found the same one when the value is the same. -/
theorem map_fieldValue_inj (hname : (13 : UInt8) ∉ name) {p q : Bytes → Bool} {shorter : List Bytes}
    (hp : ∀ line, p line = true → NamesField name line)
    (hq : ∀ line, q line = true → NamesField name line)
    (hsub : shorter ⊆ lineStarts response) :
    ((lineStarts response).find? p).map fieldValue = (shorter.find? q).map fieldValue ↔
      (lineStarts response).find? p = shorter.find? q := by
  constructor
  · intro h
    cases hleft : (lineStarts response).find? p with
    | none =>
      rw [hleft] at h
      exact (Option.map_eq_none_iff.mp h.symm).symm
    | some line =>
      rw [hleft] at h
      obtain ⟨found, hfound, hvalue⟩ := Option.map_eq_some_iff.mp h.symm
      rw [hfound, fieldValue_inj hname (List.mem_of_find?_eq_some hleft)
        (hsub (List.mem_of_find?_eq_some hfound)) (hp _ (List.find?_some hleft))
        (hq _ (List.find?_some hfound)) hvalue.symm]
  · intro h
    rw [h]

/-- A lookup follows the header exactly when the name is spelled in the response as it is looked
up. -/
theorem looksUp_iff (hname : HeaderName name) (hempty : HasEmptyLine response) :
    LooksUp name response ↔ SpelledInHeader name response := by
  have hcrlf : crlf ++ crlf ≠ [] := by decide
  rw [LooksUp, usedHeaderValue, headerValue, SpelledInHeader]
  by_cases hbreak : crlf ++ crlf <:+: response
  · have hne : response ≠ [] := by
      rintro rfl
      exact absurd (List.infix_nil.mp hbreak) hcrlf
    obtain ⟨rest, hlines, hshorter⟩ := lineStarts_split hne
    have hsub : headerLines response ⊆ lineStarts response := by
      rw [hlines]
      exact fun line hline => List.mem_cons_of_mem _ (List.mem_append_left _ hline)
    have hfirst : response ∉ headerLines response := fun h => lt_irrefl _ (hshorter _ h)
    cases hfind : findText (crlf ++ crlf) response with
    | none => exact absurd hbreak ((findText_eq_none_iff hcrlf).mp hfind)
    | some headersEnd =>
      dsimp only
      rw [netstackFindHeaderValue_eq hname.1, map_fieldValue_inj hname.2
        (fun line h => (of_decide_eq_true h : SpellsField name line).namesField)
        (fun line h => of_decide_eq_true h) hsub]
      cases hheader : (headerLines response).find? (NamesField name ·) with
      | none =>
        simp [hbreak]
      | some line =>
        have hspelled := find?_eq_some_iff_of_imp rest (p := (SpellsField name ·))
          (fun line h => decide_eq_true (of_decide_eq_true h : SpellsField name line).namesField)
          hfirst hheader
        rw [hlines, hspelled]
        simp
  · -- an empty first line and no other one: there is no header
    rw [headerLines_of_crlf (hempty.resolve_right hbreak),
      (findText_eq_none_iff hcrlf).mpr hbreak]
    simp [hbreak]

end Lookup

/-- The names that a response is searched for. -/
inductive UsedHeader where
  | location | contentType

def UsedHeader.name : UsedHeader → Bytes
  | .location => ascii "Location"
  | .contentType => ascii "Content-Type"

theorem UsedHeader.headerName (header : UsedHeader) : HeaderName header.name := by
  cases header <;> exact ⟨by decide, by decide⟩

/-- A redirect goes to the value that is looked up. -/
theorem httpLocation_eq (response : Bytes) : httpLocation response =
    (usedHeaderValue UsedHeader.location.name response).bind fun location =>
      let text := (location.takeWhile fun ch => ch != 13 && ch != 10).take (netUrlMax - 1)
      let statusCode := netstackParseStatusCode (httpStatusLine response)
      if 300 ≤ statusCode ∧ statusCode < 400 ∧ text ≠ [] then some text else none := by
  rw [httpLocation, usedHeaderValue, UsedHeader.name]
  cases findText (crlf ++ crlf) response with
  | none => rfl
  | some headersEnd => cases netstackFindHeaderValue (ascii "Location") response <;> rfl

/-- A page is taken for HTML by the value that is looked up. -/
theorem httpPage_html_eq (parts : UrlParts) (response : Bytes) : (httpPage parts response).html =
    (usedHeaderValue UsedHeader.contentType.name response).any fun contentType =>
      (ascii "text/html").isPrefixOf contentType ||
        (ascii "application/xhtml").isPrefixOf contentType := by
  rw [httpPage, usedHeaderValue, UsedHeader.name]
  cases findText (crlf ++ crlf) response with
  | none => rfl
  | some headersEnd => cases netstackFindHeaderValue (ascii "Content-Type") response <;> rfl

/-- The headers of a response are looked up as HTTP has them exactly when the first header line
with the name is spelled like it, behind a status line that is not, and no line of the response is
spelled like it where the header has none. -/
theorem usedHeader_looksUp_iff (header : UsedHeader) {response : Bytes}
    (hempty : HasEmptyLine response) :
    LooksUp header.name response ↔ SpelledInHeader header.name response :=
  looksUp_iff header.headerName hempty

def foundStatus : Bytes := ascii "HTTP/1.1 302 Found"

/-- A page whose body has a line like a header. -/
def bodyLinePage : Bytes := foundStatus ++ crlf ++ crlf ++ ascii "Location: http://a/" ++ crlf

theorem usedHeader_looksUp_iff_page :
    LooksUp UsedHeader.location.name bodyLinePage ↔
      SpelledInHeader UsedHeader.location.name bodyLinePage :=
  usedHeader_looksUp_iff .location
    (.inr ⟨foundStatus, ascii "Location: http://a/" ++ crlf, by decide⟩)

/-- A header line in lower case, and the end of the header. -/
def lowerCaseHeader : Bytes := ascii "location: http://a/" ++ crlf ++ crlf

def lowerCaseRedirect : Bytes := foundStatus ++ crlf ++ lowerCaseHeader

theorem headerLines_lowerCase : headerLines lowerCaseRedirect = [lowerCaseHeader] := by
  have hstatus : findText crlf lowerCaseRedirect = some (crlf ++ lowerCaseHeader) := by decide
  have hheader : findText crlf lowerCaseHeader = some (crlf ++ crlf) := by decide
  have hend : findText crlf crlf = some crlf := by decide
  rw [headerLines, lineStarts_cons (by decide) hstatus]
  change ((lowerCaseRedirect :: lineStarts lowerCaseHeader).takeWhile _).drop 1 = _
  rw [lineStarts_cons (by decide) hheader]
  change ((lowerCaseRedirect :: lowerCaseHeader :: lineStarts crlf).takeWhile _).drop 1 = _
  rw [lineStarts_cons (by decide) hend]
  rfl

/-- A header in lower case is not found. -/
theorem not_usedHeader_looksUp : ¬ ∀ (header : UsedHeader) (response : Bytes),
    HasEmptyLine response → LooksUp header.name response := by
  intro h
  have hempty : HasEmptyLine lowerCaseRedirect :=
    .inr ⟨foundStatus ++ crlf ++ ascii "location: http://a/", [], by decide⟩
  have hspelled := (looksUp_iff UsedHeader.location.headerName hempty).mp (h .location _ hempty)
  have hfound : (headerLines lowerCaseRedirect).find? (NamesField UsedHeader.location.name ·) =
      some lowerCaseHeader := by
    rw [headerLines_lowerCase]
    decide
  exact absurd (hspelled.1 lowerCaseHeader hfound).1 (by decide)

end SnsxOS.Arm64
