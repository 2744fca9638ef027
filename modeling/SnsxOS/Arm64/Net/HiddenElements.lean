import SnsxOS.Arm64.Net.RenderHtml

/-!
# Elements that are not shown

A script or style element leaves no trace in a rendering when the scan, from the start of the
element on, passes text that prints nothing. Such text is read off the page without rendering it.

The end of a section is searched in lower case, while its start is found in any case. An element
that is closed in upper case swallows the page up to the next closing tag in lower case.
-/

namespace SnsxOS.Arm64

open Framework

/-- The elements whose content is not shown. -/
inductive HiddenTag where
  | script | style
  deriving DecidableEq

def HiddenTag.name : HiddenTag → Bytes
  | .script => ascii "script"
  | .style => ascii "style"

/-- What the scan looks for to leave a section. -/
def HiddenTag.close : HiddenTag → Bytes
  | .script => ascii "</script"
  | .style => ascii "</style"

/-- The section that starts with the tag. -/
def hiddenTag (html : Bytes) : Option HiddenTag :=
  if netstackTagStarts html HiddenTag.script.name then some .script
  else if netstackTagStarts html HiddenTag.style.name then some .style
  else none

def startsComment (html : Bytes) : Bool := (ascii "<!--").isPrefixOf html

/-- The scan behind the start of a tag. -/
def RenderScan.inside (lastSpace : Bool) (html : Bytes) : RenderScan where
  html := html
  inTag := true
  inScript := false
  inStyle := false
  lastSpace := lastSpace

/-- The scan in a script or style section, behind the start of its tag. -/
def RenderScan.hidden (tag : HiddenTag) (lastSpace : Bool) (html : Bytes) : RenderScan where
  html := html
  inTag := true
  inScript := tag = .script
  inStyle := tag = .style
  lastSpace := lastSpace

section Passes

variable {b : Bool} {html rest close tagEnd : Bytes}

theorem renderText_outside_nil (b : Bool) : renderText (.outside b []) = [] :=
  renderText_of_none rfl

/-- A tag is left behind the next `>`. -/
theorem renderText_inside (h : findText [62] html = some tagEnd) :
    renderText (.inside b html) = renderText (.outside b tagEnd.tail) := by
  induction html with
  | nil => cases h
  | cons ch rest ih =>
    rw [findText] at h
    split at h
    · rename_i hprefix
      cases h
      have hch : 62 = ch := by simpa [List.isPrefixOf] using hprefix
      have hstep : renderStep (.inside b (ch :: rest)) = some ([], .outside b rest) := by
        simp [renderStep, RenderScan.inside, RenderScan.outside, ← hch]
      rw [renderText_of_some hstep, List.nil_append, List.tail_cons]
    · rename_i hprefix
      have hch : ch ≠ 62 := by
        rintro rfl
        simp [List.isPrefixOf] at hprefix
      have hstep : renderStep (.inside b (ch :: rest)) = some ([], .inside b rest) := by
        simp [renderStep, RenderScan.inside, hch]
      rw [renderText_of_some hstep, List.nil_append, ih h]

/-- A section is left at the next closing tag in lower case, inside that tag. -/
theorem renderText_hidden (tag : HiddenTag) (h : findText tag.close html = some close) :
    renderText (.hidden tag b html) = renderText (.inside b close) := by
  cases html with
  | nil => cases tag <;> cases h
  | cons ch rest =>
    have hstep : renderStep (.hidden tag b (ch :: rest)) = some ([], .inside b close) := by
      cases tag
      · rw [HiddenTag.close] at h
        simp [renderStep, RenderScan.hidden, RenderScan.inside, h]
      · rw [HiddenTag.close] at h
        simp [renderStep, RenderScan.hidden, RenderScan.inside, h]
    rw [renderText_of_some hstep, List.nil_append]

theorem renderText_hidden_of_none (tag : HiddenTag) (h : findText tag.close html = none) :
    renderText (.hidden tag b html) = [] := by
  cases html with
  | nil => exact renderText_of_none rfl
  | cons ch rest =>
    apply renderText_of_none
    cases tag
    · rw [HiddenTag.close] at h
      simp [renderStep, RenderScan.hidden, h]
    · rw [HiddenTag.close] at h
      simp [renderStep, RenderScan.hidden, h]

theorem renderStep_outside (b : Bool) (rest : Bytes) :
    renderStep (.outside b (60 :: rest)) = renderTag (.outside b (60 :: rest)) (60 :: rest) := rfl

theorem renderText_comment (hcomment : startsComment (60 :: rest) = true)
    (h : findText (ascii "-->") (60 :: rest) = some close) :
    renderText (.outside b (60 :: rest)) = renderText (.outside b (close.drop 3)) := by
  rw [startsComment] at hcomment
  have hstep : renderStep (.outside b (60 :: rest)) = some ([], .outside b (close.drop 3)) := by
    rw [renderStep_outside, renderTag, if_pos hcomment, h]
    rfl
  rw [renderText_of_some hstep, List.nil_append]

theorem renderText_comment_of_none (hcomment : startsComment (60 :: rest) = true)
    (h : findText (ascii "-->") (60 :: rest) = none) :
    renderText (.outside b (60 :: rest)) = [] := by
  rw [startsComment] at hcomment
  apply renderText_of_none
  rw [renderStep_outside, renderTag, if_pos hcomment, h]

theorem renderText_hiddenTag (hcomment : ¬ startsComment (60 :: rest) = true) {tag : HiddenTag}
    (h : hiddenTag (60 :: rest) = some tag) :
    renderText (.outside b (60 :: rest)) = renderText (.hidden tag b rest) := by
  rw [startsComment] at hcomment
  have hstep : renderStep (.outside b (60 :: rest)) = some ([], .hidden tag b rest) := by
    rw [renderStep_outside, renderTag, if_neg hcomment]
    rw [hiddenTag] at h
    split at h
    · rename_i hscript
      cases h
      rw [HiddenTag.name] at hscript
      rw [if_pos hscript]
      rfl
    · rename_i hscript
      rw [HiddenTag.name] at hscript
      rw [if_neg hscript]
      split at h
      · rename_i hstyle
        cases h
        rw [HiddenTag.name] at hstyle
        rw [if_pos hstyle]
        rfl
      · cases h
  rw [renderText_of_some hstep, List.nil_append]

theorem renderText_tag (hcomment : ¬ startsComment (60 :: rest) = true)
    (h : hiddenTag (60 :: rest) = none) : renderText (.outside b (60 :: rest)) =
      tagText (60 :: rest) ++ renderText (.inside (tagSpace (60 :: rest) b) rest) := by
  rw [startsComment] at hcomment
  apply renderText_of_some
  rw [renderStep_outside, renderTag, if_neg hcomment]
  rw [hiddenTag] at h
  split at h
  · cases h
  · rename_i hscript
    split at h
    · cases h
    · rename_i hstyle
      rw [HiddenTag.name] at hscript
      rw [HiddenTag.name] at hstyle
      rw [if_neg hscript, if_neg hstyle]
      rfl

/-- A tag that prints nothing leaves the flag for a space. -/
theorem tagSpace_of_tagText (h : tagText html = []) : tagSpace html b = b := by
  rw [tagText] at h
  rw [tagSpace]
  cases hcell : startsCell html <;> cases hitem : startsItem html <;>
    cases hblock : startsBlock html <;> simp_all [ascii]

end Passes

section Names

variable {html tagName : Bytes}

theorem tagNameStarts_eq (html tagName : Bytes) : tagNameStarts html tagName =
    (tagName.map asciiLower).isPrefixOf (html.map asciiLower) := by
  fun_induction tagNameStarts html tagName with
  | case1 => rfl
  | case2 => rfl
  | case3 ch html c tagName ih =>
    rw [ih, List.map_cons, List.map_cons, List.isPrefixOf_cons_cons, Bool.beq_comm]

theorem netstackTagStarts_append (hmem : 62 ∈ html) (hname : 62 ∉ tagName.map asciiLower)
    (more : Bytes) : netstackTagStarts (html ++ more) tagName = netstackTagStarts html tagName := by
  have happend : ∀ {rest : Bytes}, 62 ∈ rest →
      tagNameStarts (rest ++ more) tagName = tagNameStarts rest tagName := by
    intro rest hrest
    have hlower : 62 ∈ rest.map asciiLower := List.mem_map.mpr ⟨62, hrest, by decide⟩
    rw [tagNameStarts_eq, tagNameStarts_eq, List.map_append, isPrefixOf_append_right hlower hname]
  match html, hmem with
  | ch :: rest, hmem =>
    by_cases hch : ch = 60
    · subst hch
      have hrest : 62 ∈ rest := by simpa using hmem
      match rest, hrest with
      | c :: rest, hrest =>
        by_cases hc : c = 47
        · subst hc
          exact happend (by simpa using hrest)
        · simpa [netstackTagStarts, hc] using happend hrest
    · simp [netstackTagStarts, hch]

theorem tagText_append (hmem : 62 ∈ html) (more : Bytes) :
    tagText (html ++ more) = tagText html := by
  have hblock : startsBlock (html ++ more) = startsBlock html := by
    have hnames : ∀ tagName ∈ blockTags, 62 ∉ tagName.map asciiLower := by decide
    rw [startsBlock, startsBlock, Bool.eq_iff_iff, List.any_eq_true, List.any_eq_true]
    apply exists_congr
    intro tagName
    apply and_congr_right
    intro htagName
    rw [netstackTagStarts_append hmem (hnames tagName htagName)]
  have hitem : startsItem (html ++ more) = startsItem html :=
    netstackTagStarts_append hmem (by decide) more
  have hcell : startsCell (html ++ more) = startsCell html := by
    rw [startsCell, startsCell, netstackTagStarts_append hmem (by decide),
      netstackTagStarts_append hmem (by decide)]
  rw [tagText, tagText, hblock, hitem, hcell]

theorem hiddenTag_append (hmem : 62 ∈ html) (more : Bytes) :
    hiddenTag (html ++ more) = hiddenTag html := by
  rw [hiddenTag, hiddenTag, netstackTagStarts_append hmem (by decide),
    netstackTagStarts_append hmem (by decide)]

theorem startsComment_append (hmem : 62 ∈ html) (more : Bytes) :
    startsComment (html ++ more) = startsComment html :=
  isPrefixOf_append_right hmem (by decide) more

end Names

/-- Text that is passed without printing: carriage returns, comments, whole sections and tags
that print nothing. -/
inductive Silent : Bytes → Prop
  | nil : Silent []
  | carriageReturn {rest : Bytes} : Silent rest → Silent (13 :: rest)
  | comment {rest close : Bytes} : startsComment (60 :: rest) = true →
      findText (ascii "-->") (60 :: rest) = some close → Silent (close.drop 3) →
        Silent (60 :: rest)
  | hidden {tag : HiddenTag} {rest close tagEnd : Bytes} : ¬ startsComment (60 :: rest) = true →
      hiddenTag (60 :: rest) = some tag → findText tag.close rest = some close →
        findText [62] close = some tagEnd → Silent tagEnd.tail → Silent (60 :: rest)
  | tag {rest tagEnd : Bytes} : ¬ startsComment (60 :: rest) = true →
      hiddenTag (60 :: rest) = none → tagText (60 :: rest) = [] →
        findText [62] rest = some tagEnd → Silent tagEnd.tail → Silent (60 :: rest)

section Silence

variable {html rest close tagEnd : Bytes}

theorem mem_of_findText (h : findText [62] html = some tagEnd) : 62 ∈ html := by
  have hstart : 62 ∈ tagEnd := (findText_startsWith h).subset (by decide)
  exact (findText_suffix h).subset hstart

theorem findText_tail_append (h : findText [62] html = some tagEnd) (post : Bytes) :
    ∃ next, findText [62] (html ++ post) = some next ∧ next.tail = tagEnd.tail ++ post := by
  obtain ⟨rest, hrest⟩ := findText_startsWith h
  refine ⟨tagEnd ++ post, findText_append_right h post, ?_⟩
  rw [← hrest]
  rfl

theorem renderText_comment_append (hcomment : startsComment (60 :: rest) = true)
    (h : findText (ascii "-->") (60 :: rest) = some close) (b : Bool) (post : Bytes) :
    renderText (.outside b (60 :: rest ++ post)) =
      renderText (.outside b (close.drop 3 ++ post)) := by
  have hlength : 3 ≤ close.length := (findText_startsWith h).length_le
  rw [startsComment, List.isPrefixOf_iff_prefix] at hcomment
  have hcomment' : startsComment (60 :: (rest ++ post)) = true :=
    List.isPrefixOf_iff_prefix.mpr (hcomment.trans (List.prefix_append (60 :: rest) post))
  rw [List.cons_append, renderText_comment hcomment' (findText_append_right h post),
    List.drop_append_of_le_length hlength]

theorem renderText_hidden_append {tag : HiddenTag} (hcomment : ¬ startsComment (60 :: rest) = true)
    (htag : hiddenTag (60 :: rest) = some tag) (hclose : findText tag.close rest = some close)
    (htagEnd : findText [62] close = some tagEnd) (b : Bool) (post : Bytes) :
    renderText (.outside b (60 :: rest ++ post)) =
      renderText (.outside b (tagEnd.tail ++ post)) := by
  have hmem : 62 ∈ 60 :: rest :=
    List.mem_cons_of_mem 60 ((findText_suffix hclose).subset (mem_of_findText htagEnd))
  obtain ⟨next, hnext, htail⟩ := findText_tail_append htagEnd post
  rw [← startsComment_append hmem post] at hcomment
  rw [← hiddenTag_append hmem post] at htag
  rw [List.cons_append] at hcomment htag ⊢
  rw [renderText_hiddenTag hcomment htag,
    renderText_hidden tag (findText_append_right hclose post), renderText_inside hnext, htail]

theorem renderText_tag_append (hcomment : ¬ startsComment (60 :: rest) = true)
    (htag : hiddenTag (60 :: rest) = none) (htagEnd : findText [62] rest = some tagEnd) (b : Bool)
    (post : Bytes) : renderText (.outside b (60 :: rest ++ post)) = tagText (60 :: rest) ++
      renderText (.outside (tagSpace (60 :: (rest ++ post)) b) (tagEnd.tail ++ post)) := by
  have hmem : 62 ∈ 60 :: rest := List.mem_cons_of_mem 60 (mem_of_findText htagEnd)
  obtain ⟨next, hnext, htail⟩ := findText_tail_append htagEnd post
  rw [← startsComment_append hmem post] at hcomment
  rw [← hiddenTag_append hmem post] at htag
  rw [← tagText_append hmem post]
  rw [List.cons_append] at hcomment htag ⊢
  rw [renderText_tag hcomment htag, renderText_inside hnext, htail]

theorem renderText_quiet_append (hcomment : ¬ startsComment (60 :: rest) = true)
    (htag : hiddenTag (60 :: rest) = none) (htext : tagText (60 :: rest) = [])
    (htagEnd : findText [62] rest = some tagEnd) (b : Bool) (post : Bytes) :
    renderText (.outside b (60 :: rest ++ post)) =
      renderText (.outside b (tagEnd.tail ++ post)) := by
  have hmem : 62 ∈ 60 :: rest := List.mem_cons_of_mem 60 (mem_of_findText htagEnd)
  have htext' : tagText (60 :: (rest ++ post)) = [] := by
    rw [← List.cons_append, tagText_append hmem, htext]
  rw [renderText_tag_append hcomment htag htagEnd, htext, tagSpace_of_tagText htext',
    List.nil_append]

theorem renderText_return_append (rest : Bytes) (b : Bool) (post : Bytes) :
    renderText (.outside b (13 :: rest ++ post)) = renderText (.outside b (rest ++ post)) := by
  have hstep : renderStep (.outside b (13 :: (rest ++ post))) =
      some ([], .outside b (rest ++ post)) := rfl
  rw [List.cons_append, renderText_of_some hstep, List.nil_append]

/-- Silent text leaves no trace in a rendering. -/
theorem Silent.renderText (h : Silent html) (b : Bool) (post : Bytes) :
    renderText (.outside b (html ++ post)) = renderText (.outside b post) := by
  induction h with
  | nil => rfl
  | carriageReturn _ ih => rw [renderText_return_append, ih]
  | comment hcomment hclose _ ih => rw [renderText_comment_append hcomment hclose, ih]
  | hidden hcomment htag hclose htagEnd _ ih =>
    rw [renderText_hidden_append hcomment htag hclose htagEnd, ih]
  | tag hcomment htag htext htagEnd _ ih =>
    rw [renderText_quiet_append hcomment htag htext htagEnd, ih]

/-- The text is empty or ends with the end of a tag. -/
def EndsTag (html : Bytes) : Prop := html = [] ∨ [62] <:+ html

theorem EndsTag.suffix (h : EndsTag html) (hrest : rest <:+ html) : EndsTag rest := by
  rcases h with rfl | h
  · exact .inl (List.suffix_nil.mp hrest)
  · rcases List.suffix_or_suffix_of_suffix h hrest with hend | hend
    · exact .inr hend
    · rcases List.suffix_cons_iff.mp hend with heq | hnil
      · exact .inr (heq ▸ List.suffix_refl _)
      · exact .inl (List.suffix_nil.mp hnil)

theorem EndsTag.findText (h : EndsTag html) (hne : html ≠ []) :
    ∃ tagEnd, findText [62] html = some tagEnd := by
  cases hfind : SnsxOS.findText [62] html with
  | some tagEnd => exact ⟨tagEnd, rfl⟩
  | none => exact absurd (h.resolve_left hne).isInfix ((findText_eq_none_iff (by decide)).mp hfind)

/-- Outside of tags every character but a carriage return prints something, unless a space was
printed last. -/
theorem renderText_ne_nil {ch : UInt8} (htag : ch ≠ 60) (hreturn : ch ≠ 13) (rest : Bytes) :
    renderText (.outside false (ch :: rest)) ≠ [] := by
  have hstep : renderStep (.outside false (ch :: rest)) =
      some (renderChar (.outside false (ch :: rest)) ch rest) := by
    simp [renderStep, RenderScan.outside, htag]
  have htext : (renderChar (.outside false (ch :: rest)) ch rest).1 ≠ [] := by
    rw [renderChar]
    split
    · exact List.cons_ne_nil _ _
    · rw [if_neg (by simpa using hreturn)]
      split_ifs <;> simp_all [RenderScan.outside]
  rw [renderText_of_some hstep]
  exact fun h => htext (List.append_eq_nil_iff.mp h).1

/-- A section or comment that is not left hides the letter behind the text. -/
theorem closes_of_renderText (needle front : Bytes) (hne : needle ≠ []) (hneedle : 120 ∉ needle)
    (hhides : ∀ post, SnsxOS.findText needle (front ++ post) = none →
      renderText (.outside false (html ++ post)) = [])
    (hprints : renderText (.outside false (html ++ [120])) = [120]) :
    ∃ close, SnsxOS.findText needle front = some close := by
  cases hclose : SnsxOS.findText needle front with
  | some close => exact ⟨close, rfl⟩
  | none =>
    have hhidden := hhides [120] (findText_concat_eq_none hne hneedle hclose)
    rw [hprints] at hhidden
    cases hhidden

theorem silent_of_tag (hends : EndsTag (60 :: rest))
    (hprints : ∀ post, post = [] ∨ post = [120] →
      renderText (.outside false (60 :: rest ++ post)) = post)
    (hnext : ∀ next, next <:+ rest →
      (∀ post, renderText (.outside false (60 :: rest ++ post)) =
        renderText (.outside false (next ++ post))) → Silent next) : Silent (60 :: rest) := by
  have hrest : rest ≠ [] := by
    rintro rfl
    rcases hends with h | h
    · cases h
    · exact absurd h (by decide)
  obtain ⟨tagEnd, htagEnd⟩ := (hends.suffix (List.suffix_cons 60 rest)).findText hrest
  have hmem : 62 ∈ 60 :: rest := List.mem_cons_of_mem 60 (mem_of_findText htagEnd)
  by_cases hcomment : startsComment (60 :: rest) = true
  · obtain ⟨close, hclose⟩ := closes_of_renderText (ascii "-->") (60 :: rest)
      (by decide) (by decide) (fun post hnone => by
        rw [← startsComment_append hmem post] at hcomment
        exact renderText_comment_of_none hcomment hnone) (hprints [120] (.inr rfl))
    refine .comment hcomment hclose (hnext (close.drop 3) ?_ ?_)
    · have hsuffix := findText_suffix hclose
      have hlength := hsuffix.length_le
      rw [List.length_cons] at hlength
      apply List.suffix_of_suffix_length_le ((List.drop_suffix 3 close).trans hsuffix)
        (List.suffix_cons 60 rest)
      rw [List.length_drop]
      omega
    · exact renderText_comment_append hcomment hclose false
  · cases htag : hiddenTag (60 :: rest) with
    | some tag =>
      obtain ⟨close, hclose⟩ := closes_of_renderText tag.close rest
        (by cases tag <;> decide) (by cases tag <;> decide) (fun post hnone => by
          rw [← startsComment_append hmem post] at hcomment
          rw [← hiddenTag_append hmem post] at htag
          rw [List.cons_append] at hcomment htag ⊢
          rw [renderText_hiddenTag hcomment htag, renderText_hidden_of_none tag hnone])
        (hprints [120] (.inr rfl))
      have hsuffix : close <:+ rest := findText_suffix hclose
      have hne : close ≠ [] := by
        rintro rfl
        have hstart := findText_startsWith hclose
        cases tag <;> exact absurd hstart (by decide)
      obtain ⟨closeEnd, hcloseEnd⟩ :=
        (hends.suffix (hsuffix.trans (List.suffix_cons 60 rest))).findText hne
      refine .hidden hcomment htag hclose hcloseEnd (hnext closeEnd.tail ?_ ?_)
      · exact (List.tail_suffix closeEnd).trans ((findText_suffix hcloseEnd).trans hsuffix)
      · exact renderText_hidden_append hcomment htag hclose hcloseEnd false
    | none =>
      have htext : tagText (60 :: rest) = [] := by
        have hnil := hprints [] (.inl rfl)
        rw [renderText_tag_append hcomment htag htagEnd] at hnil
        exact (List.append_eq_nil_iff.mp hnil).1
      refine .tag hcomment htag htext htagEnd (hnext tagEnd.tail ?_ ?_)
      · exact (List.tail_suffix tagEnd).trans (findText_suffix htagEnd)
      · exact renderText_quiet_append hcomment htag htext htagEnd false

/-- Text that prints nothing, alone and in front of a letter, is silent. -/
theorem silent_of_renderText (hends : EndsTag html)
    (hprints : ∀ post, post = [] ∨ post = [120] →
      renderText (.outside false (html ++ post)) = post) : Silent html := by
  induction hlength : html.length using Nat.strong_induction_on generalizing html with
  | _ length ih =>
    cases html with
    | nil => exact .nil
    | cons ch rest =>
      have hnext : ∀ next, next <:+ rest →
          (∀ post, renderText (.outside false (ch :: rest ++ post)) =
            renderText (.outside false (next ++ post))) → Silent next := by
        intro next hsuffix hsame
        have hlt := hsuffix.length_le
        rw [List.length_cons] at hlength
        apply ih next.length (by omega) (hends.suffix (hsuffix.trans (List.suffix_cons ch rest)))
          _ rfl
        intro post hpost
        rw [← hsame, hprints post hpost]
      by_cases htag : ch = 60
      · subst htag
        exact silent_of_tag hends hprints hnext
      · by_cases hreturn : ch = 13
        · subst hreturn
          exact .carriageReturn (hnext rest (List.suffix_refl rest)
            (renderText_return_append rest false))
        · have hnil := hprints [] (.inl rfl)
          rw [List.append_nil] at hnil
          exact absurd hnil (renderText_ne_nil htag hreturn rest)

end Silence

/-- Text between tags. -/
structure PlainText (text : Bytes) : Prop where
  tag : (60 : UInt8) ∉ text
  entity : (38 : UInt8) ∉ text
  nulFree : NulFree text

/-- A script or style element. -/
structure HiddenElement where
  tag : HiddenTag
  openName : Bytes
  openName_eq : openName.map asciiLower = tag.name
  attributes : Bytes
  attributes_open : (62 : UInt8) ∉ attributes
  attributes_nulFree : NulFree attributes
  content : Bytes
  content_open : ¬ 60 :: 47 :: (tag.name ++ [62]) <:+: content.map asciiLower
  content_nulFree : NulFree content
  closeName : Bytes
  closeName_eq : closeName.map asciiLower = tag.name

namespace HiddenElement

variable (element : HiddenElement)

/-- The opening tag behind its `<`, the content and the closing tag. -/
def body : Bytes :=
  element.openName ++ element.attributes ++
    62 :: (element.content ++ 60 :: 47 :: (element.closeName ++ [62]))

def text : Bytes := 60 :: element.body

/-- No rendering shows a trace of the element. -/
def Removed : Prop :=
  ∀ pre post, PlainText pre → PlainText post → ∃ enough, ∀ n, enough ≤ n →
    ∀ output output' : Buffer n,
      (netstackRenderHtmlBody (pre ++ element.text ++ post) output).str =
        (netstackRenderHtmlBody (pre ++ post) output').str

/-- The section is left, and what remains of the element behind the tag it is left in is silent. -/
def LeftSilently : Prop :=
  ∃ close tagEnd, findText element.tag.close element.body = some close ∧
    findText [62] close = some tagEnd ∧ Silent tagEnd.tail

end HiddenElement

section Element

variable {element : HiddenElement}

theorem asciiLower_eq_s {ch : UInt8} (h : asciiLower ch = 115) : ch ≠ 33 ∧ ch ≠ 47 ∧ ch ≠ 60 := by
  have hall : ∀ ch : UInt8, asciiLower ch = 115 → ch ≠ 33 ∧ ch ≠ 47 ∧ ch ≠ 60 :=
    forall_byte (by decide +kernel)
  exact hall ch h

/-- A name in any case starts with a letter. -/
theorem HiddenTag.name_head {tag : HiddenTag} {name : Bytes} (h : name.map asciiLower = tag.name) :
    ∃ ch rest, name = ch :: rest ∧ asciiLower ch = 115 := by
  cases name with
  | nil => cases tag <;> cases h
  | cons ch rest =>
    refine ⟨ch, rest, rfl, ?_⟩
    cases tag <;> exact (List.cons.inj h).1

theorem HiddenElement.not_startsComment (element : HiddenElement) (post : Bytes) :
    ¬ startsComment (60 :: (element.body ++ post)) = true := by
  obtain ⟨ch, rest, hname, hch⟩ := HiddenTag.name_head element.openName_eq
  have hne := (asciiLower_eq_s hch).1
  rw [HiddenElement.body, hname]
  simp [startsComment, ascii, List.isPrefixOf, Ne.symm hne]

theorem HiddenElement.hiddenTag_eq (element : HiddenElement) (post : Bytes) :
    hiddenTag (60 :: (element.body ++ post)) = some element.tag := by
  have hstarts : ∀ tagName, netstackTagStarts (60 :: (element.body ++ post)) tagName =
      (tagName.map asciiLower).isPrefixOf (element.tag.name ++
        (element.attributes ++ 62 :: (element.content ++
          60 :: 47 :: (element.closeName ++ [62])) ++ post).map asciiLower) := by
    intro tagName
    obtain ⟨ch, rest, hname, hch⟩ := HiddenTag.name_head element.openName_eq
    have hne := (asciiLower_eq_s hch).2.1
    rw [← element.openName_eq, ← List.map_append, ← tagNameStarts_eq, HiddenElement.body, hname]
    simp [netstackTagStarts, hne]
  rw [hiddenTag, hstarts, hstarts]
  cases element.tag <;> rfl

theorem HiddenElement.endsTag (element : HiddenElement) : EndsTag element.text := by
  right
  refine ⟨60 :: (element.openName ++ element.attributes ++
    62 :: (element.content ++ 60 :: 47 :: element.closeName)), ?_⟩
  simp [HiddenElement.text, HiddenElement.body]

/-- For an element there is one way to be silent. -/
theorem HiddenElement.silent_iff (element : HiddenElement) :
    Silent element.text ↔ element.LeftSilently := by
  have hcomment := element.not_startsComment []
  have htag := element.hiddenTag_eq []
  rw [List.append_nil] at hcomment htag
  constructor
  · intro h
    rw [HiddenElement.text] at h
    cases h with
    | comment hstarts => exact absurd hstarts hcomment
    | @hidden tag _ close tagEnd _ hstarts hclose htagEnd hrest =>
      rw [htag] at hstarts
      cases hstarts
      exact ⟨close, tagEnd, hclose, htagEnd, hrest⟩
    | tag _ hstarts =>
      rw [htag] at hstarts
      cases hstarts
  · intro h
    obtain ⟨close, tagEnd, hclose, htagEnd, hrest⟩ := h
    exact .hidden hcomment htag hclose htagEnd hrest

theorem renderStep_plain {ch : UInt8} (htag : ch ≠ 60) (hentity : ch ≠ 38) (b : Bool) :
    ∃ text next, ∀ rest,
      renderStep (.outside b (ch :: rest)) = some (text, .outside next rest) := by
  have hnone : ∀ rest,
      htmlEntities.find? (fun entity => entity.1.isPrefixOf (ch :: rest)) = none := by
    intro rest
    simp [htmlEntities, ascii, List.isPrefixOf, hentity.symm]
  have hchar : ∀ rest, renderStep (.outside b (ch :: rest)) =
      some (renderChar (.outside b (ch :: rest)) ch rest) := by
    intro rest
    simp [renderStep, RenderScan.outside, htag]
  simp only [hchar, renderChar, hnone]
  split_ifs
  · exact ⟨[], b, fun rest => rfl⟩
  · exact ⟨[10], false, fun rest => rfl⟩
  · exact ⟨if b then [] else [32], true, fun rest => rfl⟩
  · exact ⟨[ch], false, fun rest => rfl⟩

/-- Plain text prints the same whatever follows it. -/
theorem renderText_plain {pre : Bytes} (h : PlainText pre) (b : Bool) :
    ∃ printed lastSpace, ∀ rest, renderText (.outside b (pre ++ rest)) =
      printed ++ renderText (.outside lastSpace rest) := by
  induction pre generalizing b with
  | nil => exact ⟨[], b, fun rest => rfl⟩
  | cons ch pre ih =>
    have htag : ch ≠ 60 := fun hch => h.tag (hch ▸ List.mem_cons_self)
    have hentity : ch ≠ 38 := fun hch => h.entity (hch ▸ List.mem_cons_self)
    have hpre : PlainText pre := ⟨fun hm => h.tag (List.mem_cons_of_mem ch hm),
      fun hm => h.entity (List.mem_cons_of_mem ch hm),
      h.nulFree.mono (List.subset_cons_self ch pre)⟩
    obtain ⟨text, next, hstep⟩ := renderStep_plain htag hentity b
    obtain ⟨printed, lastSpace, hprinted⟩ := ih hpre next
    refine ⟨text ++ printed, lastSpace, ?_⟩
    intro rest
    rw [List.cons_append, renderText_of_some (hstep (pre ++ rest)), hprinted, List.append_assoc]

theorem HiddenElement.removed_of_silent (h : Silent element.text) : element.Removed := by
  intro pre post hpre hpost
  obtain ⟨printed, lastSpace, hprinted⟩ := renderText_plain hpre false
  refine ⟨1, ?_⟩
  intro n hn output output'
  rw [netstackRenderHtmlBody_str _ output hn, netstackRenderHtmlBody_str _ output' hn,
    List.append_assoc, hprinted, hprinted, h.renderText]

/-- What is not in the name of a tag is not in it in any case of its letters. -/
theorem HiddenTag.not_mem_of_map {tag : HiddenTag} {name : Bytes} {c : UInt8}
    (h : name.map asciiLower = tag.name) (hc : asciiLower c ∉ tag.name) : c ∉ name :=
  fun hmem => hc (h ▸ List.mem_map_of_mem hmem)

theorem HiddenTag.nulFree_of_map {tag : HiddenTag} {name : Bytes}
    (h : name.map asciiLower = tag.name) : NulFree name :=
  not_mem_of_map h (by cases tag <;> decide)

theorem HiddenElement.text_nulFree (element : HiddenElement) : NulFree element.text := by
  have hopen := HiddenTag.nulFree_of_map element.openName_eq
  have hclose := HiddenTag.nulFree_of_map element.closeName_eq
  have hattributes := element.attributes_nulFree
  have hcontent := element.content_nulFree
  simp only [NulFree] at hopen hclose hattributes hcontent
  simp [NulFree, HiddenElement.text, HiddenElement.body, hopen, hclose, hattributes, hcontent]

/-- In a large enough output a page is rendered to all that it prints. -/
theorem netstackRenderHtmlBody_of_length {html : Bytes} (hnul : NulFree html) {n : Nat}
    (output : Buffer n) (hn : (renderText (.outside false html)).length < n) :
    (netstackRenderHtmlBody html output).str = renderText (.outside false html) := by
  rw [netstackRenderHtmlBody_str html output (by omega), List.take_of_length_le (by omega)]
  exact cString_of_nulFree (renderText_nulFree (.outside false html) hnul)

theorem HiddenElement.silent_of_removed (h : element.Removed) : Silent element.text := by
  apply silent_of_renderText element.endsTag
  intro post hpost
  have hplain : PlainText post := by
    rcases hpost with rfl | rfl <;> exact ⟨by decide, by decide, by decide⟩
  have hshown : renderText (.outside false post) = post := by
    rcases hpost with rfl | rfl
    · exact renderText_outside_nil false
    · have hstep : renderStep (.outside false [120]) = some ([120], .outside false []) := rfl
      rw [renderText_of_some hstep, renderText_outside_nil, List.append_nil]
  obtain ⟨enough, henough⟩ := h [] post ⟨by decide, by decide, by decide⟩ hplain
  let n := enough + (renderText (.outside false (element.text ++ post))).length + post.length + 1
  have hsame := henough n (by omega) (Buffer.zero n) (Buffer.zero n)
  rw [List.nil_append, List.nil_append] at hsame
  rw [netstackRenderHtmlBody_of_length (element.text_nulFree.append hplain.nulFree) _ (by omega),
    netstackRenderHtmlBody_of_length hplain.nulFree _ (by rw [hshown]; omega), hshown] at hsame
  exact hsame

end Element

theorem HiddenTag.close_eq (tag : HiddenTag) : tag.close = 60 :: 47 :: tag.name := by
  cases tag <;> rfl

/-- Without the start of a closing tag before it, the closing tag itself is searched. -/
theorem HiddenElement.findText_body (element : HiddenElement)
    (hattributes : ¬ element.tag.close <:+: element.attributes)
    (hcontent : ¬ element.tag.close <:+: element.content) :
    findText element.tag.close element.body =
      findText element.tag.close (60 :: 47 :: (element.closeName ++ [62])) := by
  have hopen : (60 : UInt8) ∉ element.openName :=
    HiddenTag.not_mem_of_map element.openName_eq (by cases element.tag <;> decide)
  have hname : (62 : UInt8) ∉ 47 :: element.tag.name ∧ (60 : UInt8) ∉ 47 :: element.tag.name := by
    cases element.tag <;> decide
  rw [HiddenTag.close_eq] at hattributes hcontent ⊢
  rw [HiddenElement.body, List.append_assoc, findText_append hopen,
    findText_append_cons hname.1 hattributes]
  rw [findText, if_neg (by simp [List.isPrefixOf]), findText_append_cons hname.2 hcontent]

/-- An element with no other closing tag in lower case is removed when its own is in lower case,
and only then. -/
theorem HiddenElement.leftSilently_iff (element : HiddenElement)
    (hattributes : ¬ element.tag.close <:+: element.attributes)
    (hcontent : ¬ element.tag.close <:+: element.content) :
    element.LeftSilently ↔ element.closeName = element.tag.name := by
  rw [HiddenElement.LeftSilently, element.findText_body hattributes hcontent]
  constructor
  · intro h
    obtain ⟨close, tagEnd, hclose, -, -⟩ := h
    rw [HiddenTag.close_eq, findText] at hclose
    split at hclose
    · rename_i hprefix
      have hlength : element.tag.name.length = element.closeName.length := by
        rw [← element.closeName_eq, List.length_map]
      have hname : element.tag.name <+: element.closeName ++ [62] := by
        simpa [List.isPrefixOf_iff_prefix] using hprefix
      rcases List.prefix_concat_iff.mp hname with heq | hshort
      · simp [heq] at hlength
      · exact (hshort.eq_of_length hlength).symm
    · have hrest : (60 : UInt8) ∉ 47 :: (element.closeName ++ [62]) := by
        have hclose60 : (60 : UInt8) ∉ element.closeName :=
          HiddenTag.not_mem_of_map element.closeName_eq (by cases element.tag <;> decide)
        simp [hclose60]
      have hnone := findText_append hrest (47 :: element.tag.name) []
      rw [List.append_nil, hclose] at hnone
      cases hnone
  · intro h
    have hend : (62 : UInt8) ∉ 60 :: 47 :: element.tag.name := by
      cases element.tag <;> decide
    refine ⟨60 :: 47 :: (element.closeName ++ [62]), [62], ?_, ?_, .nil⟩
    · rw [HiddenTag.close_eq, h, findText, if_pos]
      simp [List.isPrefixOf_iff_prefix]
    · rw [h, ← List.cons_append, ← List.cons_append, findText_append hend]
      rfl

/-- A rendering is shorter than its output, and an element leaves no trace exactly when its section
is left at all and nothing that prints is behind the tag it is left in. -/
theorem netstackRenderHtmlBody_removes_iff (element : HiddenElement) :
    (∀ (html : Bytes) (n : Nat) (output : Buffer (n + 1)),
      (netstackRenderHtmlBody html output).str.length < n + 1) ∧
    (element.Removed ↔ element.LeftSilently) := by
  constructor
  · intro html n output
    exact netstackRenderHtmlBody_length html output (Nat.succ_pos n)
  · rw [← element.silent_iff]
    exact ⟨HiddenElement.silent_of_removed, HiddenElement.removed_of_silent⟩

/-- A script that is closed in upper case. -/
def upperCaseElement : HiddenElement where
  tag := .script
  openName := ascii "script"
  openName_eq := by decide
  attributes := []
  attributes_open := by decide
  attributes_nulFree := by decide
  content := ascii "x"
  content_open := by decide
  content_nulFree := by decide
  closeName := ascii "SCRIPT"
  closeName_eq := by decide

/-- The closing tag of a script is not found in upper case. -/
theorem not_netstackRenderHtmlBody_removes : ¬ ∀ element : HiddenElement, element.Removed := by
  intro h
  have hsilent := HiddenElement.silent_of_removed (h upperCaseElement)
  have hleft := upperCaseElement.silent_iff.mp hsilent
  rw [upperCaseElement.leftSilently_iff (by decide) (by decide)] at hleft
  exact absurd hleft (by decide)

end SnsxOS.Arm64
