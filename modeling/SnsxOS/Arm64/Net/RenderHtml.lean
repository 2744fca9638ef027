import SnsxOS.Lib.Text

/-!
# Rendering an HTML body

`netstack_render_html_body` with its three mode flags. A script or style section is left at the
next `</script` or `</style` in lower case, in the middle of a tag, and the tag is left at the
next `>`; what opens the section and every other tag is compared without regard to case.

What is printed does not depend on the room for it, so a rendering is the text that the scan
prints, cut to the size of the output.
-/

namespace SnsxOS.Arm64

open Framework

/-- The output and how far it is written. -/
structure RenderOut (n : Nat) where
  output : Buffer n
  index : Nat

variable {n : Nat}

def netstackAppendChar (out : RenderOut n) (ch : UInt8) : RenderOut n :=
  if n ≤ out.index + 1 then out
  else ⟨(out.output.write out.index [ch]).write (out.index + 1) [0], out.index + 1⟩

def netstackAppendText (out : RenderOut n) (text : Bytes) : RenderOut n :=
  text.foldl netstackAppendChar out

/-- The loop of `netstack_tag_starts`. -/
def tagNameStarts : Bytes → Bytes → Bool
  | _, [] => true
  | [], _ :: _ => false
  | ch :: html, c :: tagName => asciiLower ch == asciiLower c && tagNameStarts html tagName

def netstackTagStarts : Bytes → Bytes → Bool
  | 60 :: 47 :: html, tagName => tagNameStarts html tagName
  | 60 :: html, tagName => tagNameStarts html tagName
  | _, _ => false

/-- The rest of the page and the mode flags. -/
structure RenderScan where
  html : Bytes
  inTag : Bool
  inScript : Bool
  inStyle : Bool
  lastSpace : Bool

def blockTags : List Bytes := [ascii "br", ascii "p", ascii "div", ascii "section",
  ascii "article", ascii "tr", ascii "table", ascii "h1", ascii "h2", ascii "h3", ascii "title"]

def htmlEntities : List (Bytes × UInt8) := [(ascii "&nbsp;", 32), (ascii "&amp;", 38),
  (ascii "&lt;", 60), (ascii "&gt;", 62), (ascii "&quot;", 34), (ascii "&apos;", 39)]

def startsBlock (html : Bytes) : Bool := blockTags.any (netstackTagStarts html)

def startsItem (html : Bytes) : Bool := netstackTagStarts html (ascii "li")

def startsCell (html : Bytes) : Bool :=
  netstackTagStarts html (ascii "td") || netstackTagStarts html (ascii "th")

/-- What is printed at the start of a tag. -/
def tagText (html : Bytes) : Bytes :=
  (if startsBlock html then ascii "\n" else []) ++
    ((if startsItem html then ascii "\n* " else []) ++
      if startsCell html then ascii " | " else [])

/-- The flag for a space printed last, after the start of a tag. -/
def tagSpace (html : Bytes) (lastSpace : Bool) : Bool :=
  if startsCell html then true
  else if startsItem html then false
  else if startsBlock html then false else lastSpace

/-- The pass at the start of a tag or a comment. -/
def renderTag (scan : RenderScan) (html : Bytes) : Option (Bytes × RenderScan) :=
  if (ascii "<!--").isPrefixOf html then
    match findText (ascii "-->") html with
    | none => none
    | some close => some ([], { scan with html := close.drop 3 })
  else if netstackTagStarts html (ascii "script") then
    some ([], { scan with html := html.tail, inTag := true, inScript := true })
  else if netstackTagStarts html (ascii "style") then
    some ([], { scan with html := html.tail, inTag := true, inStyle := true })
  else
    some (tagText html, { scan with
      html := html.tail, inTag := true, lastSpace := tagSpace html scan.lastSpace })

/-- The pass at a character of the text. -/
def renderChar (scan : RenderScan) (ch : UInt8) (rest : Bytes) : Bytes × RenderScan :=
  match htmlEntities.find? fun entity => entity.1.isPrefixOf (ch :: rest) with
  | some entity => ([entity.2], { scan with html := (ch :: rest).drop entity.1.length })
  | none =>
      if ch == 13 then ([], { scan with html := rest })
      else if ch == 10 then ([10], { scan with html := rest, lastSpace := false })
      else if ch == 32 || ch == 9 then
        (if scan.lastSpace then [] else [32], { scan with html := rest, lastSpace := true })
      else ([ch], { scan with html := rest, lastSpace := false })

/-- What one pass of the loop prints and where it goes on, `none` where the loop ends. -/
def renderStep (scan : RenderScan) : Option (Bytes × RenderScan) :=
  match scan.html with
  | [] => none
  | ch :: rest =>
      if scan.inScript then
        match findText (ascii "</script") (ch :: rest) with
        | none => none
        | some close => some ([], { scan with html := close, inScript := false })
      else if scan.inStyle then
        match findText (ascii "</style") (ch :: rest) with
        | none => none
        | some close => some ([], { scan with html := close, inStyle := false })
      else if !scan.inTag && ch == 60 then renderTag scan (ch :: rest)
      else if scan.inTag then some ([], { scan with html := rest, inTag := ch != 62 })
      else some (renderChar scan ch rest)

/-- Text is passed, or a section is left. -/
def RenderScan.before (next scan : RenderScan) : Prop :=
  Prod.Lex (· < ·) (· < ·) (next.html.length, next.inScript.toNat + next.inStyle.toNat)
    (scan.html.length, scan.inScript.toNat + scan.inStyle.toNat)

theorem before_of_length_lt {next scan : RenderScan} (h : next.html.length < scan.html.length) :
    next.before scan :=
  Prod.Lex.left _ _ h

theorem before_of_suffix {next scan : RenderScan} (hhtml : next.html <:+ scan.html)
    (h : next.inScript.toNat + next.inStyle.toNat < scan.inScript.toNat + scan.inStyle.toNat) :
    next.before scan := by
  rcases hhtml.length_le.lt_or_eq with hlt | heq
  · exact before_of_length_lt hlt
  · rw [RenderScan.before, heq]
    exact Prod.Lex.right _ h

theorem renderTag_length {scan next : RenderScan} {ch : UInt8} {rest text : Bytes}
    (h : renderTag scan (ch :: rest) = some (text, next)) :
    next.html.length < (ch :: rest).length := by
  rw [renderTag] at h
  split at h
  · split at h
    · cases h
    · rename_i close hclose
      have hsuffix := (findText_suffix hclose).length_le
      have hprefix : 3 ≤ close.length := (findText_startsWith hclose).length_le
      cases h
      rw [List.length_drop]
      omega
  · split at h
    · cases h
      exact Nat.lt_succ_self _
    · split at h <;>
      · cases h
        exact Nat.lt_succ_self _

theorem entity_length_pos {entity : Bytes × UInt8} (h : entity ∈ htmlEntities) :
    0 < entity.1.length := by
  have hall : ∀ entity ∈ htmlEntities, 0 < entity.1.length := by decide
  exact hall entity h

theorem renderChar_length (scan : RenderScan) (ch : UInt8) (rest : Bytes) :
    (renderChar scan ch rest).2.html.length < (ch :: rest).length := by
  rw [renderChar]
  split
  · rename_i entity hentity
    have hpos := entity_length_pos (List.mem_of_find?_eq_some hentity)
    rw [List.length_drop, List.length_cons]
    omega
  · split_ifs <;> exact Nat.lt_succ_self _

theorem renderStep_before {scan next : RenderScan} {text : Bytes}
    (h : renderStep scan = some (text, next)) : next.before scan := by
  obtain ⟨html, inTag, inScript, inStyle, lastSpace⟩ := scan
  cases html with
  | nil => cases h
  | cons ch rest =>
    simp only [renderStep] at h
    split at h
    · rename_i hscript
      split at h
      · cases h
      · rename_i close hclose
        cases h
        exact before_of_suffix (findText_suffix hclose) (by simp [hscript])
    · split at h
      · rename_i hstyle
        split at h
        · cases h
        · rename_i close hclose
          cases h
          exact before_of_suffix (findText_suffix hclose) (by simp [hstyle])
      · split at h
        · exact before_of_length_lt (renderTag_length h)
        · split at h
          · cases h
            exact before_of_length_lt (Nat.lt_succ_self _)
          · have hchar := renderChar_length
              ⟨ch :: rest, inTag, inScript, inStyle, lastSpace⟩ ch rest
            rw [Option.some.inj h] at hchar
            exact before_of_length_lt hchar

/-- The loop of `netstack_render_html_body`. -/
def renderLoop (scan : RenderScan) (out : RenderOut n) : RenderOut n :=
  match _h : renderStep scan with
  | none => out
  | some (text, next) => renderLoop next (netstackAppendText out text)
termination_by (scan.html.length, scan.inScript.toNat + scan.inStyle.toNat)
decreasing_by exact renderStep_before _h

/-- What the loop prints. -/
def renderText (scan : RenderScan) : Bytes :=
  match _h : renderStep scan with
  | none => []
  | some (text, next) => text ++ renderText next
termination_by (scan.html.length, scan.inScript.toNat + scan.inStyle.toNat)
decreasing_by exact renderStep_before _h

/-- The scan outside of tags. -/
def RenderScan.outside (lastSpace : Bool) (html : Bytes) : RenderScan where
  html := html
  inTag := false
  inScript := false
  inStyle := false
  lastSpace := lastSpace

def netstackRenderHtmlBody (html : Bytes) (output : Buffer n) : Buffer n :=
  (renderLoop (.outside false html) ⟨output.write 0 [0], 0⟩).output

section Output

variable {scan next : RenderScan} {text : Bytes}

theorem renderText_of_none (h : renderStep scan = none) : renderText scan = [] := by
  rw [renderText]
  split
  · rfl
  · rename_i hsome
    rw [h] at hsome
    cases hsome

theorem renderText_of_some (h : renderStep scan = some (text, next)) :
    renderText scan = text ++ renderText next := by
  rw [renderText]
  split
  · rename_i hnone
    rw [h] at hnone
    cases hnone
  · rename_i hsome
    rw [h] at hsome
    cases hsome
    rfl

/-- The loop appends what it prints. -/
theorem renderLoop_eq (scan : RenderScan) (out : RenderOut n) :
    renderLoop scan out = netstackAppendText out (renderText scan) := by
  fun_induction renderLoop scan out with
  | case1 scan out h => rw [renderText_of_none h]; rfl
  | case2 scan out text next h ih =>
    rw [ih, renderText_of_some h, netstackAppendText, netstackAppendText, netstackAppendText,
      List.foldl_append]

/-- The output holds the text and its terminator. -/
def RenderOut.Holds (out : RenderOut n) (text : Bytes) : Prop :=
  out.index = text.length ∧ out.index < n ∧
    out.output.read 0 (out.index + 1) = text ++ [0]

theorem RenderOut.Holds.str {out : RenderOut n} (h : out.Holds text) :
    out.output.str = cString text := by
  have hsplit := List.take_append_drop (out.index + 1) out.output.cells
  have hread := h.2.2
  rw [Buffer.read, List.drop_zero] at hread
  rw [Buffer.str, ← hsplit, hread, List.append_assoc]
  exact cString_append_cons_nul text _

theorem appendChar_holds {out : RenderOut n} (h : out.Holds text) (ch : UInt8) :
    (netstackAppendChar out ch).Holds ((text ++ [ch]).take (n - 1)) := by
  obtain ⟨hindex, hlt, hread⟩ := h
  rw [netstackAppendChar]
  split
  · rename_i hfull
    rw [List.take_append_of_le_length (by omega), List.take_of_length_le (by omega)]
    exact ⟨hindex, hlt, hread⟩
  · have hkeep : out.output.read 0 out.index = text := by
      have htake := congrArg (List.take out.index) hread
      rw [Buffer.read, List.take_take, min_eq_left (by omega), hindex, List.take_left] at htake
      rw [Buffer.read, hindex, htake]
    have hchar := out.output.read_write_append out.index [ch]
      (by rw [List.length_singleton]; omega)
    have hnul := (out.output.write out.index [ch]).read_write_append (out.index + 1) [0]
      (by rw [List.length_singleton]; omega)
    rw [List.length_singleton] at hchar hnul
    rw [hchar, hkeep] at hnul
    rw [List.take_of_length_le (by simp only [List.length_append, List.length_singleton]; omega)]
    exact ⟨by simp [hindex], Nat.lt_of_not_le (by assumption), hnul⟩

theorem take_take_append (m : Nat) (front back : Bytes) :
    (front.take m ++ back).take m = (front ++ back).take m := by
  rw [List.take_append, List.take_append, List.take_take, min_self, List.length_take]
  congr 2
  omega

theorem appendText_holds {out : RenderOut n} {written : Bytes} (h : out.Holds written)
    (text : Bytes) : (netstackAppendText out text).Holds ((written ++ text).take (n - 1)) := by
  induction text generalizing out written with
  | nil =>
    have hindex := h.1
    have hlt := h.2.1
    rw [List.append_nil, List.take_of_length_le (by omega)]
    exact h
  | cons ch text ih =>
    have hstep := ih (appendChar_holds h ch)
    rwa [take_take_append, List.append_assoc, List.singleton_append] at hstep

/-- A rendering is what the loop prints, cut to the output. -/
theorem netstackRenderHtmlBody_str (html : Bytes) (output : Buffer n) (hn : 0 < n) :
    (netstackRenderHtmlBody html output).str =
      cString ((renderText (.outside false html)).take (n - 1)) := by
  have hstart : RenderOut.Holds (n := n) ⟨output.write 0 [0], 0⟩ [] :=
    ⟨rfl, hn, output.read_write_self (Nat.succ_le_of_lt hn)⟩
  rw [netstackRenderHtmlBody, renderLoop_eq, (appendText_holds hstart _).str, List.nil_append]

theorem netstackRenderHtmlBody_length (html : Bytes) (output : Buffer n) (hn : 0 < n) :
    (netstackRenderHtmlBody html output).str.length < n := by
  have hle := cString_length_le ((renderText (.outside false html)).take (n - 1))
  rw [netstackRenderHtmlBody_str html output hn]
  rw [List.length_take] at hle
  omega

theorem tagText_nulFree (html : Bytes) : NulFree (tagText html) := by
  rw [tagText]
  split_ifs <;> decide

/-- A pass prints no terminator and goes on within the page. -/
theorem renderTag_spec {html : Bytes} (h : renderTag scan html = some (text, next)) :
    next.html <:+ html ∧ NulFree text := by
  rw [renderTag] at h
  split at h
  · split at h
    · cases h
    · rename_i close hclose
      cases h
      exact ⟨(List.drop_suffix 3 close).trans (findText_suffix hclose), by decide⟩
  · split at h
    · cases h
      exact ⟨List.tail_suffix html, by decide⟩
    · split at h
      · cases h
        exact ⟨List.tail_suffix html, by decide⟩
      · cases h
        exact ⟨List.tail_suffix html, tagText_nulFree html⟩

theorem entity_nulFree {entity : Bytes × UInt8} (h : entity ∈ htmlEntities) :
    NulFree [entity.2] := by
  have hall : ∀ entity ∈ htmlEntities, NulFree [entity.2] := by decide
  exact hall entity h

theorem renderChar_spec (scan : RenderScan) {ch : UInt8} (hch : ch ≠ 0) (rest : Bytes) :
    (renderChar scan ch rest).2.html <:+ ch :: rest ∧ NulFree (renderChar scan ch rest).1 := by
  rw [renderChar]
  split
  · rename_i entity hentity
    exact ⟨List.drop_suffix _ _, entity_nulFree (List.mem_of_find?_eq_some hentity)⟩
  · have hrest : rest <:+ ch :: rest := List.suffix_cons ch rest
    have hnil : NulFree [] := List.not_mem_nil
    have hline : NulFree [10] := by decide
    have hspace : NulFree [32] := by decide
    have hself : NulFree [ch] := by simpa [NulFree] using hch.symm
    split_ifs
    · exact ⟨hrest, hnil⟩
    · exact ⟨hrest, hline⟩
    · exact ⟨hrest, hnil⟩
    · exact ⟨hrest, hspace⟩
    · exact ⟨hrest, hself⟩

theorem renderStep_spec (hnul : NulFree scan.html) (h : renderStep scan = some (text, next)) :
    next.html <:+ scan.html ∧ NulFree text := by
  obtain ⟨html, inTag, inScript, inStyle, lastSpace⟩ := scan
  cases html with
  | nil => cases h
  | cons ch rest =>
    have hch : ch ≠ 0 := fun hch => hnul (hch ▸ List.mem_cons_self)
    simp only [renderStep] at h
    split at h
    · split at h
      · cases h
      · rename_i close hclose
        cases h
        exact ⟨findText_suffix hclose, by decide⟩
    · split at h
      · split at h
        · cases h
        · rename_i close hclose
          cases h
          exact ⟨findText_suffix hclose, by decide⟩
      · split at h
        · exact renderTag_spec h
        · split at h
          · cases h
            exact ⟨List.suffix_cons ch rest, by decide⟩
          · have hchar := renderChar_spec
              ⟨ch :: rest, inTag, inScript, inStyle, lastSpace⟩ hch rest
            rwa [Option.some.inj h] at hchar

theorem renderText_nulFree (scan : RenderScan) (h : NulFree scan.html) :
    NulFree (renderText scan) := by
  fun_induction renderText scan with
  | case1 => exact List.not_mem_nil
  | case2 scan text next hstep ih =>
    have hspec := renderStep_spec h hstep
    exact hspec.2.append (ih (h.mono hspec.1.subset))

end Output

end SnsxOS.Arm64
