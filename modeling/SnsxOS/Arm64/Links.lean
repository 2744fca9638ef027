import SnsxOS.Arm64.Browser
import SnsxOS.Framework.FirstDistinct

/-!
# The links of a page

`browser_extract_html_links` copies the quoted value behind each `href=` to a buffer of
`BROWSER_ADDRESS_MAX` bytes and goes on where the copy stopped: at the closing quote, at the end
of the page, or in the middle of the value when the buffer is full.

A value is told from others by the place in the page where it starts, so that a scan which reads
the same values is one that reads them in the same places.
-/

namespace SnsxOS.Arm64

open Framework

def browserLinkMax : Nat := 16

def browserLinksAdd (links : List Bytes) (address : Bytes) : List Bytes :=
  if address = [] then links
  else if links.contains address then links
  else appendRow browserLinkMax browserAddressMax links address

def isQuote (ch : UInt8) : Bool := ch == 34 || ch == 39

/-- What fits the copy of a quoted value. -/
def copiedLink (quote : UInt8) (href : Bytes) : Bytes :=
  (href.takeWhile (· != quote)).take (browserAddressMax - 1)

/-- The page behind the next `href=`. -/
def nextHref (html : Bytes) : Option Bytes :=
  match findText (ascii "href=") html with
  | none => none
  | some href => some (href.drop 5)

theorem nextHref_length {html href : Bytes} (h : nextHref html = some href) :
    href.length < html.length := by
  rw [nextHref] at h
  split at h
  · cases h
  · rename_i found hfound
    cases h
    have hsuffix := (findText_suffix hfound).length_le
    have hprefix : 5 ≤ found.length := (findText_startsWith hfound).length_le
    rw [List.length_drop]
    omega

def browserExtractHtmlLinks (html : Bytes) (links : List Bytes) : List Bytes :=
  match _h : nextHref html with
  | none => links
  | some [] => links
  | some (quote :: href) =>
      if isQuote quote then
        let link := copiedLink quote href
        browserExtractHtmlLinks (href.drop link.length)
          (if link = [] then links else browserLinksAdd links link)
      else browserExtractHtmlLinks (quote :: href) links
termination_by html.length
decreasing_by
  · have hlength := nextHref_length _h
    rw [List.length_cons] at hlength
    rw [List.length_drop]
    omega
  · exact nextHref_length _h

/-- The values that the scan hands on, each with the page from its start on. -/
def linkReads (html : Bytes) : List (Bytes × Bytes) :=
  match _h : nextHref html with
  | none => []
  | some [] => []
  | some (quote :: href) =>
      if isQuote quote then
        let link := copiedLink quote href
        (if link = [] then [] else [(href, link)]) ++ linkReads (href.drop link.length)
      else linkReads (quote :: href)
termination_by html.length
decreasing_by
  · have hlength := nextHref_length _h
    rw [List.length_cons] at hlength
    rw [List.length_drop]
    omega
  · exact nextHref_length _h

/-- A quoted `href`: the page behind its opening quote, and the quote. -/
structure HrefAttribute where
  place : Bytes
  quote : UInt8

/-- The value up to the closing quote, or to the end of the page. -/
def HrefAttribute.value (a : HrefAttribute) : Bytes := a.place.takeWhile (· != a.quote)

def HrefAttribute.Closed (a : HrefAttribute) : Prop := a.quote ∈ a.place

instance (a : HrefAttribute) : Decidable a.Closed := inferInstanceAs (Decidable (_ ∈ _))

/-- The quoted values of a page, whole. -/
def hrefAttributes (html : Bytes) : List HrefAttribute :=
  match _h : nextHref html with
  | none => []
  | some [] => []
  | some (quote :: href) =>
      if isQuote quote then ⟨href, quote⟩ :: hrefAttributes (href.dropWhile (· != quote))
      else hrefAttributes (quote :: href)
termination_by html.length
decreasing_by
  · have hlength := nextHref_length _h
    have hrest := (List.dropWhile_suffix (l := href) (· != quote)).length_le
    rw [List.length_cons] at hlength
    omega
  · exact nextHref_length _h

/-- An attribute has its closing quote, and its value fits a row of the table. -/
def HrefAttribute.Fits (a : HrefAttribute) : Prop :=
  a.Closed ∧ a.value.length < browserAddressMax

instance (a : HrefAttribute) : Decidable a.Fits := inferInstanceAs (Decidable (_ ∧ _))

/-- The attributes with a link to record. -/
def linkAttributes (html : Bytes) : List HrefAttribute :=
  (hrefAttributes html).filter fun a => a.value ≠ [] ∧ a.Fits

/-- The table has the first distinct links of a page. No value is handed on that is not a whole
one, read from its start. -/
def RecordsWholeLinks (html : Bytes) : Prop :=
  browserExtractHtmlLinks html [] =
      ((linkAttributes html).map HrefAttribute.value).eraseDups.take browserLinkMax ∧
    linkReads html = (linkAttributes html).map fun a => (a.place, a.value)

section Scan

variable {html href : Bytes} {quote : UInt8}

/-- Adding to the table is keeping one more distinct link. -/
theorem browserLinksAdd_eq {links : List Bytes} {link : Bytes} (hne : link ≠ [])
    (hlink : link.length < browserAddressMax) :
    browserLinksAdd links link = keepDistinct browserLinkMax links link := by
  simp only [browserLinksAdd, if_neg hne, keepDistinct, appendRow, strcopyLimit_of_lt hlink,
    List.contains_iff_mem]

theorem copiedLink_length (quote : UInt8) (href : Bytes) :
    (copiedLink quote href).length < browserAddressMax := by
  rw [copiedLink, List.length_take, browserAddressMax]
  omega

theorem linkReads_of_none (h : nextHref html = none) : linkReads html = [] := by
  rw [linkReads]
  split <;> simp_all

theorem linkReads_of_nil (h : nextHref html = some []) : linkReads html = [] := by
  rw [linkReads]
  split <;> simp_all

theorem linkReads_of_quote (h : nextHref html = some (quote :: href))
    (hquote : isQuote quote = true) : linkReads html =
      (if copiedLink quote href = [] then [] else [(href, copiedLink quote href)]) ++
        linkReads (href.drop (copiedLink quote href).length) := by
  rw [linkReads]
  split <;> simp_all

theorem linkReads_of_not_quote (h : nextHref html = some (quote :: href))
    (hquote : ¬ isQuote quote = true) : linkReads html = linkReads (quote :: href) := by
  rw [linkReads]
  split <;> simp_all

/-- The table is filled with what the scan hands on. -/
theorem browserExtractHtmlLinks_eq (html : Bytes) (links : List Bytes) :
    browserExtractHtmlLinks html links =
      ((linkReads html).map Prod.snd).foldl (keepDistinct browserLinkMax) links := by
  fun_induction browserExtractHtmlLinks html links with
  | case1 html links h => rw [linkReads_of_none h]; rfl
  | case2 html links h => rw [linkReads_of_nil h]; rfl
  | case3 html links quote href h hquote link ih =>
    simp only [dite_eq_ite] at ih
    rw [linkReads_of_quote h hquote, ih]
    split
    · rfl
    · rename_i hne
      rw [List.singleton_append, List.map_cons, List.foldl_cons,
        ← browserLinksAdd_eq hne (copiedLink_length quote href)]
  | case4 html links quote href h hquote ih => rw [linkReads_of_not_quote h hquote, ih]

theorem hrefAttributes_of_none (h : nextHref html = none) : hrefAttributes html = [] := by
  rw [hrefAttributes]
  split <;> simp_all

theorem hrefAttributes_of_nil (h : nextHref html = some []) : hrefAttributes html = [] := by
  rw [hrefAttributes]
  split <;> simp_all

theorem hrefAttributes_of_quote (h : nextHref html = some (quote :: href))
    (hquote : isQuote quote = true) :
    hrefAttributes html = ⟨href, quote⟩ :: hrefAttributes (href.dropWhile (· != quote)) := by
  rw [hrefAttributes]
  split <;> simp_all

theorem hrefAttributes_of_not_quote (h : nextHref html = some (quote :: href))
    (hquote : ¬ isQuote quote = true) :
    hrefAttributes html = hrefAttributes (quote :: href) := by
  rw [hrefAttributes]
  split <;> simp_all

theorem place_length {a : HrefAttribute} (h : a ∈ hrefAttributes html) :
    a.place.length < html.length := by
  fun_induction hrefAttributes html with
  | case1 => cases h
  | case2 => cases h
  | case3 html quote href hnext hquote ih =>
    have hlength := nextHref_length hnext
    rw [List.length_cons] at hlength
    rcases List.mem_cons.mp h with rfl | hrest
    · dsimp only
      omega
    · have hle := (List.dropWhile_suffix (l := href) (· != quote)).length_le
      have hlt := ih hrest
      omega
  | case4 html quote href hnext hquote ih =>
    exact (ih h).trans (nextHref_length hnext)

/-- A value that fits is copied whole, and the scan goes on behind it. -/
theorem copiedLink_of_short (h : (href.takeWhile (· != quote)).length < browserAddressMax) :
    copiedLink quote href = href.takeWhile (· != quote) ∧
      href.drop (copiedLink quote href).length = href.dropWhile (· != quote) := by
  have hwhole : copiedLink quote href = href.takeWhile (· != quote) :=
    List.take_of_length_le (by omega)
  have hsplit := List.takeWhile_append_dropWhile (p := (· != quote)) (l := href)
  refine ⟨hwhole, ?_⟩
  rw [hwhole]
  nth_rewrite 2 [← hsplit]
  exact List.drop_left

theorem copiedLink_eq_nil : copiedLink quote href = [] ↔ href.takeWhile (· != quote) = [] := by
  rw [copiedLink, List.take_eq_nil_iff, browserAddressMax]
  simp

theorem linkAttributes_of_quote (h : nextHref html = some (quote :: href))
    (hquote : isQuote quote = true) : linkAttributes html =
      if HrefAttribute.value ⟨href, quote⟩ ≠ [] ∧ HrefAttribute.Fits ⟨href, quote⟩ then
        ⟨href, quote⟩ :: linkAttributes (href.dropWhile (· != quote))
      else linkAttributes (href.dropWhile (· != quote)) := by
  rw [linkAttributes, hrefAttributes_of_quote h hquote, List.filter_cons]
  simp only [decide_eq_true_eq]
  rfl

/-- No other attribute of the page starts where this one does. -/
theorem place_not_mem (h : nextHref html = some (quote :: href)) (hquote : isQuote quote = true)
    (hfits : ¬ HrefAttribute.Fits ⟨href, quote⟩) {a : HrefAttribute}
    (ha : a ∈ linkAttributes html) : a.place ≠ href := by
  intro hplace
  rw [linkAttributes_of_quote h hquote, if_neg (fun hlink => hfits hlink.2)] at ha
  have hlength := place_length (List.mem_filter.mp ha).1
  have hle := (List.dropWhile_suffix (l := href) (· != quote)).length_le
  rw [hplace] at hlength
  omega

/-- The scan hands on the links of a page exactly when every value that is not empty fits. -/
theorem linkReads_eq_iff (html : Bytes) :
    linkReads html = (linkAttributes html).map (fun a => (a.place, a.value)) ↔
      ∀ a ∈ hrefAttributes html, a.value ≠ [] → a.Fits := by
  fun_induction linkReads html with
  | case1 html hnext => simp [linkAttributes, hrefAttributes_of_none hnext]
  | case2 html hnext => simp [linkAttributes, hrefAttributes_of_nil hnext]
  | case3 html quote href hnext hquote link ih =>
    rw [hrefAttributes_of_quote hnext hquote, List.forall_mem_cons]
    by_cases hvalue : HrefAttribute.value ⟨href, quote⟩ = []
    · have hlink : link = [] := copiedLink_eq_nil.mpr hvalue
      have hshort : (HrefAttribute.value ⟨href, quote⟩).length < browserAddressMax := by
        rw [hvalue]
        decide
      have hcopy := copiedLink_of_short hshort
      rw [hcopy.2] at ih
      rw [if_pos hlink, List.nil_append, hcopy.2, linkAttributes_of_quote hnext hquote,
        if_neg (fun h => h.1 hvalue), ih]
      simp [hvalue]
    · have hlink : ¬ link = [] := fun h => hvalue (copiedLink_eq_nil.mp h)
      rw [if_neg hlink, List.singleton_append]
      by_cases hfits : HrefAttribute.Fits ⟨href, quote⟩
      · have hcopy := copiedLink_of_short hfits.2
        rw [hcopy.2] at ih
        rw [hcopy.2, linkAttributes_of_quote hnext hquote, if_pos ⟨hvalue, hfits⟩, List.map_cons,
          ← ih]
        simp [hfits, link, hcopy.1, HrefAttribute.value]
      · -- the values differ in the first place
        constructor
        · intro h
          have hmem : (href, link) ∈ (linkAttributes html).map fun a => (a.place, a.value) :=
            h ▸ List.mem_cons_self
          obtain ⟨a, ha, heq⟩ := List.mem_map.mp hmem
          exact absurd (congrArg Prod.fst heq) (place_not_mem hnext hquote hfits ha)
        · intro h
          exact absurd (h.1 hvalue) hfits
  | case4 html quote href hnext hquote ih =>
    rw [linkAttributes, hrefAttributes_of_not_quote hnext hquote]
    exact ih

end Scan

/-- The table has the first distinct values that the scan hands on. -/
theorem browserExtractHtmlLinks_table (html : Bytes) : browserExtractHtmlLinks html [] =
    ((linkReads html).map Prod.snd).eraseDups.take browserLinkMax := by
  rw [browserExtractHtmlLinks_eq, foldl_keepDistinct]

/-- Whole links are recorded exactly when every value of the page that is not empty has its closing
quote and fits a row of the table. -/
theorem browserExtractHtmlLinks_whole_iff (html : Bytes) :
    RecordsWholeLinks html ↔ ∀ a ∈ hrefAttributes html, a.value ≠ [] → a.Fits := by
  rw [← linkReads_eq_iff]
  constructor
  · intro h
    exact h.2
  · intro h
    have hvalues : (linkReads html).map Prod.snd =
        (linkAttributes html).map HrefAttribute.value := by
      rw [h, List.map_map]
      rfl
    exact ⟨by rw [browserExtractHtmlLinks_table, hvalues], h⟩

/-- A link of 192 characters. -/
def longLinkPage : Bytes := ascii "href=\"" ++ List.replicate 192 97 ++ [34]

theorem not_browserExtractHtmlLinks_whole : ¬ ∀ html : Bytes, RecordsWholeLinks html := by
  intro h
  have hnext : nextHref longLinkPage = some (34 :: (List.replicate 192 97 ++ [34])) := rfl
  have hfits := (linkReads_eq_iff longLinkPage).mp (h longLinkPage).2
  rw [hrefAttributes_of_quote hnext rfl, List.forall_mem_cons] at hfits
  have hvalue : HrefAttribute.value ⟨List.replicate 192 97 ++ [34], 34⟩ =
      List.replicate 192 97 := by
    rw [HrefAttribute.value, List.takeWhile_append_of_pos]
    · exact List.append_nil _
    · intro c hc
      rw [List.eq_of_mem_replicate hc]
      rfl
  have hshort := (hfits.1 (by rw [hvalue]; exact List.cons_ne_nil _ _)).2
  rw [hvalue, List.length_replicate] at hshort
  exact absurd hshort (by decide)

end SnsxOS.Arm64
