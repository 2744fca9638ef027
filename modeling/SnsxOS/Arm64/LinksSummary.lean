import SnsxOS.Arm64.Links
import SnsxOS.Framework.Writer
import Mathlib.Data.List.DropRight

/-!
# The link summary of a page

A page ends with the numbered links of its table, as far as they fit. What is appended is guarded
by 16 bytes of slack, in place of the length of what goes around a link.
-/

namespace SnsxOS.Arm64

open Framework

def browserProtocols : List Bytes :=
  [ascii "https://", ascii "http://", ascii "snsx://", ascii "snsxnet://", ascii "snsxdiag://",
    ascii "snsx-id://"]

/-- What ends an address in running text: white space, and the characters `)]"',;|`. -/
def endsTextLink (ch : UInt8) : Bool :=
  [10, 13, 32, 9, 41, 93, 34, 39, 44, 59, 124].contains ch

/-- A full stop, a colon or a closing angle bracket, which the end of a sentence leaves behind. -/
def trimsTextLink (ch : UInt8) : Bool := ch == 46 || ch == 58 || ch == 62

/-- The address that a text starts with, in an array of `BROWSER_ADDRESS_MAX` bytes. -/
def textLink (text : Bytes) : Bytes :=
  ((text.takeWhile fun ch => !endsTextLink ch).take (browserAddressMax - 1)).rdropWhile trimsTextLink

def addTextLinks (links : List Bytes) (text : Bytes) : List Bytes :=
  browserProtocols.foldl (fun links protocol =>
    if protocol.isPrefixOf text then browserLinksAdd links (textLink text) else links) links

def browserExtractTextLinks (links : List Bytes) : Bytes → List Bytes
  | [] => links
  | ch :: text => browserExtractTextLinks (addTextLinks links (ch :: text)) text

def linksHeading : Bytes := ascii "\n\nLinks\n-----\n"

/-- The loop of `browser_append_links_summary` from a link of the table on. There is no result where
a text leaves its array. -/
def appendLinkLines {n : Nat} (page : Buffer n) (i : Nat) : List Bytes → Option (Buffer n)
  | [] => some page
  | link :: links =>
      let number := u32ToDec (UInt32.ofNat (i + 1))
      if number.length + 1 > 8 then none
      else if page.str.length + link.length + 16 ≥ n then some page
      else
        (page.strcatAll [ascii "[", number, ascii "] ", link, ascii "\n"]).bind fun page =>
          appendLinkLines page (i + 1) links

def browserAppendLinksSummary {n : Nat} (page : Buffer n) (links : List Bytes) :
    Option (Buffer n) :=
  if n = 0 ∨ links = [] then some page
  else if page.str.length + 16 ≥ n then some page
  else (page.strcatAll [linksHeading]).bind fun page => appendLinkLines page 0 links

/-- The page and the table of its links. -/
def browserFinalizePage {n : Nat} (page : Buffer n) (links : List Bytes) :
    Option (Buffer n × List Bytes) :=
  if page.str = [] then some (page, links)
  else
    let links := if links = [] then browserExtractTextLinks links page.str else links
    if links ≠ [] ∧ findText linksHeading page.str = none then
      (browserAppendLinksSummary page links).map fun page => (page, links)
    else some (page, links)

/-- A table of at most `BROWSER_LINK_MAX` strings that fit their rows. -/
structure LinkTable (links : List Bytes) : Prop where
  count_le : links.length ≤ browserLinkMax
  row : ∀ link ∈ links, NulFree link ∧ link.length < browserAddressMax

/-- The lines of some links, numbered from `i + 1` on. -/
def linkLines (i : Nat) : List Bytes → Bytes
  | [] => []
  | link :: links =>
      ascii "[" ++ u32ToDec (UInt32.ofNat (i + 1)) ++ ascii "] " ++ link ++ ascii "\n" ++
        linkLines (i + 1) links

/-- A page as it was, or with the heading and the lines of the first links behind its text. -/
def Summarised (text : Bytes) (links : List Bytes) (text' : Bytes) : Prop :=
  text' = text ∨ ∃ k, text' = text ++ linksHeading ++ linkLines 0 (links.take k)

section Table

theorem browserLinksAdd_table {links : List Bytes} (h : LinkTable links) {address : Bytes}
    (haddress : NulFree address) : LinkTable (browserLinksAdd links address) := by
  rw [browserLinksAdd]
  split
  · exact h
  · split
    · exact h
    · constructor
      · exact appendRow_le address h.count_le
      · intro link hlink
        rw [appendRow] at hlink
        split at hlink
        · cases List.mem_append.mp hlink with
          | inl hold => exact h.row link hold
          | inr hnew =>
            rw [List.mem_singleton.mp hnew]
            exact ⟨haddress.take _, length_strcopyLimit_lt address (by decide)⟩
        · exact h.row link hlink

theorem textLink_nulFree {text : Bytes} (h : NulFree text) : NulFree (textLink text) := by
  apply h.mono
  intro ch hch
  have htaken := (List.rdropWhile_prefix _ _).subset hch
  exact (List.takeWhile_prefix _).subset (List.mem_of_mem_take htaken)

theorem addTextLinks_table {links : List Bytes} (h : LinkTable links) {text : Bytes}
    (htext : NulFree text) : LinkTable (addTextLinks links text) := by
  rw [addTextLinks]
  induction browserProtocols generalizing links with
  | nil => exact h
  | cons protocol protocols ih =>
    rw [List.foldl_cons]
    apply ih
    split
    · exact browserLinksAdd_table h (textLink_nulFree htext)
    · exact h

theorem browserExtractTextLinks_table {links : List Bytes} (h : LinkTable links) {text : Bytes}
    (htext : NulFree text) : LinkTable (browserExtractTextLinks links text) := by
  induction text generalizing links with
  | nil => exact h
  | cons ch text ih =>
    have hrest : NulFree text := fun hmem => htext (List.mem_cons_of_mem ch hmem)
    exact ih (addTextLinks_table h htext) hrest

end Table

section Summary

variable {n : Nat} {page : Buffer n} {links : List Bytes}

theorem length_number_le {i : Nat} (h : i < 99) :
    (u32ToDec (UInt32.ofNat (i + 1))).length ≤ 2 := by
  apply length_u32ToDec_le (by decide)
  rw [UInt32.toNat_ofNat', Nat.mod_eq_of_lt (by omega)]
  omega

theorem u32ToDec_nulFree (value : UInt32) : NulFree (u32ToDec value) := (u32ToDec_line value).1

/-- The lines of the first links are appended, up to one that does not fit. -/
theorem appendLinkLines_spec {i : Nat} (hpage : page.str.length < n)
    (hlinks : ∀ link ∈ links, NulFree link) (hcount : i + links.length < 99) :
    ∃ page' k, appendLinkLines page i links = some page' ∧
      page'.str = page.str ++ linkLines i (links.take k) ∧ page'.str.length < n := by
  induction links generalizing page i with
  | nil => exact ⟨page, 0, rfl, (List.append_nil _).symm, hpage⟩
  | cons link links ih =>
    rw [List.length_cons] at hcount
    have hnumber : (u32ToDec (UInt32.ofNat (i + 1))).length ≤ 2 := length_number_le (by omega)
    rw [appendLinkLines]
    rw [if_neg (by omega)]
    split
    · exact ⟨page, 0, rfl, (List.append_nil _).symm, hpage⟩
    · rename_i hroom
      have htexts : ∀ text ∈ [ascii "[", u32ToDec (UInt32.ofNat (i + 1)), ascii "] ", link,
          ascii "\n"], NulFree text := by
        simp only [List.forall_mem_cons, List.not_mem_nil, false_implies, implies_true, and_true]
        exact ⟨by decide, u32ToDec_nulFree _, by decide, hlinks link List.mem_cons_self, by decide⟩
      have hlength : [ascii "[", u32ToDec (UInt32.ofNat (i + 1)), ascii "] ", link,
          ascii "\n"].flatten.length ≤ link.length + 6 := by
        have hopen : (ascii "[").length = 1 := by decide
        have hclose : (ascii "] ").length = 2 := by decide
        have hend : (ascii "\n").length = 1 := by decide
        simp only [List.flatten_cons, List.flatten_nil, List.append_nil, List.length_append]
        omega
      obtain ⟨filled, hfill, hstr⟩ := page.strcatAll_str htexts (by omega)
      have hfilled : filled.str.length < n := by
        rw [hstr, List.length_append]
        omega
      have hrest : ∀ other ∈ links, NulFree other :=
        fun other hother => hlinks other (List.mem_cons_of_mem link hother)
      have hnext : i + 1 + links.length < 99 := by omega
      obtain ⟨page', k, hrun, hlines, hshort⟩ := ih hfilled hrest hnext
      refine ⟨page', k + 1, ?_, ?_, hshort⟩
      · rw [hfill, Option.bind_some, hrun]
      · rw [hlines, hstr, List.take_succ_cons, linkLines]
        simp

theorem browserAppendLinksSummary_spec (hpage : page.str.length < n) (hlinks : LinkTable links) :
    ∃ page', browserAppendLinksSummary page links = some page' ∧
      Summarised page.str links page'.str ∧ page'.str.length < n := by
  rw [browserAppendLinksSummary]
  split
  · exact ⟨page, rfl, Or.inl rfl, hpage⟩
  · split
    · exact ⟨page, rfl, Or.inl rfl, hpage⟩
    · rename_i hroom
      have hheading : [linksHeading].flatten = linksHeading := by simp
      have hlength : linksHeading.length = 14 := by decide
      have htexts : ∀ text ∈ [linksHeading], NulFree text := by
        intro text htext
        rw [List.mem_singleton.mp htext]
        decide
      obtain ⟨headed, hhead, hstr⟩ := page.strcatAll_str htexts (by rw [hheading]; omega)
      rw [hheading] at hstr
      have hheaded : headed.str.length < n := by
        rw [hstr, List.length_append]
        omega
      have hcount := hlinks.count_le
      rw [browserLinkMax] at hcount
      obtain ⟨page', k, hrun, hlines, hshort⟩ := appendLinkLines_spec (i := 0) hheaded
        (fun link hlink => (hlinks.row link hlink).1) (by omega)
      refine ⟨page', ?_, Or.inr ⟨k, ?_⟩, hshort⟩
      · rw [hhead, Option.bind_some, hrun]
      · rw [hlines, hstr]

theorem browserFinalizePage_spec (hpage : page.str.length < n) (hlinks : LinkTable links) :
    ∃ page' links', browserFinalizePage page links = some (page', links') ∧ LinkTable links' ∧
      Summarised page.str links' page'.str ∧ page'.str.length < n := by
  rw [browserFinalizePage]
  split
  · exact ⟨page, links, rfl, hlinks, Or.inl rfl, hpage⟩
  · have htable : LinkTable
        (if links = [] then browserExtractTextLinks links page.str else links) := by
      split
      · exact browserExtractTextLinks_table hlinks page.str_nulFree
      · exact hlinks
    dsimp only
    generalize (if links = [] then browserExtractTextLinks links page.str else links) = links'
      at htable ⊢
    split
    · obtain ⟨page', hrun, hsum, hshort⟩ := browserAppendLinksSummary_spec hpage htable
      exact ⟨page', links', by rw [hrun, Option.map_some], htable, hsum, hshort⟩
    · exact ⟨page, links', rfl, htable, Or.inl rfl, hpage⟩

/-- Appending the summary and finishing a page stay in its array and leave its text in front. -/
theorem linksSummary_inBounds (hpage : page.str.length < n) (hlinks : LinkTable links) :
    (∃ page', browserAppendLinksSummary page links = some page' ∧
      Summarised page.str links page'.str ∧ page'.str.length < n) ∧
    ∃ page' links', browserFinalizePage page links = some (page', links') ∧ LinkTable links' ∧
      Summarised page.str links' page'.str ∧ page'.str.length < n :=
  ⟨browserAppendLinksSummary_spec hpage hlinks, browserFinalizePage_spec hpage hlinks⟩

end Summary

/-- A page with one word. -/
def homePage : Buffer 64 := (Buffer.zero 64).strcpy (ascii "Home")

theorem linksSummary_inBounds_home :
    (∃ page', browserAppendLinksSummary homePage [ascii "snsx://home"] = some page' ∧
      Summarised homePage.str [ascii "snsx://home"] page'.str ∧ page'.str.length < 64) ∧
    ∃ page' links', browserFinalizePage homePage [ascii "snsx://home"] =
      some (page', links') ∧ LinkTable links' ∧
      Summarised homePage.str links' page'.str ∧ page'.str.length < 64 :=
  linksSummary_inBounds (by decide) ⟨by decide, by decide⟩

end SnsxOS.Arm64
