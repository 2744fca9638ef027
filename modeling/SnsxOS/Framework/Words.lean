import Mathlib.Data.List.TakeWhile
import Mathlib.Tactic

/-!
# Words and the gaps between them

A text is read from the left: gaps are skipped, and a word goes up to the next gap. The words joined
by single separators are never longer than the text.
-/

namespace SnsxOS.Framework

variable {α : Type*} {gap : α → Bool}

/-- The stretches of a text that are not gaps. -/
def textWords (gap : α → Bool) (text : List α) : List (List α) :=
  (text.splitOnP gap).filter fun word => !word.isEmpty

/-- The words of a text in the order in which a scan meets them. -/
inductive Spaced (gap : α → Bool) : List α → List (List α) → Prop
  | blank {front : List α} (hfront : ∀ c ∈ front, gap c = true) : Spaced gap front []
  | last {front word : List α} (hfront : ∀ c ∈ front, gap c = true)
      (hword : ∀ c ∈ word, gap c = false) (hne : word ≠ []) : Spaced gap (front ++ word) [word]
  | more {front word rest : List α} {sep : α} {words : List (List α)}
      (hfront : ∀ c ∈ front, gap c = true) (hword : ∀ c ∈ word, gap c = false) (hne : word ≠ [])
      (hsep : gap sep = true) (h : Spaced gap rest words) :
      Spaced gap (front ++ (word ++ sep :: rest)) (word :: words)

section TextWords

variable {front word text : List α} {sep : α}

theorem textWords_nil : textWords gap [] = [] := by
  simp [textWords]

theorem textWords_gap (h : gap sep = true) (text : List α) :
    textWords gap (sep :: text) = textWords gap text := by
  have hsplit := List.splitOnP_append_cons [] text h
  rw [List.nil_append] at hsplit
  rw [textWords, hsplit, List.filter_append]
  simp [textWords]

theorem textWords_gaps (h : ∀ c ∈ front, gap c = true) (text : List α) :
    textWords gap (front ++ text) = textWords gap text := by
  induction front with
  | nil => rfl
  | cons c front ih =>
    rw [List.cons_append, textWords_gap (h c List.mem_cons_self)]
    exact ih fun c hc => h c (List.mem_cons_of_mem _ hc)

theorem textWords_word (hword : ∀ c ∈ word, gap c = false) (hne : word ≠ []) :
    textWords gap word = [word] := by
  rw [textWords, List.splitOnP_eq_singleton hword]
  simp [hne]

theorem textWords_word_append (hword : ∀ c ∈ word, gap c = false) (hne : word ≠ [])
    (hsep : gap sep = true) (text : List α) :
    textWords gap (word ++ sep :: text) = word :: textWords gap text := by
  have hfirst := textWords_word hword hne
  rw [textWords] at hfirst
  rw [textWords, List.splitOnP_append_cons word text hsep, List.filter_append, hfirst]
  rfl

theorem Spaced.textWords_eq {words : List (List α)} (h : Spaced gap text words) :
    textWords gap text = words := by
  induction h with
  | blank hfront =>
    have hgaps := textWords_gaps hfront []
    rw [List.append_nil, textWords_nil] at hgaps
    exact hgaps
  | last hfront hword hne => rw [textWords_gaps hfront, textWords_word hword hne]
  | more hfront hword hne hsep _ ih =>
    rw [textWords_gaps hfront, textWords_word_append hword hne hsep, ih]

/-- Every text has a reading, by induction on its length. -/
theorem exists_spaced (gap : α → Bool) (text : List α) : ∃ words, Spaced gap text words := by
  induction hlength : text.length using Nat.strong_induction_on generalizing text with
  | _ length ih =>
    have hfront : ∀ c ∈ text.takeWhile gap, gap c = true := fun c hc => List.mem_takeWhile_imp hc
    have htext := List.takeWhile_append_dropWhile (p := gap) (l := text)
    have hword : ∀ c ∈ (text.dropWhile gap).takeWhile (fun c => !gap c), gap c = false := by
      intro c hc
      simpa using List.mem_takeWhile_imp hc
    have hrest := List.takeWhile_append_dropWhile (p := fun c => !gap c) (l := text.dropWhile gap)
    by_cases hnil : text.dropWhile gap = []
    · rw [hnil, List.append_nil] at htext
      rw [← htext]
      exact ⟨[], .blank hfront⟩
    · have hne : (text.dropWhile gap).takeWhile (fun c => !gap c) ≠ [] := by
        cases hdrop : text.dropWhile gap with
        | nil => exact absurd hdrop hnil
        | cons c rest =>
          have hhead := List.head_dropWhile_not gap (l := text) (by simp [hdrop])
          simp only [hdrop, List.head_cons] at hhead
          simp [hhead]
      cases htail : (text.dropWhile gap).dropWhile (fun c => !gap c) with
      | nil =>
        rw [htail, List.append_nil] at hrest
        rw [← htext, ← hrest]
        exact ⟨_, .last hfront (hrest ▸ hword) (hrest ▸ hne)⟩
      | cons sep rest =>
        have hsep : gap sep = true := by
          have hhead := List.head_dropWhile_not (fun c => !gap c) (l := text.dropWhile gap)
            (by simp [htail])
          simpa [htail] using hhead
        rw [htail] at hrest
        have hshort : rest.length < length := by
          rw [← hlength, ← htext, ← hrest]
          simp only [List.length_append, List.length_cons]
          omega
        obtain ⟨words, hwords⟩ := ih rest.length hshort rest rfl
        refine ⟨(text.dropWhile gap).takeWhile (fun c => !gap c) :: words, ?_⟩
        have hmore := Spaced.more hfront hword hne hsep hwords
        rw [hrest, htext] at hmore
        exact hmore

theorem spaced_textWords (gap : α → Bool) (text : List α) :
    Spaced gap text (textWords gap text) := by
  obtain ⟨words, h⟩ := exists_spaced gap text
  rw [h.textWords_eq]
  exact h

end TextWords

section Joined

variable {words : List (List α)}

theorem length_intercalate (sep : α) (h : words ≠ []) :
    ([sep].intercalate words).length + 1 = (words.map fun word => word.length + 1).sum := by
  induction words with
  | nil => exact absurd rfl h
  | cons word words ih =>
    by_cases hnil : words = []
    · simp [hnil]
    · rw [List.intercalate_cons_of_ne_nil hnil, List.map_cons, List.sum_cons, ← ih hnil]
      simp only [List.length_append, List.length_cons, List.length_nil]
      omega

theorem Spaced.sum_length_le {text : List α} (h : Spaced gap text words) :
    (words.map fun word => word.length + 1).sum ≤ text.length + 1 := by
  induction h with
  | blank => simp
  | last => simp
  | more hfront hword hne hsep _ ih =>
    simp only [List.map_cons, List.sum_cons, List.length_append, List.length_cons]
    omega

/-- What is left of the words after the first few fits where the text fits. -/
theorem length_intercalate_drop_le (sep : α) (gap : α → Bool) (text : List α) (n : Nat) :
    ([sep].intercalate ((textWords gap text).drop n)).length ≤ text.length := by
  have hsum := (spaced_textWords gap text).sum_length_le
  have hsplit := congrArg (fun words => (words.map fun word => word.length + 1).sum)
    (List.take_append_drop n (textWords gap text))
  simp only [List.map_append, List.sum_append] at hsplit
  by_cases hnil : (textWords gap text).drop n = []
  · simp [hnil]
  · have hlength := length_intercalate sep hnil
    omega

theorem length_intercalate_take_le (sep : α) (words : List (List α)) (n : Nat) :
    ([sep].intercalate (words.take n)).length ≤ ([sep].intercalate words).length := by
  have hsplit := congrArg (fun words => (words.map fun word => word.length + 1).sum)
    (List.take_append_drop n words)
  simp only [List.map_append, List.sum_append] at hsplit
  by_cases htake : words.take n = []
  · simp [htake]
  · have hne : words ≠ [] := by
      intro hnil
      simp [hnil] at htake
    have hfew := length_intercalate sep htake
    have hall := length_intercalate sep hne
    omega

/-- Joined words are lost when some at the end are left out. -/
theorem intercalate_take_eq_iff (sep : α) (words : List (List α)) {n : Nat} (hn : 0 < n) :
    [sep].intercalate (words.take n) = [sep].intercalate words ↔ words.length ≤ n := by
  constructor
  · intro heq
    by_contra hlong
    have hne : words ≠ [] := by
      intro hnil
      simp [hnil] at hlong
    have htake : words.take n ≠ [] := by
      simp [hne]
      omega
    have hdrop : words.drop n ≠ [] := by
      rw [Ne, List.drop_eq_nil_iff]
      exact hlong
    have hsplit := congrArg (fun words => (words.map fun word => word.length + 1).sum)
      (List.take_append_drop n words)
    simp only [List.map_append, List.sum_append] at hsplit
    have hshort := length_intercalate sep htake
    have hlast := length_intercalate sep hdrop
    have hall := length_intercalate sep hne
    rw [heq] at hshort
    omega
  · intro h
    rw [List.take_of_length_le h]

end Joined

end SnsxOS.Framework
