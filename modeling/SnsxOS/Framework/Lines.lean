import Mathlib.Data.List.Basic
import Mathlib.Tactic

/-!
# Text as lines

A text is written as lines that each end in a separator and read as the parts between the
separators; a last part without separator is a line too. Reading gives back the lines that were
written when none of them holds the separator.
-/

namespace SnsxOS.Framework

variable {α : Type*} [DecidableEq α]

def linesOf (sep : α) : List α → List (List α)
  | [] => []
  | a :: text =>
      if a = sep then [] :: linesOf sep text
      else match linesOf sep text with
        | [] => [[a]]
        | line :: lines => (a :: line) :: lines

omit [DecidableEq α] in
/-- The lines one after another, each with its separator. -/
def unlines (sep : α) (lines : List (List α)) : List α := lines.flatMap fun line => line ++ [sep]

omit [DecidableEq α] in
theorem unlines_cons (sep : α) (line : List α) (lines : List (List α)) :
    unlines sep (line :: lines) = line ++ sep :: unlines sep lines := by
  simp [unlines]

omit [DecidableEq α] in
theorem unlines_append (sep : α) (lines lines' : List (List α)) :
    unlines sep (lines ++ lines') = unlines sep lines ++ unlines sep lines' :=
  List.flatMap_append

theorem linesOf_append {sep : α} {line : List α} (h : sep ∉ line) (text : List α) :
    linesOf sep (line ++ sep :: text) = line :: linesOf sep text := by
  induction line with
  | nil => simp [linesOf]
  | cons a line ih =>
    have ha : a ≠ sep := fun he => h (by simp [he])
    have hline : sep ∉ line := fun hm => h (List.mem_cons_of_mem a hm)
    simp [linesOf, ha, ih hline]

/-- The first line is cut off with its separator. -/
theorem linesOf_of_ne_nil {sep : α} {text : List α} (h : text ≠ []) :
    linesOf sep text = text.takeWhile (· != sep) ::
      linesOf sep (text.drop ((text.takeWhile (· != sep)).length + 1)) := by
  induction text with
  | nil => exact absurd rfl h
  | cons a text ih =>
    by_cases ha : a = sep
    · simp [linesOf, ha]
    · cases text with
      | nil => simp [linesOf, ha]
      | cons b text =>
        rw [linesOf, if_neg ha, ih (List.cons_ne_nil b text)]
        simp [ha]

theorem linesOf_unlines {sep : α} {lines : List (List α)} (h : ∀ line ∈ lines, sep ∉ line) :
    linesOf sep (unlines sep lines) = lines := by
  induction lines with
  | nil => rfl
  | cons line lines ih =>
    have hline := h line List.mem_cons_self
    have hlines := ih fun l hl => h l (List.mem_cons_of_mem line hl)
    rw [unlines_cons, linesOf_append hline, hlines]

/-- A line never holds the separator. -/
theorem not_mem_of_mem_linesOf {sep : α} {text line : List α} (h : line ∈ linesOf sep text) :
    sep ∉ line := by
  induction text generalizing line with
  | nil => simp [linesOf] at h
  | cons a text ih =>
    rw [linesOf] at h
    split at h
    · rcases List.mem_cons.mp h with rfl | h
      · simp
      · exact ih h
    · rename_i ha
      cases hlines : linesOf sep text with
      | nil =>
        obtain rfl : line = [a] := by simpa [hlines] using h
        simpa using Ne.symm ha
      | cons first lines =>
        rw [hlines] at h ih
        rcases List.mem_cons.mp h with rfl | h
        · simpa [Ne.symm ha] using ih List.mem_cons_self
        · exact ih (List.mem_cons_of_mem first h)

/-- Every character of a line is one of the text. -/
theorem mem_of_mem_linesOf {sep : α} {text line : List α} (h : line ∈ linesOf sep text) :
    line ⊆ text := by
  induction text generalizing line with
  | nil => simp [linesOf] at h
  | cons a text ih =>
    rw [linesOf] at h
    split at h
    · rcases List.mem_cons.mp h with rfl | h
      · simp
      · exact List.subset_cons_of_subset a (ih h)
    · cases hlines : linesOf sep text with
      | nil =>
        obtain rfl : line = [a] := by simpa [hlines] using h
        simp
      | cons first lines =>
        rw [hlines] at h ih
        rcases List.mem_cons.mp h with rfl | h
        · exact List.cons_subset_cons a (ih List.mem_cons_self)
        · exact List.subset_cons_of_subset a (ih (List.mem_cons_of_mem first h))

omit [DecidableEq α] in
theorem length_unlines (sep : α) (lines : List (List α)) :
    (unlines sep lines).length = (lines.map fun line => line.length + 1).sum := by
  simp [unlines, List.length_flatMap]

end SnsxOS.Framework
