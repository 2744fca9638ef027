import Mathlib.Data.List.Induction
import Mathlib.Tactic

/-!
# The first distinct values

A table that takes a value when it does not have it yet and has room for it. After any run of
values it holds the first distinct ones, in the order of their first occurrence.
-/

namespace SnsxOS.Framework

variable {α : Type*} [BEq α] [LawfulBEq α]

def keepDistinct (cap : Nat) (kept : List α) (value : α) : List α :=
  if value ∈ kept then kept else if kept.length < cap then kept ++ [value] else kept

theorem eraseDups_concat (values : List α) (value : α) : (values ++ [value]).eraseDups =
    if value ∈ values then values.eraseDups else values.eraseDups ++ [value] := by
  rw [List.eraseDups_append]
  split
  · rename_i hmem
    have hnone : [value].removeAll values = [] := by simp [List.removeAll, hmem]
    rw [hnone, List.eraseDups_nil, List.append_nil]
  · rename_i hmem
    have hself : [value].removeAll values = [value] := by simp [List.removeAll, hmem]
    rw [hself, List.eraseDups_cons, List.filter_nil, List.eraseDups_nil]

/-- One more value keeps the table at the first distinct ones. -/
theorem keepDistinct_take (cap : Nat) (values : List α) (value : α) :
    keepDistinct cap (values.eraseDups.take cap) value =
      (values ++ [value]).eraseDups.take cap := by
  rw [keepDistinct, eraseDups_concat, List.length_take]
  by_cases hmem : value ∈ values
  · rw [if_pos hmem]
    split
    · rfl
    · rename_i hkept
      rw [if_neg]
      intro hroom
      rw [List.take_of_length_le (by omega)] at hkept
      exact hkept (List.mem_eraseDups.mpr hmem)
  · have hkept : value ∉ values.eraseDups.take cap := fun h =>
      hmem (List.mem_eraseDups.mp (List.mem_of_mem_take h))
    rw [if_neg hmem, if_neg hkept]
    split
    · rw [List.take_of_length_le (by omega), List.take_of_length_le]
      rw [List.length_append, List.length_singleton]
      omega
    · rw [List.take_append_of_le_length (by omega)]

theorem foldl_keepDistinct (cap : Nat) (values : List α) :
    values.foldl (keepDistinct cap) [] = values.eraseDups.take cap := by
  induction values using List.reverseRecOn with
  | nil => simp
  | append_singleton values value ih =>
    rw [List.foldl_append, ih, List.foldl_cons, List.foldl_nil, keepDistinct_take]

end SnsxOS.Framework
