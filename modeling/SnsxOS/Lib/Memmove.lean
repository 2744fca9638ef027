import SnsxOS.Framework.Writer

/-!
# Overlapping copies

`memmove` copies byte by byte, upwards when the destination lies before the source and downwards
when it lies behind it. An access outside the array has no result. Inside the array the copy is
what a copy through a second array would be.
-/

namespace SnsxOS

open Framework

/-- `d[i] = s[i]` from an index on, upwards; the count is that of the bytes left. -/
def copyUp (cells : Bytes) (dest src : Nat) : Nat → Option Bytes
  | 0 => some cells
  | n + 1 => (cells[src]?).bind fun byte =>
      (store cells dest [byte]).bind fun cells => copyUp cells (dest + 1) (src + 1) n

/-- `d[i - 1] = s[i - 1]`, downwards. -/
def copyDown (cells : Bytes) (dest src : Nat) : Nat → Option Bytes
  | 0 => some cells
  | n + 1 => (cells[src + n]?).bind fun byte =>
      (store cells (dest + n) [byte]).bind fun cells => copyDown cells dest src n

/-- `memmove` from one index of an array to another. -/
def memmove (cells : Bytes) (dest src n : Nat) : Option Bytes :=
  if dest = src ∨ n = 0 then some cells
  else if dest < src then copyUp cells dest src n
  else copyDown cells dest src n

section Copy

variable {cells : Bytes} {dest src n : Nat}

theorem store_singleton {index : Nat} (h : index < cells.length) (byte : UInt8) :
    store cells index [byte] = some (cells.set index byte) := by
  rw [store, List.length_singleton, if_pos (by omega), List.set_eq_take_append_cons_drop, if_pos h,
    List.append_assoc, List.singleton_append]

/-- The array after a copy, cell by cell. -/
structure Copied (cells : Bytes) (dest src n : Nat) (cells' : Bytes) : Prop where
  length : cells'.length = cells.length
  cell : ∀ i, cells'[i]? =
    if dest ≤ i ∧ i < dest + n then cells[src + (i - dest)]? else cells[i]?

theorem copyUp_copied (horder : dest ≤ src) (hsrc : src + n ≤ cells.length) :
    ∃ cells', copyUp cells dest src n = some cells' ∧ Copied cells dest src n cells' := by
  induction n generalizing cells dest src with
  | zero =>
    refine ⟨cells, rfl, rfl, fun i => ?_⟩
    rw [if_neg (by omega)]
  | succ n ih =>
    have hbyte : cells[src]? = some cells[src] := List.getElem?_eq_getElem (by omega)
    have hset : src + 1 + n ≤ (cells.set dest cells[src]).length := by
      rw [List.length_set]
      omega
    obtain ⟨cells', hcopy, hlength, hcell⟩ := ih (show dest + 1 ≤ src + 1 by omega) hset
    refine ⟨cells', ?_, by rw [hlength, List.length_set], fun i => ?_⟩
    · rw [copyUp, hbyte, Option.bind_some, store_singleton (by omega), Option.bind_some, hcopy]
    · rw [hcell i]
      by_cases hi : i = dest
      · rw [hi, if_neg (by omega), if_pos (by omega), List.getElem?_set_self (by omega),
          Nat.sub_self, Nat.add_zero, hbyte]
      · have hshift : src + 1 + (i - (dest + 1)) ≠ dest := by omega
        rw [List.getElem?_set_ne (Ne.symm hshift), List.getElem?_set_ne (Ne.symm hi)]
        by_cases hrange : dest + 1 ≤ i ∧ i < dest + 1 + n
        · have hindex : src + 1 + (i - (dest + 1)) = src + (i - dest) := by omega
          rw [if_pos hrange, if_pos (by omega), hindex]
        · rw [if_neg hrange, if_neg (by omega)]

theorem copyDown_copied (horder : src ≤ dest) (hdest : dest + n ≤ cells.length) :
    ∃ cells', copyDown cells dest src n = some cells' ∧ Copied cells dest src n cells' := by
  induction n generalizing cells with
  | zero =>
    refine ⟨cells, rfl, rfl, fun i => ?_⟩
    rw [if_neg (by omega)]
  | succ n ih =>
    have hbyte : cells[src + n]? = some cells[src + n] := List.getElem?_eq_getElem (by omega)
    have hset : dest + n ≤ (cells.set (dest + n) cells[src + n]).length := by
      rw [List.length_set]
      omega
    obtain ⟨cells', hcopy, hlength, hcell⟩ := ih hset
    refine ⟨cells', ?_, by rw [hlength, List.length_set], fun i => ?_⟩
    · rw [copyDown, hbyte, Option.bind_some, store_singleton (by omega), Option.bind_some, hcopy]
    · rw [hcell i]
      by_cases hi : i = dest + n
      · have hindex : src + (i - dest) = src + n := by omega
        rw [if_neg (by omega), if_pos (by omega), hindex, hbyte, hi,
          List.getElem?_set_self (by omega)]
      · rw [List.getElem?_set_ne (Ne.symm hi)]
        by_cases hrange : dest ≤ i ∧ i < dest + n
        · rw [if_pos hrange, if_pos (by omega), List.getElem?_set_ne (by omega)]
        · rw [if_neg hrange, if_neg (by omega)]

/-- The array with a part of it copied over another one. -/
theorem Copied.eq_append {cells' : Bytes} (h : Copied cells dest src n cells')
    (hsrc : src + n ≤ cells.length) (hdest : dest + n ≤ cells.length) :
    cells' = cells.take dest ++ (cells.drop src).take n ++ cells.drop (dest + n) := by
  apply List.ext_getElem?
  intro i
  have htake : (cells.take dest).length = dest := by
    rw [List.length_take]
    omega
  have hmoved : ((cells.drop src).take n).length = n := by
    rw [List.length_take, List.length_drop]
    omega
  rw [h.cell i, List.append_assoc, List.getElem?_append, htake]
  by_cases hlow : i < dest
  · rw [if_neg (by omega), if_pos hlow, List.getElem?_take_of_lt hlow]
  · rw [if_neg hlow, List.getElem?_append, hmoved]
    by_cases hhigh : i < dest + n
    · rw [if_pos (by omega), if_pos (by omega), List.getElem?_take_of_lt (by omega),
        List.getElem?_drop]
    · have hindex : dest + n + (i - dest - n) = i := by omega
      rw [if_neg (by omega), if_neg (by omega), List.getElem?_drop, hindex]

/-- A copy inside the array stays inside it and moves the bytes as they were. -/
theorem memmove_eq (hsrc : src + n ≤ cells.length) (hdest : dest + n ≤ cells.length) :
    memmove cells dest src n =
      some (cells.take dest ++ (cells.drop src).take n ++ cells.drop (dest + n)) := by
  rw [memmove]
  split
  · rename_i htrivial
    rcases htrivial with rfl | rfl
    · rw [List.append_assoc, ← List.drop_drop, List.take_append_drop, List.take_append_drop]
    · simp
  · split
    · rename_i horder
      obtain ⟨cells', hcopy, hcopied⟩ := copyUp_copied (le_of_lt horder) hsrc
      rw [hcopy, hcopied.eq_append hsrc hdest]
    · rename_i horder
      obtain ⟨cells', hcopy, hcopied⟩ := copyDown_copied (Nat.le_of_not_lt horder) hdest
      rw [hcopy, hcopied.eq_append hsrc hdest]

/-- The bytes behind a place moved one place down. -/
theorem memmove_close (front : Bytes) (byte : UInt8) (moved rest : Bytes) :
    ∃ last, memmove (front ++ byte :: (moved ++ rest)) front.length (front.length + 1)
      moved.length = some (front ++ (moved ++ last :: rest)) := by
  have hlength : front.length + 1 + moved.length ≤ (front ++ byte :: (moved ++ rest)).length := by
    simp only [List.length_append, List.length_cons]
    omega
  obtain ⟨last, hlast⟩ : ∃ last, (byte :: moved).drop moved.length = [last] := by
    apply List.length_eq_one_iff.mp
    rw [List.length_drop, List.length_cons]
    omega
  have hdrop : (front ++ byte :: (moved ++ rest)).drop (front.length + moved.length) =
      last :: rest := by
    rw [← List.drop_drop, List.drop_left, ← List.cons_append, List.drop_append, hlast,
      List.length_cons]
    simp
  refine ⟨last, ?_⟩
  rw [memmove_eq hlength (by omega), List.take_left, hdrop, ← List.drop_drop, List.drop_left,
    List.drop_one, List.tail_cons, List.take_left, List.append_assoc]

/-- The bytes from a place on moved one place up, over the byte behind them. -/
theorem memmove_open (front moved : Bytes) (byte : UInt8) (rest : Bytes) :
    ∃ first, memmove (front ++ (moved ++ byte :: rest)) (front.length + 1) front.length
      moved.length = some (front ++ first :: (moved ++ rest)) := by
  have hlength : front.length + 1 + moved.length ≤ (front ++ (moved ++ byte :: rest)).length := by
    simp only [List.length_append, List.length_cons]
    omega
  obtain ⟨first, hfirst⟩ : ∃ first, (moved ++ [byte]).take 1 = [first] := by
    apply List.length_eq_one_iff.mp
    simp
  have htake : (front ++ (moved ++ byte :: rest)).take (front.length + 1) = front ++ [first] := by
    have hsplit : moved ++ byte :: rest = (moved ++ [byte]) ++ rest := by simp
    rw [List.take_append, List.take_of_length_le (by omega), Nat.add_sub_cancel_left, hsplit,
      List.take_append_of_le_length (by simp), hfirst]
  have hdrop : (front ++ (moved ++ byte :: rest)).drop (front.length + 1 + moved.length) = rest := by
    have hsplit : front ++ (moved ++ byte :: rest) = (front ++ moved ++ [byte]) ++ rest := by simp
    rw [hsplit, List.drop_left']
    simp only [List.length_append, List.length_singleton]
    omega
  refine ⟨first, ?_⟩
  rw [memmove_eq (by omega) hlength, htake, hdrop, List.drop_left, List.take_left,
    List.append_assoc, List.append_assoc, List.singleton_append]

end Copy

end SnsxOS
