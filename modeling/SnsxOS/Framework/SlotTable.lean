import Mathlib.Data.List.Basic
import Mathlib.Tactic

/-!
# Fixed arrays with a used prefix

A slot table is an array of `n` slots of which the first `count` are in use. Slots past the
count keep whatever they last held. Adding uses the next slot, removing shifts the later slots
down by one, and both are described by their effect on the list of used slots.
-/

namespace SnsxOS.Framework

variable {ν : Type*} {n : Nat}

structure SlotTable (ν : Type*) (n : Nat) where
  cells : List ν
  count : Nat
  length_cells : cells.length = n
  count_le : count ≤ n

namespace SlotTable

/-- The slots in use. -/
def used (t : SlotTable ν n) : List ν := t.cells.take t.count

@[simp] theorem length_used (t : SlotTable ν n) : t.used.length = t.count := by
  have h := t.count_le
  simp [used, t.length_cells, h]

theorem getElem?_used (t : SlotTable ν n) {i : Nat} (hi : i < t.count) :
    t.used[i]? = t.cells[i]? := by
  rw [used, List.getElem?_take_of_lt hi]

/-- Store into the first free slot. -/
def push (t : SlotTable ν n) (x : ν) (h : t.count < n) : SlotTable ν n where
  cells := t.cells.set t.count x
  count := t.count + 1
  length_cells := by rw [List.length_set, t.length_cells]
  count_le := h

theorem used_push (t : SlotTable ν n) (x : ν) (h : t.count < n) :
    (t.push x h).used = t.used ++ [x] := by
  have hl : t.count < t.cells.length := by rw [t.length_cells]; exact h
  simp only [used, push, List.take_set]
  rw [List.take_succ_eq_append_getElem hl, List.set_append_right _ _ (by simp)]
  simp [hl.le]

/-- Rewrite each used slot, knowing its number. -/
def mapUsed (t : SlotTable ν n) (f : Nat → ν → ν) : SlotTable ν n where
  cells := t.cells.mapIdx fun i x => if i < t.count then f i x else x
  count := t.count
  length_cells := by rw [List.length_mapIdx, t.length_cells]
  count_le := t.count_le

theorem used_mapUsed (t : SlotTable ν n) (f : Nat → ν → ν) :
    (t.mapUsed f).used = t.used.mapIdx f := by
  apply List.ext_getElem?
  intro i
  by_cases hi : i < t.count
  · rw [getElem?_used (t.mapUsed f) hi, List.getElem?_mapIdx, getElem?_used t hi]
    simp [mapUsed, hi]
  · have h1 : (t.mapUsed f).used[i]? = none := by
      rw [List.getElem?_eq_none_iff, length_used]
      exact not_lt.mp hi
    have h2 : (t.used.mapIdx f)[i]? = none := by
      rw [List.getElem?_eq_none_iff, List.length_mapIdx, length_used]
      exact not_lt.mp hi
    rw [h1, h2]

/-- Rewrite one slot. -/
def modify (t : SlotTable ν n) (i : Nat) (f : ν → ν) : SlotTable ν n where
  cells := t.cells.modify i f
  count := t.count
  length_cells := by rw [List.length_modify, t.length_cells]
  count_le := t.count_le

@[simp] theorem count_modify (t : SlotTable ν n) (i : Nat) (f : ν → ν) :
    (t.modify i f).count = t.count := rfl

theorem used_modify (t : SlotTable ν n) (i : Nat) (f : ν → ν) :
    (t.modify i f).used = t.used.modify i f := by
  rw [used, modify, used, List.take_modify]

/-- Copy each slot from `i + 1` up to the count into the slot before it. -/
def shiftDown (cells : List ν) (i count : Nat) : List ν :=
  (List.range' (i + 1) (count - (i + 1))).foldl
    (fun slots j => match slots[j]? with
      | some x => slots.set (j - 1) x
      | none => slots) cells

theorem shiftDown_closed (cells : List ν) (i k : Nat) (h : i + 1 + k ≤ cells.length) :
    (List.range' (i + 1) k).foldl
      (fun slots j => match slots[j]? with
        | some x => slots.set (j - 1) x
        | none => slots) cells =
    cells.take i ++ (cells.drop (i + 1)).take k ++ cells.drop (i + k) := by
  induction k with
  | zero => simp
  | succ k ih =>
    rw [List.range'_concat, List.foldl_append, ih (by omega)]
    have hl : (cells.take i ++ (cells.drop (i + 1)).take k).length = i + k := by
      simp only [List.length_append, List.length_take, List.length_drop]; omega
    have hik : i + k < cells.length := by omega
    have hik1 : i + k + 1 < cells.length := by omega
    have hget : (cells.take i ++ (cells.drop (i + 1)).take k ++ cells.drop (i + k))[i + 1 + k]? =
        some cells[i + k + 1] := by
      rw [List.getElem?_append_right (by omega), hl, List.getElem?_drop,
        List.getElem?_eq_some_iff]
      exact ⟨by omega, by congr 1; omega⟩
    have hset : i + 1 + k - 1 = i + k := by omega
    have htake : (cells.drop (i + 1)).take (k + 1) =
        (cells.drop (i + 1)).take k ++ [cells[i + k + 1]] := by
      have hk : k < (cells.drop (i + 1)).length := by rw [List.length_drop]; omega
      rw [List.take_succ_eq_append_getElem hk, List.getElem_drop]
      congr 3
      omega
    simp only [List.foldl_cons, List.foldl_nil, Nat.one_mul, hget, hset]
    rw [List.set_append_right _ _ (by omega), hl, Nat.sub_self,
      List.drop_eq_getElem_cons hik, List.set_cons_zero, htake]
    simp [Nat.add_assoc]

theorem length_shiftDown (cells : List ν) (i count : Nat) :
    (shiftDown cells i count).length = cells.length := by
  unfold shiftDown
  generalize List.range' (i + 1) (count - (i + 1)) = js
  induction js generalizing cells with
  | nil => rfl
  | cons j js ih =>
    rw [List.foldl_cons, ih]
    cases cells[j]? <;> simp

/-- Drop slot `i` by shifting the later used slots down. -/
def removeAt (t : SlotTable ν n) (i : Nat) : SlotTable ν n where
  cells := shiftDown t.cells i t.count
  count := t.count - 1
  length_cells := (length_shiftDown t.cells i t.count).trans t.length_cells
  count_le := le_trans (Nat.sub_le _ _) t.count_le

@[simp] theorem count_removeAt (t : SlotTable ν n) (i : Nat) :
    (t.removeAt i).count = t.count - 1 := rfl

theorem used_removeAt (t : SlotTable ν n) {i : Nat} (hi : i < t.count) :
    (t.removeAt i).used = t.used.eraseIdx i := by
  have hc := t.count_le
  have hl := t.length_cells
  have hclosed := shiftDown_closed t.cells i (t.count - (i + 1)) (by omega)
  have hfront : (t.cells.take i ++ (t.cells.drop (i + 1)).take (t.count - (i + 1))).length =
      t.count - 1 := by
    simp only [List.length_append, List.length_take, List.length_drop]; omega
  have hused : (t.removeAt i).used =
      t.cells.take i ++ (t.cells.drop (i + 1)).take (t.count - (i + 1)) := by
    simp only [used, removeAt, shiftDown]
    rw [hclosed, List.take_append_of_le_length hfront.ge, ← hfront, List.take_length]
  rw [hused, List.eraseIdx_eq_take_drop_succ, used, List.take_take, List.drop_take,
    min_eq_left hi.le]

end SlotTable

end SnsxOS.Framework
