import SnsxOS.Framework.ForLoop
import Mathlib.Data.Set.Basic

/-!
# Painting cells

A loop that stores one value in cell after cell gives it to a set of cells and leaves all others as
they were. What nested loops paint is the union of what their rounds paint.
-/

namespace SnsxOS.Framework

variable {α : Type*}

/-- A store in a cell. There is no result where it misses the memory. -/
def paint (memory : List α) (index : Nat) (a : α) : Option (List α) :=
  if index < memory.length then some (memory.set index a) else none

/-- The cells of a set hold the value, and all others what they held before. -/
structure Painted (old : List α) (a : α) (cells : Set Nat) (memory : List α) : Prop where
  length : memory.length = old.length
  inside : ∀ i ∈ cells, memory[i]? = some a
  outside : ∀ i ∉ cells, memory[i]? = old[i]?

variable {old memory : List α} {a : α} {cells : Set Nat}

theorem painted_empty (old : List α) (a : α) : Painted old a ∅ old :=
  ⟨rfl, fun _ hi => absurd hi (Set.notMem_empty _), fun _ _ => rfl⟩

theorem Painted.paint (h : Painted old a cells memory) {index : Nat} (hindex : index < old.length) :
    ∃ memory', paint memory index a = some memory' ∧ Painted old a (cells ∪ {index}) memory' := by
  have hin : index < memory.length := h.length.symm ▸ hindex
  refine ⟨memory.set index a, if_pos hin, ?_, ?_, ?_⟩
  · rw [List.length_set, h.length]
  · intro i hi
    by_cases heq : index = i
    · subst heq
      exact List.getElem?_set_self hin
    · rw [List.getElem?_set_ne heq]
      cases hi with
      | inl hold => exact h.inside i hold
      | inr hnew => exact absurd hnew.symm heq
  · intro i hi
    have hne : index ≠ i := fun heq => hi (Or.inr heq.symm)
    rw [List.getElem?_set_ne hne]
    exact h.outside i fun hold => hi (Or.inl hold)

/-- The cells of the rounds of a loop. -/
def roundCells (start stop : Nat) (cellsOf : Nat → Set Nat) : Set Nat :=
  {k | ∃ i, start ≤ i ∧ i < stop ∧ k ∈ cellsOf i}

theorem roundCells_empty {start stop : Nat} (h : stop ≤ start) (cellsOf : Nat → Set Nat) :
    roundCells start stop cellsOf = ∅ := by
  ext k
  simp only [roundCells, Set.mem_ofPred_eq, Set.mem_empty_iff_false, iff_false]
  intro hk
  obtain ⟨i, hlow, hhigh, _⟩ := hk
  omega

theorem roundCells_succ {start i : Nat} (h : start ≤ i) (cellsOf : Nat → Set Nat) :
    roundCells start (i + 1) cellsOf = roundCells start i cellsOf ∪ cellsOf i := by
  ext k
  simp only [roundCells, Set.mem_ofPred_eq, Set.mem_union]
  constructor
  · intro hk
    obtain ⟨j, hlow, hhigh, hmem⟩ := hk
    by_cases hlast : j = i
    · exact Or.inr (hlast ▸ hmem)
    · exact Or.inl ⟨j, hlow, by omega, hmem⟩
  · intro hk
    cases hk with
    | inl hearlier =>
      obtain ⟨j, hlow, hhigh, hmem⟩ := hearlier
      exact ⟨j, hlow, by omega, hmem⟩
    | inr hlast => exact ⟨i, h, Nat.lt_succ_self i, hlast⟩

/-- The rule of a loop whose rounds paint. -/
theorem forLoop_painted {body : Nat → List α → Option (List α)} {start stop : Nat}
    {cellsOf : Nat → Set Nat}
    (hbody : ∀ i cells memory, start ≤ i → i < stop → Painted old a cells memory →
      ∃ memory', body i memory = some memory' ∧ Painted old a (cells ∪ cellsOf i) memory')
    (h : Painted old a cells memory) :
    ∃ memory', forLoop start stop body memory = some memory' ∧
      Painted old a (cells ∪ roundCells start stop cellsOf) memory' := by
  by_cases hle : start ≤ stop
  · apply forLoop_invariant
      (fun i memory => Painted old a (cells ∪ roundCells start i cellsOf) memory) hle
    · intro i memory hlow hhigh hpainted
      obtain ⟨memory', hrun, hnext⟩ := hbody i _ memory hlow hhigh hpainted
      rw [Set.union_assoc, ← roundCells_succ hlow] at hnext
      exact ⟨memory', hrun, hnext⟩
    · rw [roundCells_empty le_rfl, Set.union_empty]
      exact h
  · refine ⟨memory, ?_, ?_⟩
    · rw [forLoop, Nat.sub_eq_zero_of_le (Nat.le_of_not_le hle), forRounds]
    · rw [roundCells_empty (Nat.le_of_not_le hle), Set.union_empty]
      exact h

/-- A loop that stores a value for each number in the cell of that number. -/
theorem forLoop_paint_take (value : Nat → α) {n : Nat} (hn : n ≤ memory.length) :
    ∃ filled, forLoop 0 n (fun i memory => paint memory i (value i)) memory = some filled ∧
      filled.length = memory.length ∧ filled.take n = (List.range n).map value := by
  apply forLoop_invariant (fun i (filled : List α) => filled.length = memory.length ∧
    filled.take i = (List.range i).map value) (Nat.zero_le n)
  · intro i filled _ hi hfilled
    have hin : i < filled.length := hfilled.1.symm ▸ Nat.lt_of_lt_of_le hi hn
    refine ⟨filled.set i (value i), if_pos hin, List.length_set.trans hfilled.1, ?_⟩
    have hset : i < (filled.set i (value i)).length := List.length_set.symm ▸ hin
    rw [List.take_succ_eq_append_getElem hset, List.getElem_set_self, List.take_set_of_le le_rfl,
      hfilled.2, List.range_succ, List.map_append, List.map_singleton]
  · exact ⟨rfl, rfl⟩

/-- What was painted is told from the memory alone. -/
theorem Painted.iff_of_empty (h : Painted old a ∅ memory) :
    Painted old a cells memory ↔ ∀ i ∈ cells, old[i]? = some a := by
  have hsame : ∀ i, memory[i]? = old[i]? := fun i => h.outside i (Set.notMem_empty i)
  constructor
  · intro hpainted i hi
    rw [← hsame i]
    exact hpainted.inside i hi
  · intro hold
    exact ⟨h.length, fun i hi => (hsame i).trans (hold i hi), fun i _ => hsame i⟩

end SnsxOS.Framework
