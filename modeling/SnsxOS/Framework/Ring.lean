import Mathlib.Data.Nat.ModEq
import Mathlib.Tactic

/-!
# Circular buffers

A circular buffer keeps its items in the cells from `first` up to, but not including, `last`, going
round. Equal indices mean that it is empty, so that one cell always stays free.
-/

namespace SnsxOS.Framework.Ring

variable {α : Type*} {size : Nat}

/-- The cell `n` steps after `i`. -/
def advance (i : Fin size) (n : Nat) : Fin size := ⟨(i.val + n) % size, Nat.mod_lt _ i.pos⟩

/-- The number of steps from `first` to `last`. -/
def count (first last : Fin size) : Nat := (last.val + size - first.val) % size

/-- The `n` items from `first` on. -/
def window (cells : Fin size → α) (first : Fin size) (n : Nat) : List α :=
  (List.range n).map fun k => cells (advance first k)

/-- The items from `first` up to `last`. -/
def contents (cells : Fin size → α) (first last : Fin size) : List α :=
  window cells first (count first last)

@[simp] theorem advance_zero (i : Fin size) : advance i 0 = i := by
  apply Fin.ext
  simp [advance, Nat.mod_eq_of_lt i.isLt]

@[simp] theorem advance_advance (i : Fin size) (m n : Nat) :
    advance (advance i m) n = advance i (m + n) := by
  apply Fin.ext
  simp [advance, Nat.add_assoc]

@[simp] theorem advance_size (i : Fin size) : advance i size = i := by
  apply Fin.ext
  simp [advance, Nat.mod_eq_of_lt i.isLt]

/-- Fewer than `size` steps apart, different steps reach different cells. -/
theorem advance_inj (i : Fin size) {m n : Nat} (hm : m < size) (hn : n < size) :
    advance i m = advance i n ↔ m = n := by
  refine ⟨fun h => ?_, fun h => h ▸ rfl⟩
  have hmod : i.val + m ≡ i.val + n [MOD size] := Fin.ext_iff.mp h
  have hcancel : m ≡ n [MOD size] := Nat.ModEq.add_left_cancel' i.val hmod
  rw [← Nat.mod_eq_of_lt hm, ← Nat.mod_eq_of_lt hn]
  exact hcancel

theorem count_lt (first last : Fin size) : count first last < size := Nat.mod_lt _ first.pos

theorem advance_count (first last : Fin size) : advance first (count first last) = last := by
  apply Fin.ext
  have hlt := first.isLt
  have hcell : first.val + (last.val + size - first.val) = last.val + size := by omega
  simp [advance, count, hcell, Nat.mod_eq_of_lt last.isLt]

theorem count_eq_iff {first last : Fin size} {n : Nat} (hn : n < size) :
    count first last = n ↔ last = advance first n := by
  constructor
  · rintro rfl
    exact (advance_count first last).symm
  · intro h
    rw [← advance_count first last, advance_inj first (count_lt first last) hn] at h
    exact h

theorem count_eq_zero_iff {first last : Fin size} : count first last = 0 ↔ first = last := by
  rw [count_eq_iff first.pos, advance_zero]
  exact eq_comm

/-- The cell after `last` is `first` exactly when only one cell is free. -/
theorem advance_one_eq_iff {first last : Fin size} :
    advance last 1 = first ↔ count first last + 1 = size := by
  have hlt := count_lt first last
  have hlast : advance last 1 = advance first (count first last + 1) := by
    rw [← advance_advance, advance_count]
  rw [hlast]
  rcases Nat.lt_or_ge (count first last + 1) size with h | h
  · have hzero := advance_inj first h first.pos
    rw [advance_zero] at hzero
    simp [hzero, h.ne]
  · have hsize : count first last + 1 = size := by omega
    simp [hsize]

theorem count_push {first last : Fin size} (h : advance last 1 ≠ first) :
    count first (advance last 1) = count first last + 1 := by
  have hlt := count_lt first last
  have hne : count first last + 1 ≠ size := fun heq => h (advance_one_eq_iff.mpr heq)
  rw [count_eq_iff (by omega), ← advance_advance, advance_count]

theorem count_pop {first last : Fin size} (h : first ≠ last) :
    count first last = count (advance first 1) last + 1 := by
  have hpos : count first last ≠ 0 := fun hzero => h (count_eq_zero_iff.mp hzero)
  have hlt := count_lt first last
  have hnext : count (advance first 1) last = count first last - 1 := by
    rw [count_eq_iff (by omega), advance_advance]
    have hstep : 1 + (count first last - 1) = count first last := by omega
    rw [hstep, advance_count]
  omega

/-- All the way round. -/
theorem count_advance_one_self (first : Fin size) : count (advance first 1) first + 1 = size :=
  advance_one_eq_iff.mp rfl

@[simp] theorem count_advance {first : Fin size} {n : Nat} (hn : n < size) :
    count first (advance first n) = n := (count_eq_iff hn).mpr rfl

/-! ## Windows -/

@[simp] theorem length_window (cells : Fin size → α) (first : Fin size) (n : Nat) :
    (window cells first n).length = n := by
  simp [window]

@[simp] theorem window_zero (cells : Fin size → α) (first : Fin size) :
    window cells first 0 = [] := rfl

theorem window_pop (cells : Fin size → α) (first : Fin size) (n : Nat) :
    window cells first (n + 1) = cells first :: window cells (advance first 1) n := by
  rw [window, List.range_succ_eq_map]
  simp [window, Nat.add_comm]

theorem window_snoc (cells : Fin size → α) (first : Fin size) (n : Nat) :
    window cells first (n + 1) = window cells first n ++ [cells (advance first n)] := by
  simp [window, List.range_succ]

theorem map_window {β : Type*} (f : α → β) (cells : Fin size → α) (first : Fin size) (n : Nat) :
    (window cells first n).map f = window (fun i => f (cells i)) first n := by
  simp [window]

/-- The cells of a window are those fewer than `n` steps away. -/
theorem mem_window_id {first i : Fin size} {n : Nat} (hn : n ≤ size) :
    i ∈ window id first n ↔ count first i < n := by
  simp only [window, List.mem_map, List.mem_range, id_eq]
  constructor
  · rintro ⟨k, hk, rfl⟩
    rwa [count_advance (hk.trans_le hn)]
  · intro h
    exact ⟨count first i, h, advance_count first i⟩

/-- Cells outside the window do not matter. -/
theorem window_congr {cells cells' : Fin size → α} {first : Fin size} {n : Nat}
    (h : ∀ k < n, cells (advance first k) = cells' (advance first k)) :
    window cells first n = window cells' first n :=
  List.map_congr_left fun k hk => h k (List.mem_range.mp hk)

theorem window_congr_of_ne {cells cells' : Fin size → α} {first : Fin size} {n : Nat}
    (hn : n < size) (h : ∀ i, i ≠ advance first n → cells i = cells' i) :
    window cells first n = window cells' first n := by
  apply window_congr
  intro k hk
  apply h
  rw [Ne, advance_inj first (hk.trans hn) hn]
  exact hk.ne

@[simp] theorem length_contents (cells : Fin size → α) (first last : Fin size) :
    (contents cells first last).length = count first last := length_window ..

theorem contents_eq_nil_iff {cells : Fin size → α} {first last : Fin size} :
    contents cells first last = [] ↔ first = last := by
  rw [← List.length_eq_zero_iff, length_contents, count_eq_zero_iff]

@[simp] theorem contents_self (cells : Fin size → α) (first : Fin size) :
    contents cells first first = [] := contents_eq_nil_iff.mpr rfl

theorem contents_pop (cells : Fin size → α) {first last : Fin size} (h : first ≠ last) :
    contents cells first last = cells first :: contents cells (advance first 1) last := by
  rw [contents, count_pop h, window_pop]
  rfl

theorem contents_snoc (cells : Fin size → α) {first last : Fin size} (h : advance last 1 ≠ first) :
    contents cells first (advance last 1) = contents cells first last ++ [cells last] := by
  rw [contents, count_push h, window_snoc, advance_count]
  rfl

/-- The cell after the window does not matter. -/
theorem contents_congr_of_ne {cells cells' : Fin size → α} {first last : Fin size}
    (h : ∀ i, i ≠ last → cells i = cells' i) :
    contents cells first last = contents cells' first last := by
  apply window_congr_of_ne (count_lt first last)
  rw [advance_count]
  exact h

theorem contents_push (cells : Fin size → α) {first last : Fin size} (h : advance last 1 ≠ first)
    (item : α) : contents (Function.update cells last item) first (advance last 1) =
      contents cells first last ++ [item] := by
  rw [contents_snoc _ h, Function.update_self]
  congr 1
  exact contents_congr_of_ne fun i hi => Function.update_of_ne hi ..

end SnsxOS.Framework.Ring
