import Mathlib.Data.Nat.Basic
import Mathlib.Order.Lattice

/-!
# Recursion with fuel

A recursion that a counter cuts off settles on an outcome when any larger counter gives it.
Outcomes compose without counting.
-/

namespace SnsxOS.Framework

variable {α β : Type*}

/-- With enough fuel the run has this outcome, and more fuel does not change it. -/
def Settles (run : Nat → Option α) (outcome : α) : Prop :=
  ∃ enough, ∀ fuel, enough ≤ fuel → run fuel = some outcome

theorem Settles.unique {run : Nat → Option α} {a b : α} (ha : Settles run a)
    (hb : Settles run b) : a = b := by
  obtain ⟨n, hn⟩ := ha
  obtain ⟨m, hm⟩ := hb
  have h := hn (max n m) (le_max_left n m)
  rw [hm (max n m) (le_max_right n m)] at h
  exact (Option.some.inj h).symm

theorem Settles.exists_run {run : Nat → Option α} {a : α} (h : Settles run a) :
    ∃ fuel, run fuel = some a := by
  obtain ⟨n, hn⟩ := h
  exact ⟨n, hn n le_rfl⟩

theorem settles_some (a : α) : Settles (fun _ => some a) a := ⟨0, fun _ _ => rfl⟩

/-- One unit of fuel is spent on the call itself. -/
theorem Settles.succ {run body : Nat → Option α} {a : α}
    (hrun : ∀ fuel, run (fuel + 1) = body fuel) (h : Settles body a) : Settles run a := by
  obtain ⟨n, hn⟩ := h
  refine ⟨n + 1, fun fuel hfuel => ?_⟩
  obtain ⟨fuel, rfl⟩ := Nat.exists_eq_add_of_le' (Nat.le_trans (Nat.le_add_left 1 n) hfuel)
  rw [hrun]
  exact hn fuel (Nat.le_of_succ_le_succ hfuel)

/-- The second run starts from the outcome of the first. -/
theorem Settles.bind {run : Nat → Option α} {a : α} {b : β} (hrun : Settles run a)
    (next : Nat → α → Option β) (hnext : Settles (fun fuel => next fuel a) b) :
    Settles (fun fuel => (run fuel).bind (next fuel)) b := by
  obtain ⟨n, hn⟩ := hrun
  obtain ⟨m, hm⟩ := hnext
  refine ⟨max n m, fun fuel hfuel => ?_⟩
  dsimp only
  rw [hn fuel (Nat.le_trans (le_max_left n m) hfuel), Option.bind_some]
  exact hm fuel (Nat.le_trans (le_max_right n m) hfuel)

theorem Settles.map {run : Nat → Option α} {a : α} (h : Settles run a) (f : α → β) :
    Settles (fun fuel => (run fuel).map f) (f a) := by
  obtain ⟨n, hn⟩ := h
  refine ⟨n, fun fuel hfuel => ?_⟩
  dsimp only
  rw [hn fuel hfuel, Option.map_some]

end SnsxOS.Framework
