import Mathlib.Data.Nat.Basic
import Mathlib.Tactic

/-!
# Polling

A driver reads a value again and again until it decides something, at most a fixed number of times.
Each read may change what is read from. When few enough reads decide nothing, polling ends with the
first one that does.
-/

namespace SnsxOS.Framework

variable {σ α β : Type*} (read : σ → α × σ) (verdict : α → Option β)

/-- Read at most some times until a value decides. -/
def poll : Nat → σ → Option β × σ
  | 0, s => (none, s)
  | reads + 1, s =>
      match verdict (read s).1 with
      | some b => (some b, (read s).2)
      | none => poll reads (read s).2

/-- Some reads decide nothing and the next one decides. -/
inductive Decides : Nat → σ → β → σ → Prop
  | now {s : σ} {b : β} (h : verdict (read s).1 = some b) : Decides 0 s b (read s).2
  | later {s t : σ} {b : β} {silent : Nat} (h : verdict (read s).1 = none)
      (rest : Decides silent (read s).2 b t) : Decides (silent + 1) s b t

variable {read verdict}

theorem Decides.poll_eq {silent reads : Nat} {s t : σ} {b : β}
    (h : Decides read verdict silent s b t) (hlt : silent < reads) :
    poll read verdict reads s = (some b, t) := by
  induction h generalizing reads with
  | now h =>
    obtain ⟨reads, rfl⟩ := Nat.exists_eq_succ_of_ne_zero (Nat.ne_of_gt hlt)
    rw [poll, h]
  | later h _ ih =>
    obtain ⟨reads, rfl⟩ := Nat.exists_eq_succ_of_ne_zero (Nat.ne_of_gt (Nat.zero_lt_of_lt hlt))
    rw [poll, h]
    exact ih (Nat.lt_of_succ_lt_succ hlt)

/-- Where no read decides, polling gives up. -/
theorem poll_silent {I : σ → Prop} (hread : ∀ s, I s → I (read s).2)
    (hsilent : ∀ s, I s → verdict (read s).1 = none) (reads : Nat) {s : σ} (hs : I s) :
    (poll read verdict reads s).1 = none := by
  induction reads generalizing s with
  | zero => rfl
  | succ reads ih =>
    rw [poll, hsilent s hs]
    exact ih (hread s hs)

end SnsxOS.Framework
