import Mathlib.Logic.Basic
import Mathlib.Tactic

/-!
# Counting loops

A loop runs its body for each number from a start up to, but not including, a stop. The body may
have no result, and then the loop has none. What the body carries from each number to the next one
holds at the end of the loop.
-/

namespace SnsxOS.Framework

variable {σ : Type*}

/-- A loop of a number of rounds from a first number on. -/
def forRounds (body : Nat → σ → Option σ) (first : Nat) : Nat → σ → Option σ
  | 0, s => some s
  | rounds + 1, s => (body first s).bind (forRounds body (first + 1) rounds)

/-- `for (i = start; i < stop; ++i)` -/
def forLoop (start stop : Nat) (body : Nat → σ → Option σ) (s : σ) : Option σ :=
  forRounds body start (stop - start) s

theorem forRounds_invariant {body : Nat → σ → Option σ} {first rounds : Nat} {I : Nat → σ → Prop}
    (hbody : ∀ i s, first ≤ i → i < first + rounds → I i s → ∃ s', body i s = some s' ∧ I (i + 1) s')
    {s : σ} (hs : I first s) :
    ∃ s', forRounds body first rounds s = some s' ∧ I (first + rounds) s' := by
  induction rounds generalizing first s with
  | zero => exact ⟨s, rfl, hs⟩
  | succ rounds ih =>
    obtain ⟨next, hnext, hinv⟩ := hbody first s le_rfl (by omega) hs
    have hlater : ∀ i s, first + 1 ≤ i → i < first + 1 + rounds → I i s →
        ∃ s', body i s = some s' ∧ I (i + 1) s' :=
      fun i s hlow hhigh => hbody i s (by omega) (by omega)
    obtain ⟨s', hrun, hend⟩ := ih hlater hinv
    refine ⟨s', ?_, ?_⟩
    · rw [forRounds, hnext, Option.bind_some, hrun]
    · rw [Nat.add_comm rounds 1, ← Nat.add_assoc]
      exact hend

/-- The rule of the loop. -/
theorem forLoop_invariant {body : Nat → σ → Option σ} {start stop : Nat} (I : Nat → σ → Prop)
    (hle : start ≤ stop)
    (hbody : ∀ i s, start ≤ i → i < stop → I i s → ∃ s', body i s = some s' ∧ I (i + 1) s')
    {s : σ} (hs : I start s) : ∃ s', forLoop start stop body s = some s' ∧ I stop s' := by
  have hstop : start + (stop - start) = stop := by omega
  have hrange : ∀ i s, start ≤ i → i < start + (stop - start) → I i s →
      ∃ s', body i s = some s' ∧ I (i + 1) s' := fun i s hlow hhigh => hbody i s hlow (by omega)
  have hrounds := forRounds_invariant hrange hs
  rw [hstop] at hrounds
  exact hrounds

end SnsxOS.Framework
