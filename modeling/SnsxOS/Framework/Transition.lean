import Mathlib.Logic.Basic
import Mathlib.Tactic

/-!
# Runs of state machines

A run applies a list of operations from a start state. An invariant that each operation
preserves holds after every run, and a relation that each operation preserves on two machines
relates their states after every common run. The guarded forms ask for preservation only when
the operation meets a condition in the state it is applied to.
-/

namespace SnsxOS.Framework

variable {σ τ ι : Type*}

/-- Apply the operations one after another. -/
def run (step : σ → ι → σ) (s : σ) (ops : List ι) : σ := ops.foldl step s

@[simp] theorem run_nil (step : σ → ι → σ) (s : σ) : run step s [] = s := rfl

@[simp] theorem run_cons (step : σ → ι → σ) (s : σ) (op : ι) (ops : List ι) :
    run step s (op :: ops) = run step (step s op) ops := rfl

theorem run_append (step : σ → ι → σ) (s : σ) (ops ops' : List ι) :
    run step s (ops ++ ops') = run step (run step s ops) ops' := List.foldl_append

/-- Every operation of the run meets `guard` in the state it is applied to. -/
def Guarded (step : σ → ι → σ) (guard : σ → ι → Prop) : σ → List ι → Prop
  | _, [] => True
  | s, op :: ops => guard s op ∧ Guarded step guard (step s op) ops

instance instDecidableGuarded (step : σ → ι → σ) (guard : σ → ι → Prop)
    [∀ s, DecidablePred (guard s)] (s : σ) (ops : List ι) : Decidable (Guarded step guard s ops) :=
  match ops with
  | [] => inferInstanceAs (Decidable True)
  | op :: ops =>
      have := instDecidableGuarded step guard (step s op) ops
      inferInstanceAs (Decidable (_ ∧ _))

theorem run_invariant {step : σ → ι → σ} {I : σ → Prop} (hstep : ∀ s op, I s → I (step s op))
    {s : σ} (hs : I s) (ops : List ι) : I (run step s ops) := by
  induction ops generalizing s with
  | nil => exact hs
  | cons op ops ih => exact ih (hstep s op hs)

theorem run_invariant_of_guarded {step : σ → ι → σ} {guard : σ → ι → Prop} {I : σ → Prop}
    (hstep : ∀ s op, I s → guard s op → I (step s op)) {s : σ} (hs : I s) (ops : List ι)
    (hg : Guarded step guard s ops) : I (run step s ops) := by
  induction ops generalizing s with
  | nil => exact hs
  | cons op ops ih => exact ih (hstep s op hs hg.1) hg.2

theorem guarded_true (step : σ → ι → σ) (s : σ) (ops : List ι) :
    Guarded step (fun _ _ => True) s ops := by
  induction ops generalizing s with
  | nil => trivial
  | cons op ops ih => exact ⟨trivial, ih (step s op)⟩

/-- Where an operation keeps `I` exactly when it meets the guard, `I` holds all along a run
exactly when the run is guarded. The run may be known to meet another guard already. -/
theorem run_prefixes_iff_guarded_within {step : σ → ι → σ} {outer guard : σ → ι → Prop}
    {I J : σ → Prop} (hJ : ∀ s op, J s → I s → outer s op → J (step s op))
    (hstep : ∀ s op, J s → I s → outer s op → (I (step s op) ↔ guard s op))
    {s : σ} (hs : J s) (hI : I s) (ops : List ι) (houter : Guarded step outer s ops) :
    (∀ before after, ops = before ++ after → I (run step s before)) ↔
      Guarded step guard s ops := by
  induction ops generalizing s with
  | nil =>
    refine ⟨fun _ => trivial, fun _ before after h => ?_⟩
    obtain ⟨rfl, -⟩ := List.append_eq_nil_iff.mp h.symm
    exact hI
  | cons op ops ih =>
    have hnow := hstep s op hs hI houter.1
    have hkept := hJ s op hs hI houter.1
    constructor
    · intro h
      have hnext : I (step s op) := h [op] ops rfl
      refine ⟨hnow.mp hnext, (ih hkept hnext houter.2).mp ?_⟩
      intro before after hops
      exact h (op :: before) after (by rw [hops, List.cons_append])
    · intro hguarded before after h
      have hnext : I (step s op) := hnow.mpr hguarded.1
      cases before with
      | nil => exact hI
      | cons first before =>
        obtain ⟨rfl, htail⟩ := List.cons_eq_cons.mp h
        exact (ih hkept hnext houter.2).mpr hguarded.2 before after htail

theorem run_prefixes_iff_guarded {step : σ → ι → σ} {guard : σ → ι → Prop} {I J : σ → Prop}
    (hJ : ∀ s op, J s → I s → J (step s op))
    (hstep : ∀ s op, J s → I s → (I (step s op) ↔ guard s op))
    {s : σ} (hs : J s) (hI : I s) (ops : List ι) :
    (∀ before after, ops = before ++ after → I (run step s before)) ↔
      Guarded step guard s ops :=
  run_prefixes_iff_guarded_within (fun s op hs hI _ => hJ s op hs hI)
    (fun s op hs hI _ => hstep s op hs hI) hs hI ops (guarded_true step s ops)

/-- Where an operation does what is asked of it exactly when it meets the guard, all operations of
a run do so exactly when the run is guarded. -/
theorem run_steps_iff_guarded {step : σ → ι → σ} {guard asked : σ → ι → Prop} {J : σ → Prop}
    (hJ : ∀ s op, J s → J (step s op)) (hstep : ∀ s op, J s → (asked s op ↔ guard s op))
    {s : σ} (hs : J s) (ops : List ι) :
    (∀ before op after, ops = before ++ op :: after → asked (run step s before) op) ↔
      Guarded step guard s ops := by
  induction ops generalizing s with
  | nil =>
    constructor
    · intro _
      trivial
    · intro _ before op after h
      exact absurd h.symm (List.append_ne_nil_of_right_ne_nil before (List.cons_ne_nil op after))
  | cons first ops ih =>
    constructor
    · intro h
      refine ⟨(hstep s first hs).mp (h [] first ops rfl), (ih (hJ s first hs)).mp ?_⟩
      intro before op after hops
      exact h (first :: before) op after (by rw [hops, List.cons_append])
    · intro hg before op after hops
      cases before with
      | nil =>
        obtain ⟨rfl, -⟩ := List.cons_eq_cons.mp hops
        exact (hstep s first hs).mpr hg.1
      | cons head before =>
        obtain ⟨rfl, htail⟩ := List.cons_eq_cons.mp hops
        exact (ih (hJ s first hs)).mpr hg.2 before op after htail

/-- Two machines that stay related under every operation are related after every run. -/
theorem run_simulation {step : σ → ι → σ} {step' : τ → ι → τ} {R : σ → τ → Prop}
    (hstep : ∀ s t op, R s t → R (step s op) (step' t op)) {s : σ} {t : τ} (h : R s t)
    (ops : List ι) : R (run step s ops) (run step' t ops) := by
  induction ops generalizing s t with
  | nil => exact h
  | cons op ops ih => exact ih (hstep s t op h)

/-- A value that every operation either overwrites or keeps is the last one written. -/
theorem run_overwrite {α : Type*} {step : σ → ι → σ} (get : σ → α) (written : ι → Option α)
    (hstep : ∀ s op, get (step s op) = (written op).getD (get s)) (s : σ) (ops : List ι) :
    get (run step s ops) = ((ops.filterMap written).getLast?).getD (get s) := by
  induction ops generalizing s with
  | nil => rfl
  | cons op ops ih =>
    rw [run_cons, ih, hstep]
    cases hwritten : written op with
    | none => rw [List.filterMap_cons_none hwritten, Option.getD_none]
    | some value =>
      rw [List.filterMap_cons_some hwritten, List.getLast?_cons, Option.getD_some,
        Option.getD_some]

/-- A run of partial operations; a faulting operation ends it without a state. -/
def runPartial (step : σ → ι → Option σ) (s : σ) : List ι → Option σ
  | [] => some s
  | op :: ops => (step s op).bind fun t => runPartial step t ops

@[simp] theorem runPartial_nil (step : σ → ι → Option σ) (s : σ) :
    runPartial step s [] = some s := rfl

theorem runPartial_cons (step : σ → ι → Option σ) (s : σ) (op : ι) (ops : List ι) :
    runPartial step s (op :: ops) = (step s op).bind fun t => runPartial step t ops := rfl

theorem runPartial_singleton (step : σ → ι → Option σ) (s : σ) (op : ι) :
    runPartial step s [op] = step s op := by
  rw [runPartial_cons]
  cases step s op <;> rfl

theorem runPartial_append (step : σ → ι → Option σ) (s : σ) (ops ops' : List ι) :
    runPartial step s (ops ++ ops') =
      (runPartial step s ops).bind fun t => runPartial step t ops' := by
  induction ops generalizing s with
  | nil => rfl
  | cons op ops ih =>
    rw [List.cons_append, runPartial_cons, runPartial_cons, Option.bind_assoc]
    simp only [ih]

/-- What a state and the operations that led to it keep with each further operation. -/
theorem runPartial_induction {step : σ → ι → Option σ} {s : σ} {motive : List ι → σ → Prop}
    (start : motive [] s) (next : ∀ ops t op u, runPartial step s ops = some t → motive ops t →
      step t op = some u → motive (ops ++ [op]) u)
    {ops : List ι} {t : σ} (h : runPartial step s ops = some t) : motive ops t := by
  induction ops using List.reverseRecOn generalizing t with
  | nil =>
    obtain rfl := Option.some.inj h
    exact start
  | append_singleton ops op ih =>
    rw [runPartial_append] at h
    obtain ⟨u, hu, hlast⟩ := Option.bind_eq_some_iff.mp h
    rw [runPartial_singleton] at hlast
    exact next ops u op t hu (ih hu) hlast

def GuardedPartial (step : σ → ι → Option σ) (guard : σ → ι → Prop) : σ → List ι → Prop
  | _, [] => True
  | s, op :: ops =>
      guard s op ∧ ∀ t, step s op = some t → GuardedPartial step guard t ops

/-- Guarded operations that succeed and preserve an invariant make the whole run succeed. -/
theorem runPartial_invariant_of_guarded {step : σ → ι → Option σ} {guard : σ → ι → Prop}
    {I : σ → Prop} (hstep : ∀ s op, I s → guard s op → ∃ t, step s op = some t ∧ I t)
    {s : σ} (hs : I s) (ops : List ι) (hg : GuardedPartial step guard s ops) :
    ∃ t, runPartial step s ops = some t ∧ I t := by
  induction ops generalizing s with
  | nil => exact ⟨s, rfl, hs⟩
  | cons op ops ih =>
    obtain ⟨t, ht, hI⟩ := hstep s op hs hg.1
    obtain ⟨u, hu, hIu⟩ := ih hI (hg.2 t ht)
    refine ⟨u, ?_, hIu⟩
    rw [runPartial_cons, ht]
    exact hu

end SnsxOS.Framework
