import Mathlib.Data.List.Forall2
import Mathlib.Tactic

/-!
# Lists that are related element by element

Two machines that keep a list of devices each are compared device by device: a search finds the same
device in both, and a change to one device leaves the others related.
-/

namespace SnsxOS.Framework

variable {α β γ : Type*} {R : α → β → Prop} {as : List α} {bs : List β}

theorem forall₂_findIdx {f : α → Bool} {g : β → Bool} (h : List.Forall₂ R as bs)
    (hfg : ∀ a b, R a b → f a = g b) : as.findIdx? f = bs.findIdx? g := by
  induction h with
  | nil => rfl
  | cons hab _ ih => rw [List.findIdx?_cons, List.findIdx?_cons, hfg _ _ hab, ih]

theorem forall₂_getElem? (h : List.Forall₂ R as bs) {index : Nat} {a : α}
    (ha : as[index]? = some a) : ∃ b, bs[index]? = some b ∧ R a b := by
  induction h generalizing index with
  | nil => cases ha
  | cons hab _ ih =>
    cases index with
    | zero => exact ⟨_, rfl, Option.some.inj ha ▸ hab⟩
    | succ index => exact ih ha

theorem forall₂_getElem?_none (h : List.Forall₂ R as bs) {index : Nat} (ha : as[index]? = none) :
    bs[index]? = none := by
  rw [List.getElem?_eq_none_iff] at ha ⊢
  rwa [← h.length_eq]

/-- Both lists change at one place. -/
theorem forall₂_set_modify (h : List.Forall₂ R as bs) (index : Nat) {a : α} {f : β → β}
    (hf : ∀ b, bs[index]? = some b → R a (f b)) :
    List.Forall₂ R (as.set index a) (bs.modify index f) := by
  induction h generalizing index with
  | nil => simp
  | cons hab htail ih =>
    cases index with
    | zero => exact .cons (hf _ rfl) htail
    | succ index => exact .cons hab (ih index hf)

/-- A list changes at one place. -/
theorem forall₂_set {S : α → α → Prop} (hrefl : ∀ a, S a a) {index : Nat} {a a' : α}
    (ha : as[index]? = some a) (haa' : S a a') : List.Forall₂ S as (as.set index a') := by
  induction as generalizing index with
  | nil => exact .nil
  | cons first as ih =>
    cases index with
    | zero => exact .cons (Option.some.inj ha ▸ haa') (List.forall₂_same.mpr fun _ _ => hrefl _)
    | succ index => exact .cons (hrefl first) (ih ha)

theorem forall₂_trans {S : β → γ → Prop} {T : α → γ → Prop}
    (hRS : ∀ a b c, R a b → S b c → T a c) (h : List.Forall₂ R as bs) {cs : List γ}
    (h' : List.Forall₂ S bs cs) : List.Forall₂ T as cs := by
  induction h generalizing cs with
  | nil =>
    cases h'
    exact .nil
  | cons hab _ ih =>
    cases h' with
    | cons hbc h' => exact .cons (hRS _ _ _ hab hbc) (ih h')

/-- From a common list to two others. -/
theorem forall₂_joined {S : α → γ → Prop} {T : γ → β → Prop}
    (hRS : ∀ a b c, R a b → S a c → T c b) (h : List.Forall₂ R as bs) {cs : List γ}
    (h' : List.Forall₂ S as cs) : List.Forall₂ T cs bs := by
  have hback : List.Forall₂ (fun c a => S a c) cs as := h'.flip
  exact forall₂_trans (fun c a b hac hab => hRS a b c hab hac) hback h

end SnsxOS.Framework
