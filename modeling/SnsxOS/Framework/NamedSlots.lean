import Mathlib.Logic.Basic
import Mathlib.Tactic

/-!
# Slots that keep names

Each used slot of an array keeps a name. A name goes to the slot that has it, else to the first free
one. What a slot keeps is a shortened name, so a name may fail to find the slot that it was given
to. The slots stay apart exactly as long as all names are given that shortening leaves as they are.
-/

namespace SnsxOS.Framework

variable {α : Type*} [DecidableEq α]

/-- The first slot that has the name, else the first free one. -/
def pickSlot (slots : List (Option α)) (name : α) : Option Nat :=
  (slots.findIdx? fun slot => decide (slot = some name)).or (slots.findIdx? Option.isNone)

/-- What the slots keep of the names they were given. -/
def keptNames (shorten : α → α) (given : List (Option α)) : List (Option α) :=
  given.map (Option.map shorten)

/-- The names given after one more. -/
def addName (shorten : α → α) (given : List (Option α)) (name : α) : List (Option α) :=
  match pickSlot (keptNames shorten given) name with
  | some slot => given.set slot (some name)
  | none => given

/-- No name is kept twice, and a name that was given finds its slot again. -/
structure Apart (shorten : α → α) (given : List (Option α)) : Prop where
  unique : ∀ (i j : Nat) (name : α), (keptNames shorten given)[i]? = some (some name) →
    (keptNames shorten given)[j]? = some (some name) → i = j
  found : ∀ (i : Nat) (name : α), given[i]? = some (some name) →
    pickSlot (keptNames shorten given) name = some i

section PickSlot

variable {slots : List (Option α)} {name : α} {slot : Nat}

theorem pickSlot_eq_some (h : pickSlot slots name = some slot) :
    slots[slot]? = some (some name) ∨
      (some name ∉ slots ∧ slots[slot]? = some none) := by
  rw [pickSlot] at h
  cases hfind : slots.findIdx? (fun slot => decide (slot = some name)) with
  | some found =>
    rw [hfind, Option.some_or] at h
    obtain ⟨hlt, hname, -⟩ := List.findIdx?_eq_some_iff_getElem.mp hfind
    obtain rfl := Option.some.inj h
    left
    rw [List.getElem?_eq_getElem hlt]
    exact congrArg some (by simpa using hname)
  | none =>
    rw [hfind, Option.none_or] at h
    obtain ⟨hlt, hfree, -⟩ := List.findIdx?_eq_some_iff_getElem.mp h
    right
    refine ⟨fun hmem => ?_, ?_⟩
    · have hother := List.findIdx?_eq_none_iff.mp hfind _ hmem
      simp at hother
    · rw [List.getElem?_eq_getElem hlt]
      exact congrArg some (by simpa using hfree)

theorem pickSlot_eq_none (h : pickSlot slots name = none) :
    some name ∉ slots ∧ none ∉ slots := by
  rw [pickSlot, Option.or_eq_none_iff, List.findIdx?_eq_none_iff, List.findIdx?_eq_none_iff] at h
  refine ⟨fun hmem => ?_, fun hmem => ?_⟩
  · have hother := h.1 _ hmem
    simp at hother
  · have hother := h.2 _ hmem
    simp at hother

/-- A name that one slot alone has picks it. -/
theorem pickSlot_of_unique (hslot : slots[slot]? = some (some name))
    (hunique : ∀ i : Nat, slots[i]? = some (some name) → i = slot) :
    pickSlot slots name = some slot := by
  cases hpick : pickSlot slots name with
  | none => exact absurd (List.mem_of_getElem? hslot) (pickSlot_eq_none hpick).1
  | some picked =>
    rcases pickSlot_eq_some hpick with hname | ⟨hfresh, -⟩
    · rw [hunique picked hname]
    · exact absurd (List.mem_of_getElem? hslot) hfresh

end PickSlot

section Apart

variable {shorten : α → α} {given : List (Option α)}

omit [DecidableEq α] in
theorem keptNames_of_short (h : ∀ name, some name ∈ given → shorten name = name) :
    keptNames shorten given = given := by
  have hsame : ∀ slot ∈ given, slot.map shorten = slot := by
    intro slot hslot
    cases slot with
    | none => rfl
    | some name => exact congrArg some (h name hslot)
  rw [keptNames, List.map_congr_left hsame, List.map_id']

/-- A given name that finds its slot has not been shortened. -/
theorem Apart.short (h : Apart shorten given) {name : α} (hname : some name ∈ given) :
    shorten name = name := by
  obtain ⟨i, hi⟩ := List.mem_iff_getElem?.mp hname
  have hkept : (keptNames shorten given)[i]? = some (some (shorten name)) := by
    rw [keptNames, List.getElem?_map, hi]
    rfl
  rcases pickSlot_eq_some (h.found i name hi) with hsame | ⟨-, hfree⟩
  · rw [hkept] at hsame
    exact Option.some.inj (Option.some.inj hsame)
  · rw [hkept] at hfree
    cases Option.some.inj hfree

theorem apart_iff : Apart shorten given ↔ (∀ name, some name ∈ given → shorten name = name) ∧
    ∀ (i j : Nat) (name : α), given[i]? = some (some name) → given[j]? = some (some name) →
      i = j := by
  constructor
  · intro h
    have hkept := keptNames_of_short fun name => h.short
    refine ⟨fun name => h.short, ?_⟩
    have hunique := h.unique
    rw [hkept] at hunique
    exact hunique
  · rintro ⟨hshort, hunique⟩
    have hkept := keptNames_of_short hshort
    refine ⟨?_, fun i name hi => ?_⟩
    · rw [hkept]
      exact hunique
    · rw [hkept]
      exact pickSlot_of_unique hi fun j hj => hunique j i name hj hi

theorem apart_replicate (shorten : α → α) (n : Nat) :
    Apart shorten (List.replicate n (none : Option α)) := by
  rw [apart_iff]
  refine ⟨fun name hname => ?_, fun i j name hi _ => ?_⟩
  · cases List.eq_of_mem_replicate hname
  · cases List.eq_of_mem_replicate (List.mem_of_getElem? hi)

theorem Apart.forget (h : Apart shorten given) (slot : Nat) :
    Apart shorten (given.set slot none) := by
  rw [apart_iff] at h ⊢
  have hold : ∀ (i : Nat) (name : α), (given.set slot none)[i]? = some (some name) →
      given[i]? = some (some name) := by
    intro i name hi
    rw [List.getElem?_set] at hi
    split at hi
    · split at hi <;> cases hi
    · exact hi
  refine ⟨fun name hname => ?_, fun i j name hi hj => h.2 i j name (hold i name hi) (hold j name hj)⟩
  obtain ⟨i, hi⟩ := List.mem_iff_getElem?.mp hname
  exact h.1 name (List.mem_of_getElem? (hold i name hi))

/-- One more name keeps the slots apart if and only if it is not shortened, or not stored. -/
theorem Apart.add_iff (h : Apart shorten given) (name : α) :
    Apart shorten (addName shorten given name) ↔ shorten name = name ∨ none ∉ given := by
  have hkept := keptNames_of_short fun name => h.short
  rw [addName, hkept]
  cases hpick : pickSlot given name with
  | none => exact ⟨fun _ => .inr (pickSlot_eq_none hpick).2, fun _ => h⟩
  | some slot =>
    dsimp only
    rcases pickSlot_eq_some hpick with hslot | ⟨hfresh, hslot⟩
    · have hsame : given.set slot (some name) = given := by
        obtain ⟨hlt, hget⟩ := List.getElem?_eq_some_iff.mp hslot
        rw [← hget]
        exact List.set_getElem_self hlt
      rw [hsame]
      exact ⟨fun _ => .inl (h.short (List.mem_of_getElem? hslot)), fun _ => h⟩
    · have hfree : none ∈ given := List.mem_of_getElem? hslot
      have hlt : slot < given.length := (List.getElem?_eq_some_iff.mp hslot).1
      have hnew : (given.set slot (some name))[slot]? = some (some name) := by
        rw [List.getElem?_set, if_pos rfl, if_pos hlt]
      constructor
      · intro hset
        exact .inl (hset.short (List.mem_of_getElem? hnew))
      · intro hshort
        have hshort : shorten name = name := hshort.resolve_right fun hnone => hnone hfree
        have hcases : ∀ (i : Nat) (other : α), (given.set slot (some name))[i]? = some (some other) →
            (i = slot ∧ other = name) ∨ (other ≠ name ∧ given[i]? = some (some other)) := by
          intro i other hi
          rw [List.getElem?_set] at hi
          split at hi
          · rename_i hat
            exact .inl ⟨hat.symm, (Option.some.inj (Option.some.inj hi)).symm⟩
          · exact .inr ⟨fun hother => hfresh (hother ▸ List.mem_of_getElem? hi), hi⟩
        rw [apart_iff] at h ⊢
        refine ⟨fun other hother => ?_, fun i j other hi hj => ?_⟩
        · obtain ⟨i, hi⟩ := List.mem_iff_getElem?.mp hother
          rcases hcases i other hi with ⟨-, rfl⟩ | ⟨-, hold⟩
          · exact hshort
          · exact h.1 other (List.mem_of_getElem? hold)
        · rcases hcases i other hi with ⟨rfl, rfl⟩ | ⟨hne, hold⟩
          · rcases hcases j other hj with ⟨rfl, -⟩ | ⟨hne, -⟩
            · rfl
            · exact absurd rfl hne
          · rcases hcases j other hj with ⟨-, rfl⟩ | ⟨-, hold'⟩
            · exact absurd rfl hne
            · exact h.2 i j other hold hold'

end Apart

end SnsxOS.Framework
