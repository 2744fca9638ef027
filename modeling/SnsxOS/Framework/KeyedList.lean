import SnsxOS.Framework.PathTree

/-!
# Lists searched by key

Lookup returns the first node under a key. When keys are distinct the list is a finite map:
lookup finds exactly the listed nodes, and adding, changing and removing a node are the map
updates at its key.
-/

namespace SnsxOS.Framework

variable {κ ν : Type*} [DecidableEq κ] (key : ν → κ)

/-- The first node under the key. -/
def lookup (L : List ν) (p : κ) : Option ν := L.find? fun n => key n == p

/-- The position of the first node under the key. -/
def slotOf (L : List ν) (p : κ) : Option Nat := L.findIdx? fun n => key n == p

variable {key}

theorem lookup_eq_none {L : List ν} {p : κ} : lookup key L p = none ↔ p ∉ L.map key := by
  simp [lookup, List.find?_eq_none]

theorem slotOf_eq_none {L : List ν} {p : κ} : slotOf key L p = none ↔ p ∉ L.map key := by
  simp [slotOf, List.findIdx?_eq_none_iff]

theorem slotOf_eq_some {L : List ν} {p : κ} {i : Nat} (h : slotOf key L p = some i) :
    ∃ hi : i < L.length, key L[i] = p := by
  obtain ⟨hi, hp, -⟩ := List.findIdx?_eq_some_iff_getElem.mp h
  exact ⟨hi, by simpa using hp⟩

/-- A key that is found keeps its position when nodes with further keys follow. -/
theorem slotOf_of_prefix {L M : List ν} (h : L.map key <+: M.map key) {p : κ} {i : Nat}
    (hs : slotOf key L p = some i) : slotOf key M p = some i := by
  obtain ⟨rest, hrest⟩ := h
  have hmap : ∀ N : List ν, slotOf key N p = (N.map key).findIdx? fun k => k == p := by
    intro N
    rw [List.findIdx?_map]
    rfl
  rw [hmap] at hs ⊢
  rw [← hrest, List.findIdx?_append, hs, Option.some_or]

theorem slotOf_prefix_iff {L M : List ν} (h : L.map key <+: M.map key) {p : κ} {i : Nat}
    (hi : i < L.length) : slotOf key M p = some i ↔ slotOf key L p = some i := by
  constructor
  · intro hs
    cases hfind : slotOf key L p with
    | some j => rw [← hs, slotOf_of_prefix h hfind]
    | none =>
      obtain ⟨hlt, hkey⟩ := slotOf_eq_some hs
      have hmem : p ∈ L.map key := by
        have hget := h.getElem (List.length_map key ▸ hi)
        rw [List.getElem_map, List.getElem_map, hkey] at hget
        rw [← hget]
        exact List.mem_map_of_mem (List.getElem_mem hi)
      exact absurd hmem (slotOf_eq_none.mp hfind)
  · exact slotOf_of_prefix h

/-- Both searches stop at the same node. -/
theorem lookup_of_slotOf {L : List ν} {p : κ} {i : Nat} (h : slotOf key L p = some i)
    (hi : i < L.length) : lookup key L p = some L[i] := by
  obtain ⟨_, hp, hmin⟩ := List.findIdx?_eq_some_iff_getElem.mp h
  rw [lookup, List.find?_eq_some_iff_getElem]
  exact ⟨hp, i, hi, rfl, fun j hj => by simpa using hmin j hj⟩

/-- A lookup finds the element in the first slot of its key. -/
theorem lookup_eq_some_iff {L : List ν} {p : κ} {n : ν} :
    lookup key L p = some n ↔ ∃ slot, slotOf key L p = some slot ∧ L[slot]? = some n := by
  constructor
  · intro h
    cases hslot : slotOf key L p with
    | none =>
      rw [lookup_eq_none.mpr (slotOf_eq_none.mp hslot)] at h
      cases h
    | some slot =>
      obtain ⟨hlt, -⟩ := slotOf_eq_some hslot
      refine ⟨slot, rfl, ?_⟩
      rw [List.getElem?_eq_getElem hlt, ← lookup_of_slotOf hslot hlt, h]
  · intro h
    obtain ⟨slot, hslot, hnode⟩ := h
    obtain ⟨hlt, -⟩ := slotOf_eq_some hslot
    rw [lookup_of_slotOf hslot hlt, ← List.getElem?_eq_getElem hlt, hnode]

theorem mem_of_lookup {L : List ν} {p : κ} {n : ν} (h : lookup key L p = some n) :
    n ∈ L ∧ key n = p :=
  ⟨List.mem_of_find?_eq_some h, by simpa using List.find?_some h⟩

theorem lookup_eq_some {L : List ν} (hL : (L.map key).Nodup) {p : κ} {n : ν} :
    lookup key L p = some n ↔ n ∈ L ∧ key n = p := by
  refine ⟨mem_of_lookup, ?_⟩
  rintro ⟨hn, rfl⟩
  cases h : lookup key L (key n) with
  | none => exact absurd (List.mem_map_of_mem hn) (lookup_eq_none.mp h)
  | some m =>
    obtain ⟨hm, hk⟩ := mem_of_lookup h
    rw [List.inj_on_of_nodup_map hL hm hn hk]

omit [DecidableEq κ] in
theorem key_getElem_inj {L : List ν} (hL : (L.map key).Nodup) {i j : Nat} (hi : i < L.length)
    (hj : j < L.length) (h : key L[i] = key L[j]) : i = j := by
  have hi' : i < (L.map key).length := by simpa using hi
  have hj' : j < (L.map key).length := by simpa using hj
  have he : (L.map key)[i] = (L.map key)[j] := by simpa using h
  exact hL.getElem_inj_iff.mp he

theorem lookup_append_singleton {L : List ν} {n : ν} (hfresh : key n ∉ L.map key) (p : κ) :
    lookup key (L ++ [n]) p = if p = key n then some n else lookup key L p := by
  rw [lookup, List.find?_append]
  by_cases hp : p = key n
  · subst hp
    rw [show L.find? (fun m => key m == key n) = none from lookup_eq_none.mpr hfresh]
    simp
  · simp [hp, Ne.symm hp, lookup]

omit [DecidableEq κ] in
theorem mem_modify {L : List ν} {i : Nat} (hi : i < L.length) {f : ν → ν} {m : ν}
    (hm : m ∈ L.modify i f) : m = f L[i] ∨ m ∈ L := by
  obtain ⟨j, hj, rfl⟩ := List.mem_iff_getElem.mp hm
  have hj' : j < L.length := by simpa using hj
  rw [List.getElem_modify]
  split
  · subst i
    exact Or.inl rfl
  · exact Or.inr (List.getElem_mem hj')

omit [DecidableEq κ] in
theorem map_modify {L : List ν} {i : Nat} (hi : i < L.length) {f : ν → ν}
    (hf : key (f L[i]) = key L[i]) : (L.modify i f).map key = L.map key := by
  apply List.ext_getElem
  · simp
  · intro j h1 h2
    simp only [List.getElem_map, List.getElem_modify]
    split
    · subst i
      exact hf
    · rfl

omit [DecidableEq κ] in
theorem modify_eq_set {L : List ν} {i : Nat} (hi : i < L.length) (f : ν → ν) :
    L.modify i f = L.set i (f L[i]) := by
  apply List.ext_getElem
  · simp
  · intro j h1 h2
    rw [List.getElem_modify, List.getElem_set]
    split
    · subst i
      rfl
    · rfl

omit [DecidableEq κ] in
theorem map_set {L : List ν} {i : Nat} (hi : i < L.length) {n : ν} (hn : key n = key L[i]) :
    (L.set i n).map key = L.map key := by
  rw [List.map_set, hn]
  apply List.ext_getElem
  · simp
  · intro j h1 h2
    rw [List.getElem_set]
    split
    · subst i
      simp
    · rfl

omit [DecidableEq κ] in
theorem mem_set_of_ne {L : List ν} {i : Nat} (hi : i < L.length) {m : ν} (hm : m ∈ L)
    (hne : m ≠ L[i]) (n : ν) : m ∈ L.set i n := by
  obtain ⟨j, hj, rfl⟩ := List.mem_iff_getElem.mp hm
  have hother : i ≠ j := by
    rintro rfl
    exact hne rfl
  exact List.mem_iff_getElem.mpr ⟨j, by simpa using hj, List.getElem_set_ne hother _⟩

omit [DecidableEq κ] in
/-- Setting a node changes the nodes with its key only. -/
theorem mem_set_iff {L : List ν} {i : Nat} (hi : i < L.length) {m n : ν}
    (hm : key m ≠ key n) (hn : key L[i] = key n) : m ∈ L.set i n ↔ m ∈ L := by
  constructor
  · intro hmem
    rcases List.mem_or_eq_of_mem_set hmem with hmem | rfl
    · exact hmem
    · exact absurd rfl hm
  · intro hmem
    refine mem_set_of_ne hi hmem ?_ n
    rintro rfl
    exact hm hn

omit [DecidableEq κ] in
/-- Removing a node takes nodes with its key only. -/
theorem mem_eraseIdx_iff {L : List ν} {i : Nat} (hi : i < L.length) {m : ν}
    (hm : key m ≠ key L[i]) : m ∈ L.eraseIdx i ↔ m ∈ L := by
  constructor
  · intro hmem
    exact List.mem_of_mem_eraseIdx hmem
  · intro hmem
    obtain ⟨j, hj, rfl⟩ := List.mem_iff_getElem.mp hmem
    have hother : j ≠ i := by
      rintro rfl
      exact hm rfl
    exact List.mem_eraseIdx_iff_getElem.mpr ⟨j, hj, hother, rfl⟩

/-- All nodes under a key. -/
def under (key : ν → κ) (L : List ν) (p : κ) : List ν := L.filter fun n => key n == p

theorem head?_under (L : List ν) (p : κ) : (under key L p).head? = lookup key L p :=
  List.head?_filter

theorem under_eq_nil {L : List ν} {p : κ} : under key L p = [] ↔ p ∉ L.map key := by
  simp [under, List.filter_eq_nil_iff]

/-- Distinct keys have one node each. -/
theorem length_under_le_one {L : List ν} (hL : (L.map key).Nodup) (p : κ) :
    (under key L p).length ≤ 1 := by
  have hcount : (under key L p).length = (L.map key).count p := by
    rw [under, List.count, List.countP_map, List.countP_eq_length_filter]
    rfl
  rw [hcount]
  exact List.nodup_iff_count_le_one.mp hL p

theorem under_append_of_ne {L : List ν} {n : ν} {p : κ} (hn : key n ≠ p) :
    under key (L ++ [n]) p = under key L p := by
  simp [under, hn]

/-- The nodes under a key in front of a position, at it and behind it. -/
theorem under_split {L : List ν} {i : Nat} (hi : i < L.length) (p : κ) :
    under key L p = under key (L.take i) p ++
      ((if key L[i] = p then [L[i]] else []) ++ under key (L.drop (i + 1)) p) := by
  have hsplit : L = L.take i ++ L[i] :: L.drop (i + 1) := by
    rw [List.cons_getElem_drop_succ, List.take_append_drop]
  have hunder := congrArg (fun L => under key L p) hsplit
  simp only [under, List.filter_append, List.filter_cons, beq_iff_eq] at hunder ⊢
  rw [hunder]
  split <;> rfl

theorem under_set_of_ne {L : List ν} {i : Nat} (hi : i < L.length) {n : ν} {p : κ}
    (hold : key L[i] ≠ p) (hnew : key n ≠ p) : under key (L.set i n) p = under key L p := by
  rw [under_split hi, List.set_eq_take_append_cons_drop, if_pos hi, if_neg hold]
  simp [under, hnew]

theorem under_eraseIdx_of_ne {L : List ν} {i : Nat} (hi : i < L.length) {p : κ}
    (hne : key L[i] ≠ p) : under key (L.eraseIdx i) p = under key L p := by
  rw [under_split hi, List.eraseIdx_eq_take_drop_succ, if_neg hne]
  simp [under]

/-- Taking out the first node under a key leaves the others. -/
theorem under_eraseIdx_slotOf {L : List ν} {p : κ} {i : Nat} (h : slotOf key L p = some i) :
    under key (L.eraseIdx i) p = (under key L p).tail := by
  obtain ⟨hi, hkey, hfirst⟩ := List.findIdx?_eq_some_iff_getElem.mp h
  have hfront : under key (L.take i) p = [] := by
    rw [under, List.filter_eq_nil_iff]
    intro n hn
    obtain ⟨j, hj, rfl⟩ := List.mem_iff_getElem.mp hn
    rw [List.length_take] at hj
    rw [List.getElem_take]
    exact hfirst j (by omega)
  have hat : key L[i] = p := by simpa using hkey
  rw [under_split hi, hfront, if_pos hat, List.eraseIdx_eq_take_drop_succ, under,
    List.filter_append, ← under, hfront]
  rfl

theorem lookup_modify {L : List ν} (hL : (L.map key).Nodup) {i : Nat} (hi : i < L.length)
    {f : ν → ν} (hf : key (f L[i]) = key L[i]) (p : κ) :
    lookup key (L.modify i f) p = if p = key L[i] then some (f L[i]) else lookup key L p := by
  have hL' : ((L.modify i f).map key).Nodup := map_modify hi hf ▸ hL
  have hmem : ∀ m, m ∈ L.modify i f → m = f L[i] ∨ (m ∈ L ∧ key m ≠ key L[i]) := by
    intro m hm
    obtain ⟨j, hj, rfl⟩ := List.mem_iff_getElem.mp hm
    have hj' : j < L.length := by simpa using hj
    rw [List.getElem_modify]
    split
    · subst i; exact Or.inl rfl
    · rename_i hij
      exact Or.inr ⟨List.getElem_mem hj', fun hk => hij (key_getElem_inj hL hi hj' hk.symm)⟩
  split
  · rename_i hp
    subst hp
    rw [lookup_eq_some hL']
    refine ⟨?_, hf⟩
    apply List.mem_iff_getElem.mpr
    exact ⟨i, by simpa using hi, by simp⟩
  · rename_i hp
    apply Option.ext
    intro m
    rw [lookup_eq_some hL', lookup_eq_some hL]
    constructor
    · rintro ⟨hm, rfl⟩
      rcases hmem m hm with rfl | ⟨hm, -⟩
      · exact absurd hf hp
      · exact ⟨hm, rfl⟩
    · rintro ⟨hm, rfl⟩
      obtain ⟨j, hj, rfl⟩ := List.mem_iff_getElem.mp hm
      refine ⟨List.mem_iff_getElem.mpr ⟨j, by simpa using hj, ?_⟩, rfl⟩
      rw [List.getElem_modify, if_neg]
      rintro rfl
      exact hp rfl

theorem lookup_eraseIdx {L : List ν} (hL : (L.map key).Nodup) {i : Nat} (hi : i < L.length)
    (p : κ) :
    lookup key (L.eraseIdx i) p = if p = key L[i] then none else lookup key L p := by
  have hL' : ((L.eraseIdx i).map key).Nodup := hL.sublist ((List.eraseIdx_sublist L i).map key)
  have hne : ∀ m ∈ L.eraseIdx i, key m ≠ key L[i] := by
    intro m hm hk
    obtain ⟨j, hj, hij, rfl⟩ := List.mem_eraseIdx_iff_getElem.mp hm
    exact hij (key_getElem_inj hL hj hi hk)
  split
  · rename_i hp
    subst hp
    rw [lookup_eq_none]
    intro hm
    obtain ⟨m, hm, hk⟩ := List.mem_map.mp hm
    exact hne m hm hk
  · rename_i hp
    apply Option.ext
    intro m
    rw [lookup_eq_some hL', lookup_eq_some hL]
    constructor
    · rintro ⟨hm, rfl⟩
      exact ⟨List.mem_of_mem_eraseIdx hm, rfl⟩
    · rintro ⟨hm, rfl⟩
      obtain ⟨j, hj, rfl⟩ := List.mem_iff_getElem.mp hm
      refine ⟨List.mem_eraseIdx_iff_getElem.mpr ⟨j, hj, ?_, rfl⟩, rfl⟩
      rintro rfl
      exact hp rfl

/-- Searching a projected list is searching the list under the projected key. -/
theorem lookup_map {μ : Type*} (g : ν → μ) (key : μ → κ) (L : List ν) (p : κ) :
    lookup key (L.map g) p = (lookup (fun n => key (g n)) L p).map g := by
  simp only [lookup, List.find?_map]
  rfl

theorem slotOf_map {μ : Type*} (g : ν → μ) (key : μ → κ) (L : List ν) (p : κ) :
    slotOf key (L.map g) p = slotOf (fun n => key (g n)) L p := by
  simp only [slotOf, List.findIdx?_map]
  rfl

theorem lookup_isSome {L : List ν} {p : κ} :
    (lookup key L p).isSome = true ↔ p ∈ L.map key := by
  rw [Option.isSome_iff_ne_none, Ne, lookup_eq_none, not_not]

section Rename

variable {α : Type*} [DecidableEq α] {sep : α} {pathOf : ν → List α} {isDir : ν → Prop}

/-- After a subtree rename the target subtree shows the old source subtree, the source subtree
is empty and every other path is untouched. -/
theorem lookup_rename {L : List ν} (hL : TreeTable sep pathOf isDir L)
    {src dst : List α} {f : ν → ν} (hsrc : src ≠ []) (hdst : dst ≠ [])
    (habsent : dst ∉ L.map pathOf) (houter : ¬ Below sep src dst)
    (hroot : Rooted sep pathOf isDir L dst)
    (hkey : ∀ n ∈ L, pathOf (f n) =
      if InSubtree sep src (pathOf n) then rebase src dst (pathOf n) else pathOf n)
    (hdir : ∀ n ∈ L, isDir n → isDir (f n))
    (hfix : ∀ n ∈ L, ¬ InSubtree sep src (pathOf n) → f n = n) (p : List α) :
    lookup pathOf (L.map f) p =
      if InSubtree sep dst p then (lookup pathOf L (rebase dst src p)).map f
      else if InSubtree sep src p then none else lookup pathOf L p := by
  have hL' := hL.rename hsrc hdst habsent houter hroot hkey hdir
  have hclear := hL.not_inSubtree hdst habsent
  apply Option.ext
  intro m
  rw [lookup_eq_some hL'.distinct]
  constructor
  · rintro ⟨hm, rfl⟩
    obtain ⟨n, hn, rfl⟩ := List.mem_map.mp hm
    rw [hkey n hn]
    by_cases hin : InSubtree sep src (pathOf n)
    · obtain ⟨r, hr, -⟩ := hin.exists_suffix
      rw [if_pos hin, if_pos (hin.rebase dst), hr, rebase_append, rebase_append, ← hr,
        (lookup_eq_some hL.distinct).mpr ⟨hn, rfl⟩, Option.map_some]
    · rw [if_neg hin, if_neg (hclear n hn), if_neg hin,
        (lookup_eq_some hL.distinct).mpr ⟨hn, rfl⟩, hfix n hn hin]
  · split
    · rename_i hin
      intro h
      obtain ⟨n, hl, rfl⟩ := Option.map_eq_some_iff.mp h
      obtain ⟨hn, hk⟩ := mem_of_lookup hl
      refine ⟨List.mem_map_of_mem hn, ?_⟩
      obtain ⟨r, rfl, -⟩ := hin.exists_suffix
      have hs : InSubtree sep src (pathOf n) := hk ▸ hin.rebase src
      rw [hkey n hn, if_pos hs, hk, rebase_append, rebase_append]
    · split
      · exact fun h => absurd h (by simp)
      · rename_i hd hs
        intro h
        obtain ⟨hm, rfl⟩ := mem_of_lookup h
        exact ⟨List.mem_map.mpr ⟨m, hm, hfix m hm hs⟩, rfl⟩

end Rename

end SnsxOS.Framework
