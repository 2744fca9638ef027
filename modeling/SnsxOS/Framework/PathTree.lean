import Mathlib.Data.List.Basic
import Mathlib.Data.List.Nodup
import Mathlib.Tactic

/-!
# Trees stored as tables of separator-joined paths

A table lists nodes under paths over an alphabet with a separator. It is a tree when its paths
are distinct and every proper prefix that ends before a separator is itself the path of a
directory. Adding a node below present directories, changing a node in place, removing a leaf
and renaming a subtree keep the tree.
-/

namespace SnsxOS.Framework

variable {α ν : Type*}

/-- `p` lies strictly below `q`: it continues `q` with a separator. -/
def Below (sep : α) (q p : List α) : Prop := ∃ r, p = q ++ sep :: r

theorem Below.trans {sep : α} {p q r : List α} (hpq : Below sep p q) (hqr : Below sep q r) :
    Below sep p r := by
  obtain ⟨a, rfl⟩ := hpq
  obtain ⟨b, rfl⟩ := hqr
  exact ⟨a ++ sep :: b, by simp⟩

theorem Below.length_lt {sep : α} {q p : List α} (h : Below sep q p) : q.length < p.length := by
  obtain ⟨r, rfl⟩ := h
  simp

theorem Below.ne {sep : α} {q p : List α} (h : Below sep q p) : p ≠ q := by
  rintro rfl
  exact lt_irrefl _ h.length_lt

theorem Below.sep_mem {sep : α} {q p : List α} (h : Below sep q p) : sep ∈ p := by
  obtain ⟨r, rfl⟩ := h
  simp

/-- The prefixes of a path are the part before its last separator and that part's prefixes. -/
theorem below_append_last {sep : α} {a b : List α} (hb : sep ∉ b) (q : List α) :
    Below sep q (a ++ sep :: b) ↔ q = a ∨ Below sep q a := by
  constructor
  · rintro ⟨r, hr⟩
    rcases List.append_eq_append_iff.mp hr with ⟨c, rfl, hc⟩ | ⟨c, rfl, hc⟩
    · cases c with
      | nil => exact Or.inl (by simp)
      | cons x c =>
        obtain ⟨rfl, rfl⟩ := List.cons.inj hc
        exact absurd (by simp) hb
    · cases c with
      | nil => exact Or.inl (by simp)
      | cons x c =>
        obtain ⟨rfl, -⟩ := List.cons.inj hc
        exact Or.inr ⟨c, rfl⟩
  · rintro (rfl | ⟨r, rfl⟩)
    · exact ⟨b, rfl⟩
    · exact ⟨r ++ sep :: b, by simp⟩

section Search

variable [DecidableEq α]

/-- The prefix comparison followed by a look at the next character. -/
def belowTest (sep : α) (q p : List α) : Bool := q.isPrefixOf p && p[q.length]? == some sep

theorem belowTest_iff (sep : α) (q p : List α) : belowTest sep q p = true ↔ Below sep q p := by
  simp only [belowTest, Bool.and_eq_true, List.isPrefixOf_iff_prefix, beq_iff_eq]
  constructor
  · rintro ⟨⟨r, rfl⟩, hs⟩
    rw [List.getElem?_append_right le_rfl, Nat.sub_self] at hs
    cases r with
    | nil => simp at hs
    | cons x r =>
      obtain rfl : x = sep := by simpa using hs
      exact ⟨r, rfl⟩
  · rintro ⟨r, rfl⟩
    exact ⟨List.prefix_append _ _, by simp⟩

instance (sep : α) (q p : List α) : Decidable (Below sep q p) :=
  decidable_of_iff _ (belowTest_iff sep q p)

/-- Position of the last occurrence of a character. -/
def lastIndex? (c : α) : List α → Option Nat
  | [] => none
  | a :: l =>
      match lastIndex? c l with
      | some i => some (i + 1)
      | none => if a = c then some 0 else none

theorem lastIndex?_eq_none {c : α} {l : List α} : lastIndex? c l = none ↔ c ∉ l := by
  induction l with
  | nil => simp [lastIndex?]
  | cons a l ih =>
    cases h : lastIndex? c l with
    | none =>
      have hc := ih.mp h
      by_cases ha : a = c
      · simp [lastIndex?, h, ha]
      · simp [lastIndex?, h, ha, Ne.symm ha, hc]
    | some i =>
      have hc : c ∈ l := by
        by_contra hn
        rw [ih.mpr hn] at h
        cases h
      simp [lastIndex?, h, hc]

theorem lastIndex?_eq_some {c : α} {l : List α} {i : Nat} (h : lastIndex? c l = some i) :
    ∃ a b, l = a ++ c :: b ∧ a.length = i ∧ c ∉ b := by
  induction l generalizing i with
  | nil => simp [lastIndex?] at h
  | cons x l ih =>
    cases hl : lastIndex? c l with
    | none =>
      have hc := lastIndex?_eq_none.mp hl
      by_cases hx : x = c
      · subst hx
        have hi : i = 0 := by simpa [lastIndex?, hl, eq_comm] using h
        exact ⟨[], l, rfl, hi.symm, hc⟩
      · simp [lastIndex?, hl, hx] at h
    | some j =>
      obtain ⟨a, b, rfl, ha, hb⟩ := ih hl
      have hi : i = j + 1 := by simpa [lastIndex?, hl, eq_comm] using h
      exact ⟨x :: a, b, rfl, by simp [ha, hi], hb⟩

theorem lastIndex?_append {c : α} {a b : List α} (hb : c ∉ b) :
    lastIndex? c (a ++ c :: b) = some a.length := by
  induction a with
  | nil => simp [lastIndex?, lastIndex?_eq_none.mpr hb]
  | cons x a ih => simp [lastIndex?, ih]

/-- The path cut at its last separator, where the root keeps its own. -/
def parentOf (sep : α) (path : List α) : List α :=
  if path = [sep] then path
  else match lastIndex? sep path with
    | none => path
    | some 0 => path.take 1
    | some index => path.take index

/-- The parent of a path is what stands before its last separator, or the root. -/
theorem parentOf_append {sep : α} {a b : List α} (hb : sep ∉ b) (hne : a ++ sep :: b ≠ [sep]) :
    parentOf sep (a ++ sep :: b) = if a = [] then [sep] else a := by
  rw [parentOf, if_neg hne, lastIndex?_append hb]
  cases a with
  | nil => rfl
  | cons x a =>
    rw [if_neg (by simp)]
    exact List.take_left' rfl

end Search

section Ancestors

variable [DecidableEq α]

/-- The prefixes that end before a separator, shortest first. -/
def ancestors (sep : α) : List α → List (List α)
  | [] => []
  | a :: p => (if a = sep then [[]] else []) ++ (ancestors sep p).map (a :: ·)

theorem mem_ancestors {sep : α} {q p : List α} : q ∈ ancestors sep p ↔ Below sep q p := by
  induction p generalizing q with
  | nil => simp [ancestors, Below]
  | cons a p ih =>
    cases q with
    | nil => simp [ancestors, Below]
    | cons b q => simp [ancestors, ih, Below, eq_comm, and_comm]

theorem ancestors_pairwise (sep : α) (p : List α) : (ancestors sep p).Pairwise (Below sep) := by
  induction p with
  | nil => exact List.Pairwise.nil
  | cons a p ih =>
    have htail : ((ancestors sep p).map (a :: ·)).Pairwise (Below sep) := by
      apply ih.map
      rintro q r ⟨t, rfl⟩
      exact ⟨t, rfl⟩
    rw [ancestors]
    split
    · rename_i ha
      apply List.pairwise_cons.mpr ⟨fun r hr => ?_, htail⟩
      obtain ⟨q, -, rfl⟩ := List.mem_map.mp hr
      exact ⟨q, by rw [ha, List.nil_append]⟩
    · exact htail

end Ancestors

/-- `p` is `src` or lies below it. -/
def InSubtree (sep : α) (src p : List α) : Prop := p = src ∨ Below sep src p

instance [DecidableEq α] (sep : α) (src p : List α) : Decidable (InSubtree sep src p) :=
  inferInstanceAs (Decidable (_ ∨ _))

/-- Exchange the leading `src` of a path for `dst`. -/
def rebase (src dst p : List α) : List α := dst ++ p.drop src.length

theorem rebase_append (src dst r : List α) : rebase src dst (src ++ r) = dst ++ r := by
  simp [rebase]

@[simp] theorem rebase_self (src dst : List α) : rebase src dst src = dst := by simp [rebase]

theorem InSubtree.exists_suffix {sep : α} {src p : List α} (h : InSubtree sep src p) :
    ∃ r, p = src ++ r ∧ (r = [] ∨ ∃ t, r = sep :: t) := by
  rcases h with rfl | ⟨t, rfl⟩
  · exact ⟨[], by simp, Or.inl rfl⟩
  · exact ⟨sep :: t, rfl, Or.inr ⟨t, rfl⟩⟩

theorem InSubtree.rebase {sep : α} {src p : List α} (h : InSubtree sep src p) (dst : List α) :
    InSubtree sep dst (rebase src dst p) := by
  rcases h with rfl | ⟨t, rfl⟩
  · exact Or.inl (rebase_self _ _)
  · exact Or.inr ⟨t, rebase_append _ _ _⟩

theorem InSubtree.length_le {sep : α} {src p : List α} (h : InSubtree sep src p) :
    src.length ≤ p.length := by
  rcases h with rfl | h
  · exact le_rfl
  · exact h.length_lt.le

/-- Whatever lies below a path of the subtree lies in the subtree. -/
theorem InSubtree.below {sep : α} {src q p : List α} (h : InSubtree sep src q)
    (hp : Below sep q p) : InSubtree sep src p := by
  rcases h with rfl | h
  · exact Or.inr hp
  · exact Or.inr (h.trans hp)

section Table

variable (sep : α) (key : ν → List α) (isDir : ν → Prop)

/-- Every nonempty proper prefix of the path is a directory of the table. -/
def Rooted (L : List ν) (p : List α) : Prop :=
  ∀ q, q ≠ [] → Below sep q p → ∃ d ∈ L, key d = q ∧ isDir d

/-- Distinct paths, each hanging from directories of the table. -/
structure TreeTable (L : List ν) : Prop where
  distinct : (L.map key).Nodup
  rooted : ∀ n ∈ L, Rooted sep key isDir L (key n)

variable {sep key isDir}

theorem TreeTable.nil : TreeTable sep key isDir ([] : List ν) := ⟨by simp, by simp⟩

/-- A path without separator needs no directory. -/
theorem Rooted.of_not_mem {L : List ν} {p : List α} (h : sep ∉ p) :
    Rooted sep key isDir L p := fun _ _ hb => absurd hb.sep_mem h

/-- It is enough that the part before the last separator is empty or a directory. -/
theorem Rooted.of_parent {L : List ν} (hL : TreeTable sep key isDir L) {a b : List α}
    (hb : sep ∉ b) (ha : a = [] ∨ ∃ d ∈ L, key d = a ∧ isDir d) :
    Rooted sep key isDir L (a ++ sep :: b) := by
  intro q hq hbelow
  rcases (below_append_last hb q).mp hbelow with rfl | hqa
  · exact ha.resolve_left hq
  · rcases ha with rfl | ⟨d, hd, rfl, -⟩
    · exact absurd hqa.length_lt (by simp)
    · exact hL.rooted d hd q hq hqa

theorem Rooted.mono {L L' : List ν} {p : List α} (h : Rooted sep key isDir L p)
    (hsub : ∀ d ∈ L, isDir d → ∃ d' ∈ L', key d' = key d ∧ isDir d') :
    Rooted sep key isDir L' p := by
  intro q hq hb
  obtain ⟨d, hd, rfl, hdir⟩ := h q hq hb
  exact hsub d hd hdir

theorem TreeTable.key_inj {L : List ν} (hL : TreeTable sep key isDir L) {m n : ν}
    (hm : m ∈ L) (hn : n ∈ L) (h : key m = key n) : m = n :=
  List.inj_on_of_nodup_map hL.distinct hm hn h

/-- Nothing lies below a node that is not a directory. -/
theorem TreeTable.not_below {L : List ν} (hL : TreeTable sep key isDir L) {n m : ν}
    (hn : n ∈ L) (hm : m ∈ L) (hne : key n ≠ []) (hdir : ¬ isDir n) :
    ¬ Below sep (key n) (key m) := by
  intro hb
  obtain ⟨d, hd, hk, hdd⟩ := hL.rooted m hm (key n) hne hb
  rw [hL.key_inj hd hn hk] at hdd
  exact hdir hdd

theorem TreeTable.push {L : List ν} (hL : TreeTable sep key isDir L) {n : ν}
    (hfresh : key n ∉ L.map key) (hroot : Rooted sep key isDir L (key n)) :
    TreeTable sep key isDir (L ++ [n]) := by
  have hsub : ∀ d ∈ L, isDir d → ∃ d' ∈ L ++ [n], key d' = key d ∧ isDir d' :=
    fun d hd hdir => ⟨d, List.mem_append_left _ hd, rfl, hdir⟩
  constructor
  · rw [List.map_append, List.map_singleton, ← List.concat_eq_append]
    exact hL.distinct.concat hfresh
  · intro m hm
    rcases List.mem_append.mp hm with hm | hm
    · exact (hL.rooted m hm).mono hsub
    · rw [List.mem_singleton.mp hm]
      exact hroot.mono hsub

/-- Changing nodes in place keeps the tree as long as paths and directories stay. -/
theorem TreeTable.of_same_keys {L L' : List ν} (hL : TreeTable sep key isDir L)
    (hkey : L'.map key = L.map key)
    (hsub : ∀ d ∈ L, isDir d → ∃ d' ∈ L', key d' = key d ∧ isDir d') :
    TreeTable sep key isDir L' := by
  constructor
  · rw [hkey]
    exact hL.distinct
  · intro m hm
    have hk : key m ∈ L.map key := hkey ▸ List.mem_map_of_mem hm
    obtain ⟨n, hn, he⟩ := List.mem_map.mp hk
    rw [← he]
    exact (hL.rooted n hn).mono hsub

/-- Removing a node with nothing below it keeps the tree. -/
theorem TreeTable.eraseIdx {L : List ν} (hL : TreeTable sep key isDir L) {i : Nat}
    (hi : i < L.length) (hleaf : ∀ n ∈ L, ¬ Below sep (key L[i]) (key n)) :
    TreeTable sep key isDir (L.eraseIdx i) := by
  constructor
  · exact hL.distinct.sublist ((List.eraseIdx_sublist L i).map key)
  · intro m hm q hq hb
    have hmL := List.mem_of_mem_eraseIdx hm
    obtain ⟨d, hd, rfl, hdir⟩ := hL.rooted m hmL q hq hb
    refine ⟨d, ?_, rfl, hdir⟩
    obtain ⟨j, hj, rfl⟩ := List.mem_iff_getElem.mp hd
    apply List.mem_eraseIdx_iff_getElem.mpr
    refine ⟨j, hj, ?_, rfl⟩
    rintro rfl
    exact hleaf m hmL hb

/-- Only the paths and the directory marks of the nodes matter. -/
theorem TreeTable.map_iff {μ : Type*} (g : ν → μ) (key : μ → List α) (isDir : μ → Prop)
    (L : List ν) : TreeTable sep key isDir (L.map g) ↔
      TreeTable sep (fun n => key (g n)) (fun n => isDir (g n)) L := by
  have hroot : ∀ p, Rooted sep key isDir (L.map g) p ↔
      Rooted sep (fun n => key (g n)) (fun n => isDir (g n)) L p := by
    intro p
    simp [Rooted]
  constructor
  · intro h
    refine ⟨by simpa [Function.comp_def] using h.distinct, fun n hn => ?_⟩
    exact (hroot _).mp (h.rooted (g n) (List.mem_map_of_mem hn))
  · intro h
    refine ⟨by simpa [Function.comp_def] using h.distinct, fun m hm => ?_⟩
    obtain ⟨n, hn, rfl⟩ := List.mem_map.mp hm
    exact (hroot _).mpr (h.rooted n hn)

/-- An absent path has nothing below it. -/
theorem TreeTable.not_inSubtree {L : List ν} (hL : TreeTable sep key isDir L) {dst : List α}
    (hdst : dst ≠ []) (habsent : dst ∉ L.map key) :
    ∀ n ∈ L, ¬ InSubtree sep dst (key n) := by
  intro n hn hin
  rcases hin with he | hb
  · exact habsent (he ▸ List.mem_map_of_mem hn)
  · obtain ⟨d, hd, hk, -⟩ := hL.rooted n hn dst hdst hb
    exact habsent (hk ▸ List.mem_map_of_mem hd)

/-- Renaming a subtree to an absent path outside it, below present directories, keeps the tree. -/
theorem TreeTable.rename [DecidableEq α] {L : List ν} (hL : TreeTable sep key isDir L)
    {src dst : List α} {f : ν → ν} (hsrc : src ≠ []) (hdst : dst ≠ [])
    (habsent : dst ∉ L.map key) (houter : ¬ Below sep src dst)
    (hroot : Rooted sep key isDir L dst)
    (hkey : ∀ n ∈ L, key (f n) =
      if InSubtree sep src (key n) then rebase src dst (key n) else key n)
    (hdir : ∀ n ∈ L, isDir n → isDir (f n)) : TreeTable sep key isDir (L.map f) := by
  have hclear := hL.not_inSubtree hdst habsent
  constructor
  · rw [List.map_map]
    refine List.Nodup.map_on ?_ (List.Nodup.of_map key hL.distinct)
    intro m hm n hn he
    simp only [Function.comp_apply, hkey m hm, hkey n hn] at he
    split at he <;> rename_i hms
    · split at he <;> rename_i hns
      · obtain ⟨r, hr, -⟩ := hms.exists_suffix
        obtain ⟨t, ht, -⟩ := hns.exists_suffix
        rw [hr, ht, rebase_append, rebase_append] at he
        exact hL.key_inj hm hn (by rw [hr, ht, List.append_cancel_left he])
      · exact absurd (he ▸ hms.rebase dst) (hclear n hn)
    · split at he <;> rename_i hns
      · exact absurd (he ▸ hns.rebase dst) (hclear m hm)
      · exact hL.key_inj hm hn he
  · intro m' hm' q hq hb
    obtain ⟨m, hm, rfl⟩ := List.mem_map.mp hm'
    rw [hkey m hm] at hb
    -- a directory outside the source subtree keeps its path
    have hkeep : ∀ d ∈ L, key d = q → isDir d → ¬ InSubtree sep src q →
        ∃ d' ∈ L.map f, key d' = q ∧ isDir d' := by
      intro d hd hk hdd hout
      refine ⟨f d, List.mem_map_of_mem hd, ?_, hdir d hd hdd⟩
      rw [hkey d hd, hk, if_neg hout]
    split at hb <;> rename_i hms
    · obtain ⟨r, hr, hrs⟩ := hms.exists_suffix
      rw [hr, rebase_append] at hb
      obtain ⟨t, ht⟩ := hb
      rcases List.append_eq_append_iff.mp ht with ⟨c, hc, hct⟩ | ⟨c, hc, hct⟩
      · -- `q` reaches into the moved part, so it is the image of a prefix of the old path
        have hbelow : Below sep (src ++ c) (key m) := ⟨t, by rw [hr, hct]; simp⟩
        obtain ⟨d, hd, hk, hdd⟩ := hL.rooted m hm (src ++ c) (by simp [hsrc]) hbelow
        refine ⟨f d, List.mem_map_of_mem hd, ?_, hdir d hd hdd⟩
        have hin : InSubtree sep src (src ++ c) := by
          rcases hrs with rfl | ⟨u, rfl⟩
          · simp at hct
          · cases c with
            | nil => exact Or.inl (by simp)
            | cons x c =>
              obtain ⟨rfl, -⟩ := List.cons.inj hct
              exact Or.inr ⟨c, rfl⟩
        rw [hkey d hd, hk, if_pos hin, rebase_append, hc]
      · -- `q` is a proper prefix of the target
        cases c with
        | nil =>
          have hq' : q = dst := by simpa using hc.symm
          have hr' : r = sep :: t := by simpa using hct.symm
          have hbelow : Below sep src (key m) := ⟨t, by rw [hr, hr']⟩
          obtain ⟨d, hd, hk, hdd⟩ := hL.rooted m hm src hsrc hbelow
          refine ⟨f d, List.mem_map_of_mem hd, ?_, hdir d hd hdd⟩
          have hself : InSubtree sep src src := Or.inl rfl
          rw [hkey d hd, hk, if_pos hself, rebase_self, hq']
        | cons x c =>
          obtain ⟨rfl, -⟩ := List.cons.inj hct
          have hqd : Below sep q dst := ⟨c, hc⟩
          obtain ⟨d, hd, hk, hdd⟩ := hroot q hq hqd
          refine hkeep d hd hk hdd fun hin => ?_
          rcases hin.below hqd with h | h
          · have hle := hin.length_le
            have hlt := hqd.length_lt
            rw [h] at hlt
            omega
          · exact houter h
    · obtain ⟨d, hd, hk, hdd⟩ := hL.rooted m hm q hq hb
      exact hkeep d hd hk hdd fun hin => hms (hin.below hb)

end Table

end SnsxOS.Framework
