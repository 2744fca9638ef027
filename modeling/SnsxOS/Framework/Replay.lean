import Mathlib.Data.List.Basic
import Mathlib.Data.List.Nodup
import Mathlib.Tactic

/-!
# Replaying a listing into a table

Nodes are accepted one after another: a node whose key is taken is skipped, one that is not
ready yet is dropped, every other one is appended. What a replay adds is a part of the listing
in which each node is ready after the earlier ones, and every such part of a listing with
consistent keys gets in.
-/

namespace SnsxOS.Framework

variable {κ ν : Type*} [DecidableEq κ] (key : ν → κ) (ready : List ν → ν → Bool)

def accept (table : List ν) (node : ν) : List ν :=
  if key node ∈ table.map key then table
  else if ready table node then table ++ [node] else table

def acceptAll (table : List ν) (nodes : List ν) : List ν := nodes.foldl (accept key ready) table

/-- Each node is ready once the table and the nodes before it are there. -/
def OrderReady : List ν → List ν → Prop
  | _, [] => True
  | table, node :: nodes => ready table node = true ∧ OrderReady (table ++ [node]) nodes

instance instDecidableOrderReady (ready : List ν → ν → Bool) (table nodes : List ν) :
    Decidable (OrderReady ready table nodes) :=
  match nodes with
  | [] => inferInstanceAs (Decidable True)
  | node :: nodes =>
      have := instDecidableOrderReady ready (table ++ [node]) nodes
      inferInstanceAs (Decidable (_ ∧ _))

/-- Nodes with the same key are equal. -/
def Consistent (nodes : List ν) : Prop := ∀ m ∈ nodes, ∀ n ∈ nodes, key m = key n → m = n

variable {key ready}

omit [DecidableEq κ] in
theorem Consistent.of_nodup {nodes : List ν} (h : (nodes.map key).Nodup) :
    Consistent key nodes :=
  fun _ hm _ hn hk => List.inj_on_of_nodup_map h hm hn hk

omit [DecidableEq κ] in
theorem Consistent.subset {nodes nodes' : List ν} (h : Consistent key nodes)
    (hsub : nodes' ⊆ nodes) : Consistent key nodes' :=
  fun m hm n hn hk => h m (hsub hm) n (hsub hn) hk

theorem subset_accept (table : List ν) (node : ν) : table ⊆ accept key ready table node := by
  rw [accept]
  split
  · exact List.Subset.refl _
  · split
    · exact List.subset_append_left _ _
    · exact List.Subset.refl _

theorem Consistent.accept {table nodes : List ν} {node : ν}
    (h : Consistent key (table ++ node :: nodes)) :
    Consistent key (accept key ready table node ++ nodes) := by
  apply h.subset
  intro m hm
  rcases List.mem_append.mp hm with hm | hm
  · rw [SnsxOS.Framework.accept] at hm
    split at hm
    · exact List.mem_append_left _ hm
    · split at hm
      · rcases List.mem_append.mp hm with hm | hm
        · exact List.mem_append_left _ hm
        · rw [List.mem_singleton.mp hm]
          simp
      · exact List.mem_append_left _ hm
  · simp [hm]

theorem subset_acceptAll (table nodes : List ν) : table ⊆ acceptAll key ready table nodes := by
  induction nodes generalizing table with
  | nil => exact List.Subset.refl _
  | cons node nodes ih => exact List.Subset.trans (subset_accept table node) (ih _)

variable (key ready) in
/-- What a replay adds is a part of the listing, in order, each node ready when its turn comes. -/
theorem acceptAll_eq_append (table nodes : List ν) :
    ∃ added, added.Sublist nodes ∧ acceptAll key ready table nodes = table ++ added ∧
      OrderReady ready table added := by
  induction nodes generalizing table with
  | nil => exact ⟨[], List.Sublist.refl _, (List.append_nil _).symm, trivial⟩
  | cons node nodes ih =>
    rw [acceptAll, List.foldl_cons]
    have hskip : accept key ready table node = table → ∃ added, added.Sublist (node :: nodes) ∧
        List.foldl (accept key ready) (accept key ready table node) nodes = table ++ added ∧
        OrderReady ready table added := by
      intro hsame
      rw [hsame]
      obtain ⟨added, hsub, heq, hready⟩ := ih table
      exact ⟨added, hsub.cons _, heq, hready⟩
    by_cases htaken : key node ∈ table.map key
    · exact hskip (by rw [accept, if_pos htaken])
    · by_cases hnode : ready table node = true
      · obtain ⟨added, hsub, heq, hready⟩ := ih (table ++ [node])
        have hadd : accept key ready table node = table ++ [node] := by
          rw [accept, if_neg htaken, if_pos hnode]
        refine ⟨node :: added, hsub.cons_cons _, ?_, hnode, hready⟩
        rw [hadd]
        rw [acceptAll, List.append_assoc] at heq
        exact heq
      · exact hskip (by rw [accept, if_neg htaken, if_neg hnode])

/-- A listing of new keys whose nodes are ready in order is appended as it stands. -/
theorem acceptAll_of_orderReady (table nodes : List ν)
    (hkeys : ((table ++ nodes).map key).Nodup) (hready : OrderReady ready table nodes) :
    acceptAll key ready table nodes = table ++ nodes := by
  induction nodes generalizing table with
  | nil => rw [List.append_nil]; rfl
  | cons node nodes ih =>
    have hfresh : key node ∉ table.map key := by
      rw [List.map_append, List.map_cons] at hkeys
      intro hmem
      exact (List.nodup_append.mp hkeys).2.2 _ hmem _ (by simp) rfl
    have hsplit : table ++ node :: nodes = (table ++ [node]) ++ nodes := by simp
    rw [acceptAll, List.foldl_cons, accept, if_neg hfresh, if_pos hready.1, hsplit]
    rw [hsplit] at hkeys
    exact ih _ hkeys hready.2

/-- A part of the listing whose nodes become ready in order gets in completely. -/
theorem mem_acceptAll_of_orderReady
    (hmono : ∀ (table table' : List ν) (node : ν), table ⊆ table' → ready table node = true →
      ready table' node = true)
    {nodes part : List ν} (hpart : part.Sublist nodes) :
    ∀ {table before : List ν}, before ⊆ table → Consistent key (table ++ nodes) →
      OrderReady ready before part → ∀ node ∈ part, node ∈ acceptAll key ready table nodes := by
  induction hpart with
  | slnil => exact fun _ _ _ node hnode => absurd hnode (by simp)
  | @cons part nodes next hpart ih =>
    intro table before hbefore hcons hready
    exact ih (List.Subset.trans hbefore (subset_accept table next)) hcons.accept hready
  | @cons_cons part nodes next hpart ih =>
    intro table before hbefore hcons hready node hnode
    obtain ⟨hnext, hrest⟩ := hready
    have hin : next ∈ accept key ready table next := by
      rw [accept]
      split
      · rename_i htaken
        obtain ⟨m, hm, hk⟩ := List.mem_map.mp htaken
        rw [← hcons m (List.mem_append_left _ hm) next (by simp) hk]
        exact hm
      · rw [if_pos (hmono before table next hbefore hnext)]
        simp
    have hsub : before ++ [next] ⊆ accept key ready table next := by
      intro m hm
      rcases List.mem_append.mp hm with hm | hm
      · exact subset_accept table next (hbefore hm)
      · rw [List.mem_singleton.mp hm]
        exact hin
    rcases List.mem_cons.mp hnode with rfl | hnode
    · exact subset_acceptAll _ nodes hin
    · exact ih hsub (hcons.accept) hrest node hnode

end SnsxOS.Framework
