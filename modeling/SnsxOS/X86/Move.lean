import SnsxOS.X86.Refinement

/-!
# `fs_move` renames a whole subtree or nothing

The two loops of `fs_move` agree on the slots they touch because each of them tests a slot's
name before writing it. What the first loop admits is what the renamed tree needs: below an
absent destination no new name can meet an old one.
-/

namespace SnsxOS.X86

open Framework

/-- The part of the path before its last separator is empty or a directory of the table. -/
def ParentPresent (nodes : List FsNode) (p : Bytes) : Prop :=
  ∀ parent name, p = parent ++ slash :: name → slash ∉ name →
    parent = [] ∨ ∃ dir ∈ nodes, dir.name = parent ∧ dir.type = fsTypeDir

/-- The subtree at `source` can be found at `destination` instead. -/
structure Movable (nodes : List FsNode) (source destination : Bytes) : Prop where
  present : ∃ node ∈ nodes, node.name = source
  absent : ∀ node ∈ nodes, node.name ≠ destination
  outside : ∀ node ∈ nodes, node.name = source → node.type = fsTypeDir →
    ¬ Below slash source destination
  parent : ParentPresent nodes destination
  fits : ∀ node ∈ nodes, InSubtree slash source node.name →
    (rebase source destination node.name).length < fsPathMax

/-- Slot by slot, the subtree at `source` has moved to `destination` and nothing else changed. -/
structure SubtreeMoved (source destination : Bytes) (st st' : FsState) : Prop where
  count : st'.count = st.count
  name : ∀ slot < st.count, (st'.nodeAt slot).name =
    if InSubtree slash source (st.nodeAt slot).name then
      rebase source destination (st.nodeAt slot).name
    else (st.nodeAt slot).name
  data : ∀ slot < st.count, (st'.nodeAt slot).data = (st.nodeAt slot).data
  size : ∀ slot < st.count, (st'.nodeAt slot).size = (st.nodeAt slot).size
  type : ∀ slot < st.count, (st'.nodeAt slot).type = (st.nodeAt slot).type

variable {st : FsState}

/-- On a tree a present parent comes with all its ancestors. -/
theorem parentPresent_iff_rooted (h : FsTree st.used) {p : Bytes} :
    ParentPresent st.used p ↔
      Rooted slash FsNode.name (fun node => node.type = fsTypeDir) st.used p := by
  constructor
  · intro hparent
    cases hlast : lastIndex? slash p with
    | none => exact Rooted.of_not_mem (lastIndex?_eq_none.mp hlast)
    | some length =>
      obtain ⟨a, b, rfl, -, hb⟩ := lastIndex?_eq_some hlast
      exact Rooted.of_parent h.toTreeTable hb (hparent a b rfl hb)
  · intro hroot parent name hp hname
    by_cases hnil : parent = []
    · exact Or.inl hnil
    · exact Or.inr (hroot parent hnil ⟨name, hp⟩)

/-- The second loop of `fs_move` as a change of the slots. -/
theorem subtreeMoved_mapUsed (source destination : Bytes) :
    SubtreeMoved source destination st (st.mapUsed (fsMoveNode source destination)) := by
  have hnode : ∀ slot < st.count,
      FsState.nodeAt (st.mapUsed (fsMoveNode source destination)) slot =
        fsMoveNode source destination slot (st.nodeAt slot) := by
    intro slot hslot
    have hs : slot < st.used.length := by simpa using hslot
    have hs' : slot < (st.mapUsed (fsMoveNode source destination)).used.length := by
      simpa [SlotTable.used_mapUsed] using hs
    rw [nodeAt_used hs', nodeAt_used hs]
    simp [SlotTable.used_mapUsed]
  constructor
  · rfl
  · intro slot hslot
    rw [hnode slot hslot, fsMoveNode_name]
  · intro slot hslot
    rw [hnode slot hslot]
    exact (fsMoveNode_rest _ _ _ _).2.2
  · intro slot hslot
    rw [hnode slot hslot]
    exact (fsMoveNode_rest _ _ _ _).2.1
  · intro slot hslot
    rw [hnode slot hslot]
    exact (fsMoveNode_rest _ _ _ _).1

/-- The map lets exactly the movable subtrees move. -/
theorem contents_move_iff (h : FsTree st.used) {source destination : Bytes} (hs : source ≠ []) :
    ((contents st.used).move source destination).1 = true ↔
      Movable st.used source destination := by
  have hguard : ((contents st.used).move source destination).1 = true ↔
      contents st.used source ≠ none ∧ contents st.used destination = none ∧
        (contents st.used).Reachable destination ∧ ¬ Below slash source destination ∧
        (∀ p, contents st.used p ≠ none → InSubtree slash source p →
          destination.length + (p.drop source.length).length < fsPathMax) := by
    rw [FileMap.move]
    split <;> simp_all
  rw [hguard, contents_ne_none, contents_eq_none, contents_reachable h]
  constructor
  · intro hm
    obtain ⟨hpresent, habsent, hroot, houtside, hfits⟩ := hm
    constructor
    · exact hpresent
    · intro node hn he
      exact habsent (he ▸ List.mem_map_of_mem hn)
    · intro node hn he hdir
      exact houtside
    · exact (parentPresent_iff_rooted h).mpr hroot
    · intro node hn hin
      rw [rebase, List.length_append]
      exact hfits node.name (contents_ne_none.mpr ⟨node, hn, rfl⟩) hin
  · intro hm
    have hroot := (parentPresent_iff_rooted h).mp hm.parent
    refine ⟨hm.present, ?_, hroot, ?_, ?_⟩
    · intro hmem
      obtain ⟨node, hn, he⟩ := List.mem_map.mp hmem
      exact hm.absent node hn he
    · intro hbelow
      obtain ⟨node, hn, he, hdir⟩ := hroot source hs hbelow
      exact hm.outside node hn he hdir hbelow
    · intro p hp hin
      obtain ⟨node, hn, rfl⟩ := contents_ne_none.mp hp
      have hfit := hm.fits node hn hin
      rwa [rebase, List.length_append] at hfit

/-- `fs_move` answers true exactly for movable subtrees at accepted paths. -/
theorem fsMove_true_iff (h : FsTree st.used) (source destination : Bytes) :
    (fsMove st source destination).1 = true ↔
      ∃ s d, fsNormalizePath source = some s ∧ fsNormalizePath destination = some d ∧
        s ≠ [] ∧ d ≠ [] ∧ Movable st.used s d := by
  have hcall := congrArg Prod.fst (fsMove_refines h source destination)
  dsimp only at hcall
  rw [← hcall]
  simp only [FileMap.call, FileMap.onPath]
  cases hs : fsNormalizePath source with
  | none => simp
  | some s =>
    cases hd : fsNormalizePath destination with
    | none =>
      dsimp only
      split <;> simp
    | some d =>
      by_cases hsnil : s = []
      · simp [hsnil]
      by_cases hdnil : d = []
      · simp [hsnil, hdnil]
      · simp [hsnil, hdnil, contents_move_iff h hsnil]

/-- The answer tells whether the table was rewritten. -/
theorem fsMove_cases (st : FsState) (source destination : Bytes) :
    fsMove st source destination = (false, st) ∨
      ∃ s d, fsNormalizePath source = some s ∧ fsNormalizePath destination = some d ∧
        fsMove st source destination = (true, st.mapUsed (fsMoveNode s d)) := by
  unfold fsMove
  cases fsNormalizePath source with
  | none => exact Or.inl rfl
  | some s =>
    cases fsNormalizePath destination with
    | none => exact Or.inl rfl
    | some d =>
      dsimp only
      split
      · exact Or.inl rfl
      cases fsFindNodeNormalized st s with
      | none => exact Or.inl rfl
      | some slot =>
        dsimp only
        split
        · exact Or.inl rfl
        split
        · exact Or.inl rfl
        split
        · exact Or.inl rfl
        · exact Or.inr ⟨s, d, rfl, rfl, rfl⟩

/-- On a tree `fs_move` leaves the state alone or moves the subtree, and it moves whatever can
move. -/
theorem fsMove_all_or_nothing (st : FsState) (h : FsTree st.used) (source destination : Bytes) :
    (((fsMove st source destination).1 = false ∧ (fsMove st source destination).2 = st) ∨
      ((fsMove st source destination).1 = true ∧
        ∃ s d, fsNormalizePath source = some s ∧ fsNormalizePath destination = some d ∧
          SubtreeMoved s d st (fsMove st source destination).2)) ∧
    ∀ s d, fsNormalizePath source = some s → fsNormalizePath destination = some d →
      s ≠ [] → d ≠ [] → Movable st.used s d → (fsMove st source destination).1 = true := by
  constructor
  · rcases fsMove_cases st source destination with hsame | hmoved
    · rw [hsame]
      exact Or.inl ⟨rfl, rfl⟩
    · obtain ⟨s, d, hs, hd, hmove⟩ := hmoved
      rw [hmove]
      exact Or.inr ⟨rfl, s, d, hs, hd, subtreeMoved_mapUsed s d⟩
  · intro s d hs hd hsnil hdnil hm
    exact (fsMove_true_iff h source destination).mpr ⟨s, d, hs, hd, hsnil, hdnil, hm⟩

/-- The directory `/home` of the built-in table moves together with its file. -/
theorem fsMove_all_or_nothing_home :
    (((fsMove (fsUseBuiltin zeroTable) (ascii "/home") (ascii "/docs/me")).1 = false ∧
        (fsMove (fsUseBuiltin zeroTable) (ascii "/home") (ascii "/docs/me")).2 =
          fsUseBuiltin zeroTable) ∨
      ((fsMove (fsUseBuiltin zeroTable) (ascii "/home") (ascii "/docs/me")).1 = true ∧
        ∃ s d, fsNormalizePath (ascii "/home") = some s ∧
          fsNormalizePath (ascii "/docs/me") = some d ∧
          SubtreeMoved s d (fsUseBuiltin zeroTable)
            (fsMove (fsUseBuiltin zeroTable) (ascii "/home") (ascii "/docs/me")).2)) ∧
    ∀ s d, fsNormalizePath (ascii "/home") = some s →
      fsNormalizePath (ascii "/docs/me") = some d → s ≠ [] → d ≠ [] →
      Movable (fsUseBuiltin zeroTable).used s d →
      (fsMove (fsUseBuiltin zeroTable) (ascii "/home") (ascii "/docs/me")).1 = true :=
  fsMove_all_or_nothing _ (fsUseBuiltin_tree zeroTable) _ _

end SnsxOS.X86
