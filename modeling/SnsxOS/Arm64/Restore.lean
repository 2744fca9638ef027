import SnsxOS.Arm64.Reboot
import SnsxOS.Arm64.RoundTrip

/-!
# Loading a snapshot over other files

The table that a snapshot is loaded into keeps the type of each of its paths. A saved node gets
through unless that table has another type at its path or a file above it; a saved file that
gets through has its saved bytes.
-/

namespace SnsxOS.Arm64

open Framework

/-- What a table must be for a snapshot to be loaded over it. -/
structure Base (base : Table) : Prop where
  nodup : (base.map FileNode.path).Nodup
  loadable : ∀ node ∈ base, Loadable node
  ne_root : ∀ node ∈ base, node.path ≠ [slash]
  clear : ∀ file ∈ base, file.type = .text → ∀ node ∈ base, ¬ Below slash file.path node.path

/-- The base refuses the node: it has another type at the path or a file above it. -/
def Blocked (base : Table) (node : FileNode ArmFsType) : Prop :=
  (∃ m ∈ base, m.path = node.path ∧ m.type ≠ node.type) ∨
    ∃ file ∈ base, file.type = .text ∧ Below slash file.path node.path

instance (base : Table) : DecidablePred (Blocked base) := fun node =>
  inferInstanceAs (Decidable ((∃ m ∈ base, m.path = node.path ∧ m.type ≠ node.type) ∨
    ∃ file ∈ base, file.type = .text ∧ Below slash file.path node.path))

section Parents

variable {path : Bytes}

/-- A path with a slash is split at the last one. -/
theorem exists_parent_split (h : slash ∈ path) (hne : path ≠ [slash]) :
    ∃ a b, path = a ++ slash :: b ∧ slash ∉ b ∧
      parentDirectory path = if a = [] then [slash] else a := by
  cases hlast : lastIndex? slash path with
  | none => exact absurd h (lastIndex?_eq_none.mp hlast)
  | some i =>
    obtain ⟨a, b, rfl, -, hb⟩ := lastIndex?_eq_some hlast
    exact ⟨a, b, rfl, hb, parentDirectory_append hb hne⟩

/-- The parent of an absolute path is the root or lies above it. -/
theorem parentDirectory_cases (h : path.head? = some slash) :
    parentDirectory path = [slash] ∨ Below slash (parentDirectory path) path := by
  by_cases hne : path = [slash]
  · rw [hne]
    exact Or.inl rfl
  · obtain ⟨a, b, hsplit, hb, hparent⟩ := exists_parent_split (List.mem_of_mem_head? h) hne
    rw [hparent]
    split
    · exact Or.inl rfl
    · exact Or.inr ⟨b, hsplit⟩

/-- What lies above a path is its parent or lies above that. -/
theorem below_parentDirectory {q : Bytes} (h : Below slash q path) (hq : q ≠ []) :
    q = parentDirectory path ∨ Below slash q (parentDirectory path) := by
  have hne : path ≠ [slash] := by
    intro hroot
    have hlt := h.length_lt
    rw [hroot, List.length_singleton] at hlt
    exact hq (List.eq_nil_of_length_eq_zero (by omega))
  obtain ⟨a, b, rfl, hb, hparent⟩ := exists_parent_split h.sep_mem hne
  have ha : a ≠ [] := by
    rintro rfl
    rcases (below_append_last hb q).mp h with rfl | hbelow
    · exact hq rfl
    · exact absurd hbelow.length_lt (by simp)
  rw [hparent, if_neg ha]
  exact (below_append_last hb q).mp h

end Parents

section Load

variable {base saved table : Table} {node : FileNode ArmFsType}

/-- How far a table has come from the base by loading saved nodes. -/
structure Restoring (base saved table : Table) : Prop where
  nodup : (table.map FileNode.path).Nodup
  origin : ∀ m ∈ table, m ∈ base ∨ m ∈ saved
  typed : ∀ b ∈ base, ∃ m ∈ table, m.path = b.path ∧ m.type = b.type
  clear : ∀ file ∈ base, file.type = .text → ∀ m ∈ table, ¬ Below slash file.path m.path

theorem Base.restoring (h : Base base) : Restoring base saved base :=
  ⟨h.nodup, fun _ hm => Or.inl hm, fun b hb => ⟨b, hb, rfl, rfl⟩, h.clear⟩

/-- A path that can be pushed has no file of the base above it. -/
theorem Restoring.clear_of_canPush (hbase : Base base) (h : Restoring base saved table)
    (hload : Loadable node) (hroom : canPush table node.path = true) :
    ∀ file ∈ base, file.type = .text → ¬ Below slash file.path node.path := by
  intro file hfile htext hbelow
  have habsolute := (hbase.loadable file hfile).absolute
  have hnil : file.path ≠ [] := by
    intro hnil
    rw [hnil] at habsolute
    cases habsolute
  rw [canPush, parentOk, strcopyLimit_of_lt hload.fits, Bool.and_eq_true] at hroom
  have habove := below_parentDirectory hbelow hnil
  have hparent := hroom.1
  split at hparent
  · rename_i hroot
    have hshort : (parentDirectory node.path).length ≤ 1 := by
      rcases hroot with hroot | hroot <;> simp [hroot]
    rcases habove with heq | habove
    · rw [← heq] at hroot
      rcases hroot with hroot | hroot
      · exact hnil hroot
      · exact hbase.ne_root file hfile hroot
    · have hlt := habove.length_lt
      exact hnil (List.eq_nil_of_length_eq_zero (by omega))
  · split at hparent
    · cases hparent
    · rename_i m hlookup
      rcases mem_of_lookup hlookup with ⟨hm, hpath⟩
      rcases habove with heq | habove
      · rcases h.typed file hfile with ⟨m', hm', hpath', htype'⟩
        have hsame := List.inj_on_of_nodup_map h.nodup hm hm' (by rw [hpath, hpath', heq])
        rw [← hsame, beq_iff_eq.mp hparent, htext] at htype'
        cases htype'
      · rw [← hpath] at habove
        exact h.clear file hfile htext m hm habove

/-- Loading keeps what the table has come to. -/
theorem Restoring.load (hbase : Base base) (h : Restoring base saved table)
    (hload : Loadable node) (hnode : node ∈ saved) :
    Restoring base saved (loadNode table node) := by
  cases loadNode_effect table node with
  | skipped _ hsame =>
    rw [hsame]
    exact h
  | pushed _ habsent hroom hpush =>
    rw [hpush, hload.stripped]
    constructor
    · rw [List.map_append, List.map_singleton, ← List.concat_eq_append]
      exact h.nodup.concat habsent
    · intro m hm
      rcases List.mem_append.mp hm with hm | hm
      · exact h.origin m hm
      · rw [List.mem_singleton.mp hm]
        exact Or.inr hnode
    · intro b hb
      rcases h.typed b hb with ⟨m, hm, hsame⟩
      exact ⟨m, List.mem_append_left _ hm, hsame⟩
    · intro file hfile htext m hm
      rcases List.mem_append.mp hm with hm | hm
      · exact h.clear file hfile htext m hm
      · rw [List.mem_singleton.mp hm]
        exact h.clear_of_canPush hbase hload hroom file hfile htext
  | stored _ slot hfirst hslot hfile htext hstore =>
    have hpath := (slotOf_eq_some hfirst).2
    rw [hstore]
    constructor
    · rw [map_set hslot hpath.symm]
      exact h.nodup
    · intro m hm
      rcases List.mem_or_eq_of_mem_set hm with hm | rfl
      · exact h.origin m hm
      · exact Or.inr hnode
    · intro b hb
      rcases h.typed b hb with ⟨m, hm, hmpath, hmtype⟩
      by_cases hslotted : m = table[slot]
      · subst hslotted
        exact ⟨node, List.mem_set hslot node, hpath.symm.trans hmpath, by
          rw [htext, ← hmtype, hfile]⟩
      · exact ⟨m, mem_set_of_ne hslot hm hslotted node, hmpath, hmtype⟩
    · intro file hfile htext' m hm
      rcases List.mem_or_eq_of_mem_set hm with hm | rfl
      · exact h.clear file hfile htext' m hm
      · rw [← hpath]
        exact h.clear file hfile htext' _ (List.getElem_mem hslot)

theorem Restoring.foldl (hbase : Base base) {nodes : Table} (hsub : nodes ⊆ saved)
    (hload : ∀ node ∈ nodes, Loadable node) (h : Restoring base saved table) :
    Restoring base saved (nodes.foldl loadNode table) := by
  induction nodes generalizing table with
  | nil => exact h
  | cons node nodes ih =>
    have hnext := h.load hbase (hload node (by simp)) (hsub (by simp))
    exact ih (fun m hm => hsub (by simp [hm])) (fun m hm => hload m (by simp [hm])) hnext

/-- A file that the base refuses stays out. -/
theorem Restoring.not_mem (h : Restoring base saved table) (hblocked : Blocked base node) :
    node ∉ table := by
  intro hnode
  rcases hblocked with ⟨b, hb, hpath, htype⟩ | ⟨file, hfile, hfiletext, hbelow⟩
  · rcases h.typed b hb with ⟨m, hm, hmpath, hmtype⟩
    have hsame := List.inj_on_of_nodup_map h.nodup hm hnode (hmpath.trans hpath)
    rw [hsame] at hmtype
    exact htype hmtype.symm
  · exact h.clear file hfile hfiletext node hnode hbelow

/-- A saved node in the table is there after every load of the snapshot. -/
theorem Restoring.stays (hcons : Consistent FileNode.path saved) (hnode : node ∈ saved)
    {m : FileNode ArmFsType} (hsaved : m ∈ saved) (hm : m ∈ table) : m ∈ loadNode table node := by
  cases loadNode_effect table node with
  | skipped _ hsame =>
    rw [hsame]
    exact hm
  | pushed _ _ _ hpush =>
    rw [hpush]
    exact List.mem_append_left _ hm
  | stored _ slot hfirst hslot _ _ hstore =>
    rw [hstore]
    by_cases hslotted : m = table[slot]
    · have hsame : m = node := by
        apply hcons m hsaved node hnode
        rw [hslotted]
        exact (slotOf_eq_some hfirst).2
      rw [hsame]
      exact List.mem_set hslot node
    · exact mem_set_of_ne hslot hm hslotted node

end Load

section Blocked

variable {base saved : Table} {node m : FileNode ArmFsType}

/-- The parent of a node that gets through gets through. -/
theorem Blocked.of_parent (habsolute : node.path.head? = some slash)
    (hpath : m.path = parentDirectory node.path) (hroot : m.path ≠ [slash]) (hdir : m.type = .dir)
    (h : Blocked base m) : Blocked base node := by
  have hbelow : Below slash m.path node.path := by
    rcases parentDirectory_cases habsolute with hparent | hparent
    · exact absurd (hpath.trans hparent) hroot
    · rw [hpath]
      exact hparent
  rcases h with ⟨b, hb, hbpath, htype⟩ | ⟨file, hfile, htext, habove⟩
  · refine Or.inr ⟨b, hb, ArmFsType.text_of_ne_dir fun hbdir => htype (hbdir.trans hdir.symm), ?_⟩
    rw [hbpath]
    exact hbelow
  · exact Or.inr ⟨file, hfile, htext, habove.trans hbelow⟩

end Blocked

section Main

variable {table base saved : Table} {node : FileNode ArmFsType}

/-- The paths of the base and of the snapshot together fit the table. -/
def RoomFor (base saved : Table) : Prop :=
  (base.map FileNode.path ++ saved.map FileNode.path).dedup.length ≤ fsMaxEntries

instance (base saved : Table) : Decidable (RoomFor base saved) :=
  inferInstanceAs (Decidable (_ ≤ _))

theorem Restoring.length_lt (h : Restoring base saved table) (hroom : RoomFor base saved)
    (hnode : node ∈ saved) (habsent : node.path ∉ table.map FileNode.path) :
    table.length < fsMaxEntries := by
  have hnodup : (node.path :: table.map FileNode.path).Nodup :=
    List.nodup_cons.mpr ⟨habsent, h.nodup⟩
  have hsub : node.path :: table.map FileNode.path ⊆
      (base.map FileNode.path ++ saved.map FileNode.path).dedup := by
    intro path hpath
    rw [List.mem_dedup, List.mem_append]
    rcases List.mem_cons.mp hpath with rfl | hpath
    · exact Or.inr (List.mem_map_of_mem hnode)
    · rcases List.mem_map.mp hpath with ⟨m, hm, rfl⟩
      exact (h.origin m hm).imp (fun hm => List.mem_map_of_mem hm)
        fun hm => List.mem_map_of_mem hm
  have hlen := (List.subperm_of_subset hnodup hsub).length_le
  rw [List.length_cons, List.length_map] at hlen
  exact lt_of_lt_of_le (Nat.lt_of_succ_le hlen) hroom

/-- A path that is taken for a node the base does not refuse is taken by the node. -/
theorem Restoring.taken (hbase : Base base) (h : Restoring base saved table)
    (hcons : Consistent FileNode.path saved) (hload : Loadable node) (hnode : node ∈ saved)
    (hfree : ¬ Blocked base node) {slot : Nat} (hslot : slot < table.length)
    (hpath : table[slot].path = node.path) (hdir : node.type = .dir ∨ table[slot].type = .dir) :
    node ∈ table := by
  have hmem : table[slot] ∈ table := List.getElem_mem hslot
  suffices hsame : table[slot] = node from hsame ▸ hmem
  rcases h.origin _ hmem with hin | hin
  · have htype : table[slot].type = node.type := by
      by_contra htype
      exact hfree (Or.inl ⟨_, hin, hpath, htype⟩)
    have hnodedir : node.type = .dir := by
      rcases hdir with hdir | hdir
      · exact hdir
      · rw [← htype, hdir]
    have hslotted := (hbase.loadable _ hin).stripped
    rw [stripped, if_pos (htype.trans hnodedir), hpath] at hslotted
    have hstripped := hload.stripped
    rw [stripped, if_pos hnodedir] at hstripped
    exact hslotted.symm.trans hstripped
  · exact hcons _ hin node hnode hpath

/-- A node that the base does not refuse is stored once its parent is. -/
theorem Restoring.gains (hbase : Base base) (h : Restoring base saved table)
    (hcons : Consistent FileNode.path saved) (hroom : RoomFor base saved)
    (hload : ∀ m ∈ saved, Loadable m) (hnode : node ∈ saved) (hfree : ¬ Blocked base node)
    {before : Table} (hbefore : ∀ m ∈ before, ¬ Blocked base m → m ∈ table)
    (hready : hasParent before node = true) : node ∈ loadNode table node := by
  have hnodeload := hload node hnode
  cases loadNode_effect table node with
  | skipped hwhy hsame =>
    rw [hsame]
    cases hwhy with
    | unfit hbad => exact absurd hnodeload.storable hbad
    | taken slot hfirst hslot hdir =>
      exact h.taken hbase hcons hnodeload hnode hfree hslot (slotOf_eq_some hfirst).2 hdir
    | refused habsent hfull =>
      have hparent : parentOk table node.path = true := by
        rw [parentOk, strcopyLimit_of_lt hnodeload.fits]
        split
        · rfl
        · rename_i hroot
          simp only [hasParent, hroot, decide_false, Bool.false_or, List.any_eq_true,
            decide_eq_true_eq] at hready
          rcases hready with ⟨m, hm, hpath, hdir⟩
          push Not at hroot
          have hmfree : ¬ Blocked base m := fun hblocked =>
            hfree (hblocked.of_parent hnodeload.absolute hpath (hpath ▸ hroot.2) hdir)
          have hlookup := (lookup_eq_some h.nodup).mpr ⟨hbefore m hm hmfree, hpath⟩
          rw [hlookup]
          exact beq_iff_eq.mpr hdir
      have hlen := h.length_lt hroom hnode habsent
      rw [canPush, hparent, decide_eq_true ⟨hlen, hnodeload.fits⟩] at hfull
      cases hfull
  | pushed _ _ _ hpush =>
    rw [hpush, hnodeload.stripped]
    exact List.mem_append_right _ (List.mem_singleton.mpr rfl)
  | stored _ slot _ hslot _ _ hstore =>
    rw [hstore]
    exact List.mem_set hslot node

/-- What the base does not refuse gets through when its parents are listed first. -/
theorem Restoring.mem_foldl (hbase : Base base) (hcons : Consistent FileNode.path saved)
    (hroom : RoomFor base saved) (hload : ∀ m ∈ saved, Loadable m) {nodes part : Table}
    (hpart : part.Sublist nodes) (hsub : nodes ⊆ saved) :
    ∀ {table before : Table}, Restoring base saved table → before ⊆ saved →
      (∀ m ∈ before, ¬ Blocked base m → m ∈ table) → OrderReady hasParent before part →
      ∀ m ∈ before ++ part, ¬ Blocked base m → m ∈ nodes.foldl loadNode table := by
  induction hpart with
  | slnil =>
    intro table before h _ hbefore _ m hm hfree
    exact hbefore m (by simpa using hm) hfree
  | @cons part nodes next hpart ih =>
    intro table before h hsaved hbefore hready
    have hnext : next ∈ saved := hsub (by simp)
    exact ih (fun m hm => hsub (by simp [hm])) (h.load hbase (hload next hnext) hnext) hsaved
      (fun m hm hfree => stays hcons hnext (hsaved hm) (hbefore m hm hfree))
      hready
  | @cons_cons part nodes next hpart ih =>
    intro table before h hsaved hbefore hready m hm hfree
    have hnext : next ∈ saved := hsub (by simp)
    have hloaded : ∀ m ∈ before ++ [next], ¬ Blocked base m → m ∈ loadNode table next := by
      intro m hm hfree
      rcases List.mem_append.mp hm with hm | hm
      · exact stays hcons hnext (hsaved hm) (hbefore m hm hfree)
      · rw [List.mem_singleton.mp hm] at hfree ⊢
        exact h.gains hbase hcons hroom hload hnext hfree hbefore hready.1
    have hsaved' : before ++ [next] ⊆ saved := by
      intro m hm
      rcases List.mem_append.mp hm with hm | hm
      · exact hsaved hm
      · rw [List.mem_singleton.mp hm]
        exact hnext
    exact ih (fun m hm => hsub (by simp [hm])) (h.load hbase (hload next hnext) hnext) hsaved'
      hloaded hready.2 m (by simpa using hm) hfree

/-- The nodes of a snapshot that are there after it was loaded. -/
theorem mem_foldl_loadNode_iff (hbase : Base base) (hcons : Consistent FileNode.path saved)
    (hroom : RoomFor base saved) (hload : ∀ m ∈ saved, Loadable m)
    (hordered : ∃ listed, listed.Sublist saved ∧ saved ⊆ listed ∧ ParentsFirst listed)
    (hnode : node ∈ saved) :
    node ∈ saved.foldl loadNode base ↔ ¬ Blocked base node := by
  rcases hordered with ⟨listed, hlisted, hcover, hfirst⟩
  constructor
  · intro hin hblocked
    have h := hbase.restoring.foldl hbase (List.Subset.refl saved) hload
    exact h.not_mem hblocked hin
  · intro hfree
    exact Restoring.mem_foldl hbase hcons hroom hload hlisted (List.Subset.refl saved)
      hbase.restoring (List.nil_subset saved) (by simp) hfirst node
      (by simpa using hcover hnode) hfree

end Main

end SnsxOS.Arm64
