import SnsxOS.Framework.Fuel
import Mathlib.Data.List.Perm.Basic
import Mathlib.Data.List.Count
import Mathlib.Logic.Relation
import Mathlib.Tactic

/-!
# Walking a forest that is listed level by level

A node that is a directory has a listing of its own. The walk visits the nodes of a list in
order and the listing of each directory right behind it. When ranks grow from a directory to
what it lists, the walk ends, and the lists that contain exactly what the start and their own
directories list agree up to order. Over finitely many nodes it ends exactly when no directory
lies inside itself.
-/

namespace SnsxOS.Framework

variable {κ ν : Type*} (listing : κ → List ν) (path : ν → κ) (isDir : ν → Bool)

/-- The nodes visited, in order and each with its depth. -/
def walk : Nat → Nat → List ν → Option (List (Nat × ν))
  | 0, _, _ => none
  | _ + 1, _, [] => some []
  | fuel + 1, depth, node :: rest =>
      if isDir node then
        (walk fuel (depth + 1) (listing (path node))).bind fun inner =>
          (walk fuel depth rest).map fun lines => (depth, node) :: (inner ++ lines)
      else (walk fuel depth rest).map fun lines => (depth, node) :: lines

/-- A finished walk. -/
inductive Visits : List ν → List ν → Prop
  | nil : Visits [] []
  | file {node : ν} {rest out : List ν} (hfile : isDir node = false) (hrest : Visits rest out) :
      Visits (node :: rest) (node :: out)
  | dir {node : ν} {rest inner out : List ν} (hdir : isDir node = true)
      (hinner : Visits (listing (path node)) inner) (hrest : Visits rest out) :
      Visits (node :: rest) (node :: (inner ++ out))

/-- The node is listed under the directory. -/
def Listed (dir node : ν) : Prop := isDir dir = true ∧ node ∈ listing (path dir)

/-- The contents of a directory at any depth. -/
def Inside : ν → ν → Prop := Relation.TransGen (Listed listing path isDir)

/-- The list holds what the start and its own directories list, each as often as it is listed. -/
def Closed (start nodes : List ν) : Prop :=
  nodes.Perm (start ++ (nodes.filter isDir).flatMap fun dir => listing (path dir))

variable {listing path isDir}

section Runs

theorem visits_of_walk {fuel depth : Nat} {nodes : List ν} {lines : List (Nat × ν)}
    (h : walk listing path isDir fuel depth nodes = some lines) :
    Visits listing path isDir nodes (lines.map Prod.snd) := by
  induction fuel generalizing depth nodes lines with
  | zero => cases h
  | succ fuel ih =>
    cases nodes with
    | nil =>
      cases h
      exact .nil
    | cons node rest =>
      rw [walk] at h
      split at h
      · rename_i hdir
        obtain ⟨inner, hinner, h⟩ := Option.bind_eq_some_iff.mp h
        obtain ⟨tail, htail, rfl⟩ := Option.map_eq_some_iff.mp h
        rw [List.map_cons, List.map_append]
        exact .dir hdir (ih hinner) (ih htail)
      · rename_i hfile
        obtain ⟨tail, htail, rfl⟩ := Option.map_eq_some_iff.mp h
        exact .file (Bool.eq_false_iff.mpr hfile) (ih htail)

theorem settles_of_visits {nodes out : List ν} (h : Visits listing path isDir nodes out)
    (depth : Nat) : ∃ lines, Settles (fun fuel => walk listing path isDir fuel depth nodes) lines ∧
      lines.map Prod.snd = out := by
  induction h generalizing depth with
  | nil => exact ⟨[], Settles.succ (fun _ => by rw [walk]) (settles_some _), rfl⟩
  | @file node rest out hfile hrest ih =>
    obtain ⟨lines, hlines, hout⟩ := ih depth
    refine ⟨(depth, node) :: lines, Settles.succ (fun fuel => ?_)
      (hlines.map fun lines => (depth, node) :: lines), by rw [List.map_cons, hout]⟩
    rw [walk, hfile, if_neg Bool.false_ne_true]
  | @dir node rest inner out hdir hinner hrest ihinner ihrest =>
    obtain ⟨inside, hinside, hinner⟩ := ihinner (depth + 1)
    obtain ⟨lines, hlines, hout⟩ := ihrest depth
    refine ⟨(depth, node) :: (inside ++ lines), Settles.succ (fun fuel => ?_)
      (hinside.bind (fun fuel inside => (walk listing path isDir fuel depth rest).map
        fun lines => (depth, node) :: (inside ++ lines))
        (hlines.map fun lines => (depth, node) :: (inside ++ lines))), ?_⟩
    · rw [walk, if_pos hdir]
    · rw [List.map_cons, List.map_append, hinner, hout]

/-- When directories of a listing rank above the listed one, up to a bound, the walk ends. -/
theorem exists_visits {rank : κ → Nat} {bound : Nat}
    (hrank : ∀ k, ∀ node ∈ listing k, isDir node = true →
      rank k < rank (path node) ∧ rank (path node) ≤ bound) (k : κ) :
    ∃ out, Visits listing path isDir (listing k) out := by
  induction hgap : bound - rank k using Nat.strong_induction_on generalizing k with
  | _ gap ih =>
    have hlist : ∀ nodes : List ν, (∀ node ∈ nodes, node ∈ listing k) →
        ∃ out, Visits listing path isDir nodes out := by
      intro nodes hnodes
      induction nodes with
      | nil => exact ⟨[], .nil⟩
      | cons node rest ihrest =>
        obtain ⟨out, hout⟩ := ihrest fun n hn => hnodes n (by simp [hn])
        cases hdir : isDir node with
        | false => exact ⟨node :: out, .file hdir hout⟩
        | true =>
          obtain ⟨hlt, hle⟩ := hrank k node (hnodes node (by simp)) hdir
          obtain ⟨inner, hinner⟩ := ih _ (by omega) (path node) rfl
          exact ⟨node :: (inner ++ out), .dir hdir hinner hout⟩
    exact hlist (listing k) fun _ h => h

end Runs

section Levels

/-- When what a directory lists lies one level below it, the walk gives each node its level. -/
theorem walk_level {level : ν → Nat} {Known : ν → Prop}
    (hlevel : ∀ dir node, Known dir → Listed listing path isDir dir node →
      Known node ∧ level node = level dir + 1)
    {fuel depth : Nat} {nodes : List ν} (hnodes : ∀ node ∈ nodes, Known node ∧ level node = depth)
    {lines : List (Nat × ν)} (h : walk listing path isDir fuel depth nodes = some lines) :
    ∀ line ∈ lines, Known line.2 ∧ line.1 = level line.2 := by
  induction fuel generalizing depth nodes lines with
  | zero => cases h
  | succ fuel ih =>
    cases nodes with
    | nil =>
      cases h
      simp
    | cons node rest =>
      have hnode := hnodes node List.mem_cons_self
      have hrest : ∀ n ∈ rest, Known n ∧ level n = depth :=
        fun n hn => hnodes n (List.mem_cons_of_mem _ hn)
      rw [walk] at h
      split at h
      · rename_i hdir
        obtain ⟨inner, hinner, h⟩ := Option.bind_eq_some_iff.mp h
        obtain ⟨tail, htail, rfl⟩ := Option.map_eq_some_iff.mp h
        have hlisted : ∀ n ∈ listing (path node), Known n ∧ level n = depth + 1 := by
          intro n hn
          rw [← hnode.2]
          exact hlevel node n hnode.1 ⟨hdir, hn⟩
        intro line hline
        rcases List.mem_cons.mp hline with rfl | hline
        · exact ⟨hnode.1, hnode.2.symm⟩
        · rcases List.mem_append.mp hline with hline | hline
          · exact ih hlisted hinner line hline
          · exact ih hrest htail line hline
      · obtain ⟨tail, htail, rfl⟩ := Option.map_eq_some_iff.mp h
        intro line hline
        rcases List.mem_cons.mp hline with rfl | hline
        · exact ⟨hnode.1, hnode.2.symm⟩
        · exact ih hrest htail line hline

end Levels

section Contents

theorem Visits.closed {nodes out : List ν} (h : Visits listing path isDir nodes out) :
    Closed listing path isDir nodes out := by
  induction h with
  | nil => exact List.Perm.nil
  | @file node rest out hfile hrest ih =>
    rw [Closed, List.filter_cons_of_neg (by rw [hfile]; exact Bool.false_ne_true),
      List.cons_append]
    exact List.Perm.cons node ih
  | @dir node rest inner out hdir hinner hrest ihinner ihrest =>
    rw [Closed, List.filter_cons_of_pos hdir, List.cons_append, List.flatMap_cons,
      List.filter_append, List.flatMap_append]
    apply List.Perm.cons
    have hsplit := (ihinner.append ihrest).trans (List.perm_append_comm_assoc _ _ _)
    simpa only [List.append_assoc] using hsplit

/-- Behind a directory stands the walk of its listing. -/
theorem Visits.block {nodes out : List ν} (h : Visits listing path isDir nodes out)
    {before after : List ν} {dir : ν} (hdir : isDir dir = true)
    (hout : out = before ++ dir :: after) :
    ∃ inner rest, Visits listing path isDir (listing (path dir)) inner ∧
      after = inner ++ rest := by
  induction h generalizing before after with
  | nil => simp at hout
  | @file node rest out hfile hrest ih =>
    cases before with
    | nil =>
      rw [List.nil_append] at hout
      rw [(List.cons.inj hout).1, hdir] at hfile
      cases hfile
    | cons n before => exact ih (List.cons.inj hout).2
  | @dir node rest inner out hnode hinner hrest ihinner ihrest =>
    cases before with
    | nil =>
      rw [List.nil_append] at hout
      obtain ⟨rfl, rfl⟩ := List.cons.inj hout
      exact ⟨inner, out, hinner, rfl⟩
    | cons n before =>
      rcases List.append_eq_append_iff.mp (List.cons.inj hout).2 with ⟨c, rfl, hc⟩ | ⟨c, hc, hafter⟩
      · exact ihrest hc
      · cases c with
        | nil =>
          rw [List.append_nil] at hc
          rw [List.nil_append] at hafter
          exact @ihrest [] after hafter.symm
        | cons m c =>
          obtain ⟨rfl, rfl⟩ := List.cons.inj hafter
          obtain ⟨inside, more, hinside, rfl⟩ := ihinner hc
          exact ⟨inside, more ++ out, hinside, List.append_assoc _ _ _⟩

theorem Closed.of_perm {start nodes others : List ν} (h : Closed listing path isDir start nodes)
    (hperm : nodes.Perm others) : Closed listing path isDir start others := by
  have hdirs := (hperm.filter isDir).flatMap_right fun dir => listing (path dir)
  exact hperm.symm.trans (h.trans (hdirs.append_left start))

variable [DecidableEq ν]

/-- Directories that do not list a node do not count for it. -/
theorem count_flatMap_filter (f : ν → List ν) (keep : ν → Bool) (x : ν) (nodes : List ν)
    (h : ∀ node ∈ nodes, keep node = false → x ∉ f node) :
    (nodes.flatMap f).count x = ((nodes.filter keep).flatMap f).count x := by
  induction nodes with
  | nil => rfl
  | cons node nodes ih =>
    have hrest := ih fun n hn => h n (by simp [hn])
    cases hkeep : keep node with
    | true =>
      rw [List.filter_cons_of_pos hkeep, List.flatMap_cons, List.flatMap_cons, List.count_append,
        List.count_append, hrest]
    | false =>
      rw [List.filter_cons_of_neg (by rw [hkeep]; exact Bool.false_ne_true), List.flatMap_cons,
        List.count_append, List.count_eq_zero.mpr (h node (by simp) hkeep), hrest, Nat.zero_add]

theorem count_filter_eq (keep : ν → Bool) (x : ν) (nodes : List ν) :
    (nodes.filter keep).count x = if keep x then nodes.count x else 0 := by
  cases hkeep : keep x with
  | true => exact List.count_filter hkeep
  | false => simp [List.count_eq_zero, hkeep]

/-- Two lists that are closed for the same start agree when what their directories list ranks
higher. -/
theorem Closed.perm {rank : κ → Nat} {start nodes others : List ν}
    (h : Closed listing path isDir start nodes) (hothers : Closed listing path isDir start others)
    (hrank : ∀ dir, dir ∈ nodes ∨ dir ∈ others → ∀ node, Listed listing path isDir dir node →
      rank (path dir) < rank (path node)) : nodes.Perm others := by
  rw [List.perm_iff_count]
  intro x
  induction hx : rank (path x) using Nat.strong_induction_on generalizing x with
  | _ r ih =>
    -- only directories of smaller rank list the node
    have hsmall : ∀ {all : List ν}, Closed listing path isDir start all →
        (∀ dir ∈ all, dir ∈ nodes ∨ dir ∈ others) →
        all.count x = start.count x + (((all.filter isDir).filter fun dir =>
          decide (rank (path dir) < r)).flatMap fun dir => listing (path dir)).count x := by
      intro all hall hsub
      rw [hall.count_eq x, List.count_append, count_flatMap_filter _ _ x (all.filter isDir)]
      intro dir hmem hkeep hlisted
      obtain ⟨hmem, hdir⟩ := List.mem_filter.mp hmem
      have hlt := hrank dir (hsub dir hmem) x ⟨hdir, hlisted⟩
      rw [hx] at hlt
      exact of_decide_eq_false hkeep hlt
    rw [hsmall h fun _ => Or.inl, hsmall hothers fun _ => Or.inr]
    congr 1
    apply List.Perm.count_eq
    apply List.Perm.flatMap_right
    rw [List.perm_iff_count]
    intro dir
    simp only [count_filter_eq, decide_eq_true_eq]
    split
    · rename_i hlt
      rw [ih _ hlt dir rfl]
    · rfl

/-- A list in which no content stands before its directory. -/
def DirectoriesFirst (listing : κ → List ν) (path : ν → κ) (isDir : ν → Bool)
    (out : List ν) : Prop :=
  ∀ before dir after, out = before ++ dir :: after →
    ∀ node, Inside listing path isDir dir node → node ∉ before

/-- When a node that is listed at all is listed as often as it is there, each directory stands
before its contents. -/
theorem Visits.directoriesFirst {nodes out all : List ν} (h : Visits listing path isDir nodes out)
    (hall : out.Perm all) (hmem : ∀ k, ∀ node ∈ listing k, node ∈ all)
    (hcount : ∀ k, ∀ node ∈ listing k, (listing k).count node = all.count node) :
    DirectoriesFirst listing path isDir out := by
  have hlisted : ∀ before dir after, out = before ++ dir :: after →
      ∀ node, Listed listing path isDir dir node → node ∉ before := by
    intro before dir after hout node hnode hbefore
    obtain ⟨hdir, hnode⟩ := hnode
    obtain ⟨inner, rest, hinner, rfl⟩ := h.block hdir hout
    have hinside := hinner.closed.count_eq node
    have htotal := hall.count_eq node
    have hpos := List.count_pos_iff.mpr hbefore
    rw [List.count_append, hcount _ node hnode] at hinside
    rw [hout, List.count_append, List.count_cons, List.count_append] at htotal
    omega
  intro before dir after hout node hinside
  induction hinside generalizing before after with
  | single hstep => exact hlisted before dir after hout _ hstep
  | @tail mid node hmid hstep ih =>
    intro hnode
    have hout' : mid ∈ out := by
      rw [hall.mem_iff]
      cases hmid with
      | single hlast => exact hmem _ mid hlast.2
      | tail _ hlast => exact hmem _ mid hlast.2
    have hnot := ih before after hout
    -- the directory in between stands behind the outer one, so the node stands before both
    rw [hout, List.mem_append] at hout'
    rcases List.mem_cons.mp (hout'.resolve_left hnot) with rfl | hafter
    · exact hlisted before mid after hout node hstep hnode
    · obtain ⟨front, back, rfl⟩ := List.append_of_mem hafter
      have hsplit : out = (before ++ dir :: front) ++ mid :: back := by
        rw [hout]
        simp
      exact hlisted _ mid back hsplit node hstep (List.mem_append_left _ hnode)

/-- When listings select from the list itself, it is closed exactly when the root and the
directories together list each of its nodes once. -/
theorem closed_filter_iff {all : List ν} (keep : κ → ν → Bool) (root : κ) :
    Closed (fun k => all.filter (keep k)) path isDir (all.filter (keep root)) all ↔
      ∀ node ∈ all, (root :: (all.filter isDir).map path).countP (keep · node) = 1 := by
  have hcount : ∀ (ks : List κ) (x : ν), (ks.flatMap fun k => all.filter (keep k)).count x =
      ks.countP (keep · x) * all.count x := by
    intro ks x
    induction ks with
    | nil => simp
    | cons k ks ih =>
      rw [List.flatMap_cons, List.count_append, ih, count_filter_eq, List.countP_cons]
      split
      · ring
      · ring
  have hflat : all.filter (keep root) ++
      (all.filter isDir).flatMap (fun dir => all.filter (keep (path dir))) =
      (root :: (all.filter isDir).map path).flatMap fun k => all.filter (keep k) := by
    rw [List.flatMap_cons, List.flatMap_map]
  rw [Closed, hflat, List.perm_iff_count]
  simp only [hcount]
  constructor
  · intro h node hnode
    have hpos := List.count_pos_iff.mpr hnode
    exact Nat.eq_of_mul_eq_mul_right hpos (by rw [Nat.one_mul]; exact (h node).symm)
  · intro h x
    by_cases hx : x ∈ all
    · rw [h x hx, Nat.one_mul]
    · rw [List.count_eq_zero.mpr hx, Nat.mul_zero]

omit [DecidableEq ν] in
/-- The walk only looks at the listings of the directories it visits. -/
theorem Visits.congr {other : κ → List ν} {nodes out : List ν}
    (h : Visits listing path isDir nodes out)
    (hsame : ∀ dir ∈ out, isDir dir = true → listing (path dir) = other (path dir)) :
    Visits other path isDir nodes out := by
  induction h with
  | nil => exact .nil
  | file hfile _ ih => exact .file hfile (ih fun d hd => hsame d (by simp [hd]))
  | @dir node rest inner out hdir _ _ ihinner ihrest =>
    have hinner := ihinner fun d hd => hsame d (by simp [hd])
    rw [hsame node (by simp) hdir] at hinner
    exact .dir hdir hinner (ihrest fun d hd => hsame d (by simp [hd]))

omit [DecidableEq ν] in
theorem Visits.mem {nodes out : List ν} (h : Visits listing path isDir nodes out) {node : ν}
    (hnode : node ∈ out) : node ∈ nodes ∨ ∃ k, node ∈ listing k := by
  have hmem := h.closed.mem_iff.mp hnode
  rcases List.mem_append.mp hmem with hmem | hmem
  · exact Or.inl hmem
  · obtain ⟨dir, -, hlisted⟩ := List.mem_flatMap.mp hmem
    exact Or.inr ⟨_, hlisted⟩

end Contents

section Cycles

variable (listing path isDir)

/-- The node is one of the list or lies inside one of them. -/
def Reached (nodes : List ν) (node : ν) : Prop :=
  ∃ start ∈ nodes, Relation.ReflTransGen (Listed listing path isDir) start node

/-- No directory that is reached lies inside itself. -/
def Grounded (nodes : List ν) : Prop :=
  ∀ dir, Reached listing path isDir nodes dir → ¬ Inside listing path isDir dir dir

variable {listing path isDir}

theorem Visits.unique {nodes out other : List ν} (h : Visits listing path isDir nodes out)
    (hother : Visits listing path isDir nodes other) : out = other := by
  induction h generalizing other with
  | nil =>
    cases hother
    rfl
  | file hfile _ ih =>
    cases hother with
    | file _ hrest => rw [ih hrest]
    | dir hdir => simp [hfile] at hdir
  | dir hdir _ _ ihinner ihrest =>
    cases hother with
    | file hfile => simp [hdir] at hfile
    | dir _ hinner hrest => rw [ihinner hinner, ihrest hrest]

theorem Visits.mem_of_reached {nodes out : List ν} (h : Visits listing path isDir nodes out)
    {node : ν} (hnode : Reached listing path isDir nodes node) : node ∈ out := by
  obtain ⟨start, hstart, hsteps⟩ := hnode
  have hclosed := h.closed
  induction hsteps with
  | refl =>
    rw [hclosed.mem_iff]
    exact List.mem_append_left _ hstart
  | @tail dir node _ hlisted ih =>
    rw [hclosed.mem_iff]
    apply List.mem_append_right
    exact List.mem_flatMap.mpr ⟨dir, List.mem_filter.mpr ⟨ih, hlisted.1⟩, hlisted.2⟩

/-- The walk of a directory that is reached is a part of the whole one. -/
theorem Visits.of_reached {nodes out : List ν} (h : Visits listing path isDir nodes out) {dir : ν}
    (hreached : Reached listing path isDir nodes dir) (hdir : isDir dir = true) :
    ∃ inner, Visits listing path isDir (listing (path dir)) inner ∧ inner.length < out.length := by
  obtain ⟨before, after, hout⟩ := List.append_of_mem (h.mem_of_reached hreached)
  obtain ⟨inner, rest, hinner, hafter⟩ := h.block hdir hout
  refine ⟨inner, hinner, ?_⟩
  rw [hout, hafter]
  simp only [List.length_append, List.length_cons]
  omega

theorem Visits.grounded {nodes out : List ν} (h : Visits listing path isDir nodes out) :
    Grounded listing path isDir nodes := by
  intro dir hreached hcycle
  obtain ⟨hdir, next, hlisted, hback⟩ : isDir dir = true ∧ ∃ next ∈ listing (path dir),
      Relation.ReflTransGen (Listed listing path isDir) next dir := by
    obtain ⟨next, hfirst, hback⟩ := Relation.TransGen.head'_iff.mp hcycle
    exact ⟨hfirst.1, next, hfirst.2, hback⟩
  obtain ⟨inner, hinner, -⟩ := h.of_reached hreached hdir
  -- the walk of the directory would be a proper part of itself
  obtain ⟨again, hagain, hlt⟩ := hinner.of_reached ⟨next, hlisted, hback⟩ hdir
  rw [hinner.unique hagain] at hlt
  exact lt_irrefl _ hlt

/-- A list whose directories can be walked can be walked. -/
theorem exists_visits_of_dirs {nodes : List ν} (h : ∀ node ∈ nodes, isDir node = true →
    ∃ inner, Visits listing path isDir (listing (path node)) inner) :
    ∃ out, Visits listing path isDir nodes out := by
  induction nodes with
  | nil => exact ⟨[], .nil⟩
  | cons node rest ih =>
    obtain ⟨out, hout⟩ := ih fun n hn => h n (List.mem_cons_of_mem _ hn)
    cases hdir : isDir node with
    | false => exact ⟨_, .file hdir hout⟩
    | true =>
      obtain ⟨inner, hinner⟩ := h node List.mem_cons_self hdir
      exact ⟨_, .dir hdir hinner hout⟩

/-- When the listings draw on finitely many nodes, the walk ends exactly if no directory on its
way lies inside itself. -/
theorem exists_visits_iff_grounded {all nodes : List ν}
    (hall : ∀ k, ∀ node ∈ listing k, node ∈ all) :
    (∃ out, Visits listing path isDir nodes out) ↔ Grounded listing path isDir nodes := by
  constructor
  · intro h
    obtain ⟨out, hout⟩ := h
    exact hout.grounded
  · intro h
    have hfinite : Finite {node // node ∈ nodes ++ all ∧ Reached listing path isDir nodes node} :=
      Set.Finite.subset (nodes ++ all).finite_toSet fun node hnode => hnode.1
    have htrans : IsTrans {node // node ∈ nodes ++ all ∧ Reached listing path isDir nodes node}
        fun a b => Inside listing path isDir b.val a.val :=
      ⟨fun a b c hab hbc => hbc.trans hab⟩
    have hirrefl : Std.Irrefl fun (a b : {node // node ∈ nodes ++ all ∧
        Reached listing path isDir nodes node}) => Inside listing path isDir b.val a.val :=
      ⟨fun a => h a.val a.property.2⟩
    have hwf := Finite.wellFounded_of_trans_of_irrefl fun (a b : {node // node ∈ nodes ++ all ∧
      Reached listing path isDir nodes node}) => Inside listing path isDir b.val a.val
    have hdirs : ∀ dir : {node // node ∈ nodes ++ all ∧ Reached listing path isDir nodes node},
        isDir dir.val = true →
          ∃ inner, Visits listing path isDir (listing (path dir.val)) inner := by
      intro dir
      induction dir using hwf.induction with
      | _ dir ih =>
        intro hdir
        apply exists_visits_of_dirs
        intro node hnode hnodedir
        obtain ⟨start, hstart, hsteps⟩ := dir.property.2
        exact ih ⟨node, List.mem_append_right _ (hall _ node hnode),
          ⟨start, hstart, hsteps.tail ⟨hdir, hnode⟩⟩⟩ (.single ⟨hdir, hnode⟩) hnodedir
    apply exists_visits_of_dirs
    intro node hnode hdir
    exact hdirs ⟨node, List.mem_append_left _ hnode, ⟨node, hnode, .refl⟩⟩ hdir

end Cycles

end SnsxOS.Framework
