import SnsxOS.X86.Console

/-!
# The path shown for an entry

The file manager and the tree walk go from the view of an entry to its path, in a buffer of
`FS_PATH_MAX` bytes that also takes the leading slash, and back with `fs_find`. A stored name has
no slash and may use the whole of such a buffer.
-/

namespace SnsxOS.X86

open Framework

/-- The longest name that fits behind a slash: 62 characters. -/
def shownNameMax : Nat := fsPathMax - 2

/-- The path built for the view of a slot leads to that slot. -/
def Addressed (st : FsState) (slot : Nat) : Prop :=
  ∃ path, shellEntryAbsolutePath st slot = some path ∧ fsFind st path = some slot

def EveryEntryAddressed (st : FsState) : Prop := ∀ slot, slot < st.count → Addressed st slot

/-- A call that succeeds gives no node a name that is too long to be shown. -/
def NamesFit (st : FsState) (op : FsOp) : Prop :=
  (fsCall st op).1 = true → match op with
    | .mkdir path | .writeFile path _ _ | .appendFile path _ | .copy _ path =>
        ∀ p, fsNormalizePath path = some p → p.length ≤ shownNameMax
    | .remove _ => True
    | .move source destination => ∀ s d, fsNormalizePath source = some s →
        fsNormalizePath destination = some d → ∀ node ∈ st.used,
          InSubtree slash s node.name → (rebase s d node.name).length ≤ shownNameMax

section Shown

variable {st : FsState}

/-- Leading slashes are skipped. -/
theorem fsNormalizePath_slash {p : Bytes} (hp : p ≠ []) :
    fsNormalizePath (slash :: p) = fsNormalizePath p := by
  have hstart : fsNormalizeLoop p [] true = fsNormalizeLoop p [] false := by
    cases p with
    | nil => rfl
    | cons ch p =>
      rw [fsNormalizeLoop, fsNormalizeLoop]
      by_cases hch : ch = slash
      · simp [hch]
      · simp [hch]
  rw [fsNormalizePath, fsNormalizePath, if_neg (List.cons_ne_nil slash p), if_neg hp,
    fsNormalizeLoop, if_pos rfl, if_pos (Or.inl List.length_nil), hstart]

theorem fsNormalizeLoop_length_le {input output result : Bytes} {last : Bool}
    (h : fsNormalizeLoop input output last = some result) :
    result.length ≤ output.length + input.length := by
  induction input generalizing output last with
  | nil =>
    cases h
    exact Nat.le_add_right _ _
  | cons ch input ih =>
    rw [fsNormalizeLoop] at h
    rw [List.length_cons]
    split at h
    · split at h
      · have hrest := ih h
        omega
      · split at h
        · cases h
        · have hrest := ih h
          rw [List.length_append, List.length_singleton] at hrest
          omega
    · split at h
      · cases h
      · have hrest := ih h
        rw [List.length_append, List.length_singleton] at hrest
        omega

theorem fsNormalizePath_length_le {input p : Bytes} (h : fsNormalizePath input = some p) :
    p.length ≤ input.length := by
  rw [fsNormalizePath] at h
  split at h
  · cases h
    exact Nat.zero_le _
  · obtain ⟨output, hloop, rfl⟩ := Option.map_eq_some_iff.mp h
    have hcut := (List.rdropWhile_prefix (· == slash) output).length_le
    have hlen := fsNormalizeLoop_length_le hloop
    rw [List.length_nil] at hlen
    omega

theorem fsFindNodeNormalized_name (htree : FsTree st.used) {slot : Nat}
    (hslot : slot < st.used.length) : fsFindNodeNormalized st st.used[slot].name = some slot := by
  cases hfind : fsFindNodeNormalized st st.used[slot].name with
  | none =>
    have hmem : st.used[slot].name ∈ st.used.map FsNode.name :=
      List.mem_map_of_mem (List.getElem_mem hslot)
    exact absurd hmem (fsFindNodeNormalized_none hfind)
  | some found =>
    obtain ⟨hfound, hname, -⟩ := fsFindNodeNormalized_some hfind
    have hf : found < (st.used.map FsNode.name).length := by simpa using hfound
    have hs : slot < (st.used.map FsNode.name).length := by simpa using hslot
    have hsame : (st.used.map FsNode.name)[found] = (st.used.map FsNode.name)[slot] := by
      simpa using hname
    rw [(List.Nodup.getElem_inj_iff htree.distinct).mp hsame]

/-- An entry is addressed exactly if its name leaves room for the slash. -/
theorem addressed_iff (htree : FsTree st.used) (hviews : Coherent st.used) {slot : Nat}
    (hslot : slot < st.used.length) :
    Addressed st slot ↔ st.used[slot].name.length ≤ shownNameMax := by
  have hnormal := htree.normal _ (List.getElem_mem hslot)
  have hentry : (st.nodeAt slot).entry.name = some slot := by
    rw [nodeAt_used hslot]
    exact congrArg (fun node => node.entry.name) (hviews slot hslot)
  have hpath : shellEntryAbsolutePath st slot =
      some (slash :: st.used[slot].name.take shownNameMax) := by
    rw [shellEntryAbsolutePath, hentry, Option.map_some, nodeAt_used hslot]
    rfl
  have hne : st.used[slot].name.take shownNameMax ≠ [] := by
    simp [hnormal.ne_nil, shownNameMax, fsPathMax]
  have haddressed : Addressed st slot ↔
      fsFind st (slash :: st.used[slot].name.take shownNameMax) = some slot := by
    rw [Addressed, hpath]
    simp
  rw [haddressed, fsFind, fsNormalizePath_slash hne]
  constructor
  · intro hfind
    cases hnorm : fsNormalizePath (st.used[slot].name.take shownNameMax) with
    | none =>
      rw [hnorm] at hfind
      cases hfind
    | some p =>
      rw [hnorm] at hfind
      obtain ⟨_, hname, -⟩ := fsFindNodeNormalized_some hfind
      have hlen := fsNormalizePath_length_le hnorm
      rw [hname]
      exact hlen.trans (List.length_take_le _ _)
  · intro hlen
    rw [List.take_of_length_le hlen, fsNormalizePath_of_normal hnormal]
    exact fsFindNodeNormalized_name htree hslot

theorem everyEntryAddressed_iff (htree : FsTree st.used) (hviews : Coherent st.used) :
    EveryEntryAddressed st ↔ ∀ node ∈ st.used, node.name.length ≤ shownNameMax := by
  constructor
  · intro h node hnode
    obtain ⟨slot, hslot, rfl⟩ := List.mem_iff_getElem.mp hnode
    exact (addressed_iff htree hviews hslot).mp (h slot (by simpa using hslot))
  · intro h slot hcount
    have hslot : slot < st.used.length := by simpa using hcount
    exact (addressed_iff htree hviews hslot).mpr (h _ (List.getElem_mem hslot))

end Shown

section Names

variable {m : FileMap} {p : Bytes}

/-- Every path of the map can be shown. -/
def FileMap.Short (m : FileMap) : Prop := ∀ q, m q ≠ none → q.length ≤ shownNameMax

/-- The outcome of a call that may store a path. -/
def FileMap.Stores (p : Bytes) (outcome : Bool × FileMap) : Prop :=
  outcome.2.Short ↔ (outcome.1 = true → p.length ≤ shownNameMax)

theorem FileMap.Short.unchanged (h : m.Short) : FileMap.Stores p (false, m) :=
  iff_of_true h fun hfalse => by cases hfalse

theorem FileMap.Short.present (h : m.Short) (hp : m p ≠ none) (ok : Bool) :
    FileMap.Stores p (ok, m) := iff_of_true h fun _ => h p hp

theorem FileMap.Short.update (h : m.Short) (content : UInt32 × Bytes) :
    FileMap.Stores p (true, Function.update m p (some content)) := by
  rw [FileMap.Stores]
  dsimp only
  constructor
  · intro hshort _
    apply hshort p
    rw [Function.update_self]
    exact Option.some_ne_none content
  · intro hp q hq
    by_cases hqp : q = p
    · exact hqp ▸ hp rfl
    · rw [Function.update_of_ne hqp] at hq
      exact h q hq

theorem FileMap.Short.mkdir (h : m.Short) (p : Bytes) : FileMap.Stores p (m.mkdir p) := by
  rw [FileMap.mkdir]
  cases hp : m p with
  | some content => exact h.present (by rw [hp]; exact Option.some_ne_none _) _
  | none =>
    dsimp only
    split
    · exact h.update _
    · exact h.unchanged

theorem FileMap.Short.writeFile (h : m.Short) (p data : Bytes) (type : UInt32) :
    FileMap.Stores p (m.writeFile p data type) := by
  rw [FileMap.writeFile]
  split
  · exact h.unchanged
  · cases hp : m p with
    | some content =>
      dsimp only
      split
      · exact h.unchanged
      · exact h.update _
    | none =>
      dsimp only
      split
      · exact h.update _
      · exact h.unchanged

theorem FileMap.Short.appendFile (h : m.Short) (p data : Bytes) :
    FileMap.Stores p (m.appendFile p data) := by
  rw [FileMap.appendFile]
  cases hp : m p with
  | none => exact h.writeFile p data fsTypeText
  | some content =>
    dsimp only
    split
    · exact h.update _
    · exact h.unchanged

theorem FileMap.Short.copy (h : m.Short) (source destination : Bytes) :
    FileMap.Stores destination (m.copy source destination) := by
  rw [FileMap.copy]
  cases m source with
  | none => exact h.unchanged
  | some content =>
    dsimp only
    split
    · exact h.unchanged
    · exact h.writeFile destination _ _

theorem FileMap.Short.remove (h : m.Short) (p : Bytes) : (m.remove p).2.Short := by
  rw [FileMap.remove]
  cases m p with
  | none => exact h
  | some content =>
    dsimp only
    split
    · exact h
    · dsimp only
      intro q hq
      by_cases hqp : q = p
      · rw [hqp, Function.update_self] at hq
        exact absurd rfl hq
      · rw [Function.update_of_ne hqp] at hq
        exact h q hq

/-- What a call on a normal path does, the call on its argument does. -/
theorem FileMap.Short.onPath (h : m.Short) {path : Bytes} {f : Bytes → Bool × FileMap} {Q : Prop}
    (hf : ∀ p, fsNormalizePath path = some p → ((f p).2.Short ↔ ((f p).1 = true → Q))) :
    (m.onPath path f).2.Short ↔ ((m.onPath path f).1 = true → Q) := by
  rw [FileMap.onPath]
  cases hnorm : fsNormalizePath path with
  | none => exact iff_of_true h fun hfalse => by cases hfalse
  | some p =>
    dsimp only
    split
    · exact iff_of_true h fun hfalse => by cases hfalse
    · exact hf p hnorm

/-- A call that stores under the path it is given. -/
theorem FileMap.Short.onTarget (h : m.Short) {path : Bytes} {f : Bytes → Bool × FileMap}
    (hf : ∀ p, FileMap.Stores p (f p)) : (m.onPath path f).2.Short ↔
      ((m.onPath path f).1 = true → ∀ p, fsNormalizePath path = some p →
        p.length ≤ shownNameMax) := by
  apply h.onPath
  intro p hnorm
  rw [hnorm]
  simp only [Option.some.injEq, forall_eq']
  exact hf p

end Names

section Steps

variable {st : FsState}

def ShortNames (nodes : List FsNode) : Prop := ∀ node ∈ nodes, node.name.length ≤ shownNameMax

theorem shortNames_iff (nodes : List FsNode) : ShortNames nodes ↔ (contents nodes).Short := by
  constructor
  · intro h q hq
    obtain ⟨node, hnode, rfl⟩ := contents_ne_none.mp hq
    exact h node hnode
  · intro h node hnode
    exact h _ (contents_ne_none.mpr ⟨node, hnode, rfl⟩)

theorem fsMove_shortNames_iff (h : ShortNames st.used) (source destination : Bytes) :
    ShortNames (fsStep st (.move source destination)).used ↔
      NamesFit st (.move source destination) := by
  rw [NamesFit, fsStep, fsCall]
  cases fsMove_cases st source destination with
  | inl hnone =>
    rw [hnone]
    exact iff_of_true h fun hfalse => by cases hfalse
  | inr hmoved =>
    obtain ⟨s, d, hs, hd, hrun⟩ := hmoved
    rw [hrun, hs, hd]
    dsimp only
    rw [SlotTable.used_mapUsed]
    constructor
    · intro hshort _ s' d' hs' hd' node hnode hsub
      cases hs'
      cases hd'
      obtain ⟨slot, hslot, rfl⟩ := List.mem_iff_getElem.mp hnode
      have hmem : fsMoveNode s d slot st.used[slot] ∈ st.used.mapIdx (fsMoveNode s d) :=
        List.mem_mapIdx.mpr ⟨slot, hslot, rfl⟩
      have hlen := hshort _ hmem
      rwa [fsMoveNode_name, if_pos hsub] at hlen
    · intro hfit node hnode
      obtain ⟨slot, hslot, rfl⟩ := List.mem_mapIdx.mp hnode
      rw [fsMoveNode_name]
      split
      · rename_i hsub
        exact hfit rfl s d rfl rfl _ (List.getElem_mem hslot) hsub
      · exact h _ (List.getElem_mem hslot)

/-- From short names a call leads to short names exactly if the names it stores fit. -/
theorem fsStep_shortNames_iff (htree : FsTree st.used) (h : ShortNames st.used) (op : FsOp) :
    ShortNames (fsStep st op).used ↔ NamesFit st op := by
  have hshort : (contents st.used).Short := (shortNames_iff st.used).mp h
  have hcall := fsCall_refines htree op
  have hok : ((contents st.used).call op).1 = (fsCall st op).1 := congrArg Prod.fst hcall
  have hmap : ((contents st.used).call op).2 = contents (fsStep st op).used :=
    congrArg Prod.snd hcall
  cases op with
  | mkdir path =>
    rw [shortNames_iff, ← hmap, NamesFit, ← hok]
    exact hshort.onTarget hshort.mkdir
  | writeFile path data type =>
    rw [shortNames_iff, ← hmap, NamesFit, ← hok]
    exact hshort.onTarget fun p => hshort.writeFile p data type
  | appendFile path data =>
    rw [shortNames_iff, ← hmap, NamesFit, ← hok]
    exact hshort.onTarget fun p => hshort.appendFile p data
  | remove path =>
    rw [shortNames_iff, ← hmap, NamesFit, ← hok]
    apply hshort.onPath
    intro p _
    exact iff_of_true (hshort.remove p) fun _ => trivial
  | copy source destination =>
    rw [shortNames_iff, ← hmap, NamesFit, ← hok]
    apply hshort.onPath
    intro s _
    exact hshort.onTarget (hshort.copy s)
  | move source destination => exact fsMove_shortNames_iff h source destination

end Steps

section Start

/-- Views at their own slots, and names that can be shown. -/
structure Shown (st : FsState) : Prop where
  views : Coherent st.used
  names : ShortNames st.used

variable {st : FsState}

theorem Shown.append {st' : FsState} (h : Shown st) {node : FsNode}
    (hused : st'.used = st.used ++ [node]) (hsynced : Synced st.used.length node)
    (hname : node.name.length ≤ shownNameMax) : Shown st' := by
  constructor
  · rw [hused]
    intro slot hslot
    by_cases hlt : slot < st.used.length
    · rw [List.getElem_append_left hlt]
      exact h.views slot hlt
    · have hlast : slot = st.used.length := by
        rw [List.length_append, List.length_singleton] at hslot
        omega
      subst hlast
      simpa using hsynced
  · rw [hused]
    intro other hother
    cases List.mem_append.mp hother with
    | inl hold => exact h.names other hold
    | inr hnew =>
      rw [List.mem_singleton.mp hnew]
      exact hname

theorem Shown.pushNode (h : Shown st) {p : Bytes} {type : UInt32} {st' : FsState}
    (hp : p.length ≤ shownNameMax) (hpush : fsPushNode st p type = some st') : Shown st' := by
  obtain ⟨hc, rfl⟩ := fsPushNode_some hpush
  apply h.append (SlotTable.used_push st _ hc)
  · rw [SlotTable.length_used]
    exact fsSyncEntry_synced _ _
  · exact hp

theorem Shown.ensureDirs (h : Shown st) {parts : List Bytes}
    (hparts : ∀ part ∈ parts, part.length ≤ shownNameMax) : Shown (fsEnsureDirs st parts).2 := by
  induction parts generalizing st with
  | nil => exact h
  | cons part parts ih =>
    have hrest : ∀ other ∈ parts, other.length ≤ shownNameMax :=
      fun other hother => hparts other (List.mem_cons_of_mem _ hother)
    rw [fsEnsureDirs]
    split
    · exact h
    · cases fsFindNodeNormalized st part with
      | none =>
        cases hpush : fsPushNode st part fsTypeDir with
        | none => exact h
        | some st' => exact ih (h.pushNode (hparts part List.mem_cons_self) hpush) hrest
      | some slot =>
        dsimp only
        split
        · exact h
        · exact ih h hrest

theorem Shown.loadFile (h : Shown st) (boot : Multiboot) {path : Bytes}
    (hpath : path.length ≤ shownNameMax) (data size : Nat) (type : UInt32) :
    Shown (fsLoadFile boot st path data size type).table := by
  rw [fsLoadFile]
  cases hnorm : fsNormalizePath path with
  | none => exact h
  | some p =>
    have hp : p.length ≤ shownNameMax := (fsNormalizePath_length_le hnorm).trans hpath
    dsimp only
    split
    · exact h
    have hchain : Shown (fsEnsureDirChain st p).2 := by
      apply h.ensureDirs
      intro part hpart
      exact (mem_ancestors.mp hpart).length_lt.le.trans hp
    rcases hensure : fsEnsureDirChain st p with ⟨ok, st'⟩
    rw [hensure] at hchain
    cases ok with
    | false => exact hchain
    | true =>
      cases hpush : fsPushNode st' p type with
      | none => simpa only [hpush] using hchain
      | some st'' =>
        obtain ⟨hc, rfl⟩ := fsPushNode_some hpush
        simp only [hpush]
        apply hchain.append (used_push_modify hc _)
        · rw [SlotTable.length_used]
          exact fsSyncEntry_synced _ _
        · exact hp

theorem initrdNode_name_length_le (boot : Multiboot) (i : Nat) :
    (boot.initrdNode i).name.length ≤ shownNameMax := by
  have hcut : (boot.initrdNode i).name.length ≤
      (boot.bytes (initrdHeaderSize + initrdNodeSize * i) initrdNameMax).length :=
    cString_length_le _
  rw [Multiboot.bytes, List.length_map, List.length_range] at hcut
  exact hcut.trans (by decide)

theorem Shown.loadNodes (h : Shown st) (boot : Multiboot) (entries : List Nat) :
    Shown (fsLoadNodes boot st entries).1 := by
  induction entries generalizing st with
  | nil => exact h
  | cons i entries ih =>
    have hfirst : Shown (fsLoadNode boot st i).table :=
      h.loadFile boot (initrdNode_name_length_le boot i) _ _ _
    rw [fsLoadNodes]
    dsimp only
    split
    · exact ih hfirst
    · exact hfirst

theorem Shown.loadInitrd (h : Shown st) (boot : Multiboot) : Shown (fsLoadInitrd boot st).1 := by
  rw [fsLoadInitrd]
  split
  · split
    · exact h.loadNodes boot _
    · exact h
  · exact h

theorem shown_emptied (st : FsState) : Shown st.emptied := by
  have hnil : st.emptied.used = [] := List.take_zero
  constructor
  · rw [hnil]
    intro slot hslot
    exact absurd hslot (Nat.not_lt_zero slot)
  · rw [hnil]
    intro node hnode
    cases hnode

theorem shown_fsUseBuiltin (st : FsState) : Shown (fsUseBuiltin st) := by
  refine ⟨fsUseBuiltin_coherent st, ?_⟩
  have hfits : Guarded fsStep NamesFit st.emptied builtinOps := by
    refine ⟨?_, ?_, ?_, ?_, ?_, trivial⟩ <;>
    · intro _ p hp
      exact (fsNormalizePath_length_le hp).trans (by decide)
  have hempty : FsTree st.emptied.used ∧ ShortNames st.emptied.used := by
    refine ⟨?_, (shown_emptied st).names⟩
    have hnil : st.emptied.used = [] := List.take_zero
    rw [hnil]
    exact FsTree.nil
  have hkept : ∀ (s : FsState) (op : FsOp), FsTree s.used ∧ ShortNames s.used → NamesFit s op →
      FsTree (fsStep s op).used ∧ ShortNames (fsStep s op).used :=
    fun s op hs hfit => ⟨fsStep_tree s op hs.1, (fsStep_shortNames_iff hs.1 hs.2 op).mpr hfit⟩
  exact (run_invariant_of_guarded hkept hempty builtinOps hfits).2

/-- Whatever the boot loader passes, the table that `fs_init` leaves shows its entries. -/
theorem shown_fsInit (boot : Multiboot) (st : FsState) : Shown (fsInit boot st).table := by
  have hloaded : Shown
      (if boot.HasModule then fsLoadInitrd boot st.emptied else (st.emptied, [])).1 := by
    split
    · exact (shown_emptied st).loadInitrd boot
    · exact shown_emptied st
  unfold fsInit
  generalize (if boot.HasModule then fsLoadInitrd boot st.emptied else (st.emptied, [])) = loaded
    at hloaded ⊢
  dsimp only
  by_cases hcount : 0 < loaded.1.count
  · rw [if_pos hcount]
    exact hloaded
  · rw [if_neg hcount]
    dsimp only
    exact shown_fsUseBuiltin loaded.1

/-- From the table of a boot, in runs that remove only last slots, every entry is addressed all
along exactly if no call stores a name that is too long to be shown. -/
theorem everyEntry_addressed_iff (boot : Multiboot) (start : FsState) (ops : List FsOp)
    (htree : FsTree (fsInit boot start).table.used)
    (hlast : Guarded fsStep RemovesLast (fsInit boot start).table ops) :
    (∀ before after, ops = before ++ after →
      EveryEntryAddressed (run fsStep (fsInit boot start).table before)) ↔
    Guarded fsStep NamesFit (fsInit boot start).table ops := by
  have hshown := shown_fsInit boot start
  have hstep : ∀ (s : FsState) (op : FsOp), FsTree s.used ∧ Coherent s.used →
      EveryEntryAddressed s → RemovesLast s op →
      (EveryEntryAddressed (fsStep s op) ↔ NamesFit s op) := by
    intro s op hs haddressed hop
    have hnext := fsStep_coherent s op hs hop
    have hshort : ShortNames s.used := (everyEntryAddressed_iff hs.1 hs.2).mp haddressed
    rw [everyEntryAddressed_iff hnext.1 hnext.2]
    exact fsStep_shortNames_iff hs.1 hshort op
  have hkeep : ∀ (s : FsState) (op : FsOp), FsTree s.used ∧ Coherent s.used →
      EveryEntryAddressed s → RemovesLast s op →
      FsTree (fsStep s op).used ∧ Coherent (fsStep s op).used :=
    fun s op hs _ hop => fsStep_coherent s op hs hop
  have hstart : EveryEntryAddressed (fsInit boot start).table :=
    (everyEntryAddressed_iff htree hshown.views).mpr hshown.names
  have htable : FsTree (fsInit boot start).table.used ∧ Coherent (fsInit boot start).table.used :=
    ⟨htree, hshown.views⟩
  generalize (fsInit boot start).table = table at hlast hstart htable ⊢
  exact run_prefixes_iff_guarded_within hkeep hstep htable hstart ops hlast

end Start

theorem everyEntry_addressed_iff_mkdir :
    (∀ before after, [FsOp.mkdir (ascii "/a")] = before ++ after →
      EveryEntryAddressed (run fsStep (fsInit plainBoot zeroTable).table before)) ↔
    Guarded fsStep NamesFit (fsInit plainBoot zeroTable).table [.mkdir (ascii "/a")] :=
  everyEntry_addressed_iff plainBoot zeroTable [.mkdir (ascii "/a")] fsInit_plainBoot_tree
    ⟨fun _ hdrops => hdrops.elim, trivial⟩

/-- A file with a path of 63 characters, in a directory that gets a longer name. -/
def lengtheningCalls : List FsOp :=
  [.mkdir (ascii "/a"), .writeFile (ascii "/a/" ++ List.replicate 60 120) [] fsTypeText,
    .move (ascii "/a") (ascii "/ab")]

theorem addressed_eq {st : FsState} {slot : Nat} (h : Addressed st slot) :
    (shellEntryAbsolutePath st slot).bind (fsFind st) = some slot := by
  obtain ⟨path, hpath, hfind⟩ := h
  rw [hpath, Option.bind_some, hfind]

/-- The path of the moved file is cut by its last character and leads nowhere. After a removal of
`/README.TXT` the path of `/docs/MOTD.TXT` leads to the file behind it. -/
theorem not_everyEntry_addressed :
    ¬ EveryEntryAddressed (run fsStep (fsInit plainBoot zeroTable).table lengtheningCalls) ∧
    ¬ EveryEntryAddressed
      (run fsStep (fsInit plainBoot zeroTable).table [.remove (ascii "/README.TXT")]) := by
  rw [fsInit_plainBoot]
  have hmoved : (run fsStep (fsUseBuiltin zeroTable.emptied) lengtheningCalls).count = 7 ∧
      (shellEntryAbsolutePath (run fsStep (fsUseBuiltin zeroTable.emptied) lengtheningCalls) 6).bind
        (fsFind (run fsStep (fsUseBuiltin zeroTable.emptied) lengtheningCalls)) = none ∧
      (run fsStep (fsUseBuiltin zeroTable.emptied) [.remove (ascii "/README.TXT")]).count = 4 ∧
      (shellEntryAbsolutePath (run fsStep (fsUseBuiltin zeroTable.emptied)
        [.remove (ascii "/README.TXT")]) 2).bind
        (fsFind (run fsStep (fsUseBuiltin zeroTable.emptied) [.remove (ascii "/README.TXT")])) =
          some 3 := by
    decide +kernel
  obtain ⟨hcount, hgone, hcount', hother⟩ := hmoved
  constructor
  · intro h
    have hfound := addressed_eq (h 6 (by rw [hcount]; decide))
    rw [hgone] at hfound
    cases hfound
  · intro h
    have hfound := addressed_eq (h 2 (by rw [hcount']; decide))
    rw [hother] at hfound
    cases hfound

end SnsxOS.X86
