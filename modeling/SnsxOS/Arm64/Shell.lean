import SnsxOS.Arm64.Seed
import SnsxOS.Arm64.TreeInvariant

/-!
# File commands of the shell and of the file manager

Words are resolved against the current directory; the file manager builds the destination of
`ren` and `copy` by concatenation. A command that writes past a path buffer on the stack has no
outcome. Runs of commands that keep clear of such buffers, of entries at the root and of names
that are not components keep the tree.
-/

namespace SnsxOS.Arm64

open Framework

/-- A word as `shell_tokenize` leaves it in the line. -/
structure Word where
  bytes : Bytes
  nulFree : NulFree bytes
  deriving DecidableEq

inductive Command where
  | cd (dir : Word)
  | touch (file : Word)
  /-- the lines typed into the editor that `new` opens -/
  | new (file : Word) (session : List Bytes)
  | write (file : Word) (text : List Word)
  | append (file : Word) (text : List Word)
  | mkdir (dir : Word)
  | rm (path : Word)
  | cp (source destination : Word)
  | mv (source destination : Word)
  | up
  | enter (number : Nat)
  | del (number : Nat)
  | ren (number : Nat) (name : Word)
  | copy (number : Nat) (name : Word)

/-- The file manager works on a copy of the directory and stores it back when it is left. -/
structure ShellState where
  fs : ArmFs
  cwd : Bytes

def shellInputMax : Nat := 256

def fileManagerViewMax : Nat := 48

def space : UInt8 := 32

def shellJoinArgs (words : List Word) (limit : Nat) : Bytes :=
  strcopyLimit ([space].intercalate (words.map Word.bytes)) limit

def fsList (fs : ArmFs) (directory : Bytes) (maxResults : Nat) : List ArmFsEntry :=
  (fs.entries.filter fun entry =>
    if directory = [slash] then decide (slash ∉ entry.path.drop 1)
    else belowTest slash directory entry.path &&
      decide (slash ∉ entry.path.drop (directory.length + 1))).take maxResults

/-- The loop of `app_edit` with the text in the editor buffer and the lines still to be typed. -/
def appEditLoop (fs : ArmFs) (path : Bytes) : Bytes → List Bytes → ArmFs
  | _, [] => fs
  | text, line :: lines =>
      if line = ascii ".help" then appEditLoop fs path text lines
      else if line = ascii ".quit" then fs
      else if line = ascii ".clear" then appEditLoop fs path [] lines
      else if line = ascii ".show" then appEditLoop fs path text lines
      else if line = ascii ".save" then
        match fsWrite fs path text .text with
        | (true, fs') => fs'
        | (false, fs') => appEditLoop fs' path text lines
      else if fsMaxFileSize ≤ text.length + line.length + 1 then appEditLoop fs path text lines
      else appEditLoop fs path (text ++ line ++ [newline]) lines

def appEdit (fs : ArmFs) (path : Bytes) (session : List Bytes) : ArmFs :=
  match fsEntry fs path with
  | none => appEditLoop fs path [] session
  | some entry => if entry.type = .dir then fs else appEditLoop fs path entry.bytes session

namespace ShellState

def call (st : ShellState) (op : FsOp) : ShellState := { st with fs := fsStep st.fs op }

theorem call_fs (fs : ArmFs) (cwd : Bytes) (op : FsOp) :
    (call ⟨fs, cwd⟩ op).fs = fsStep fs op := rfl

def resolvePath (st : ShellState) (word : Word) : Option Bytes :=
  resolvePathFrom st.cwd word.bytes

/-- The entry of the list that a number on the command line stands for. -/
def entryAt (st : ShellState) (number : Nat) : Option ArmFsEntry :=
  if number = 0 then none else (fsList st.fs st.cwd fileManagerViewMax)[number - 1]?

end ShellState

def siblingPrefix (source : Bytes) : Bytes :=
  if parentDirectory source = [slash] then [slash] else parentDirectory source ++ [slash]

/-- The buffer `destination` of `ren` and `copy`; `none` when the name runs past its end. -/
def siblingPath (source : Bytes) (name : Word) : Option Bytes :=
  if fsPathMax < (siblingPrefix source ++ name.bytes).length + 1 then none
  else some (siblingPrefix source ++ name.bytes)

def exec (st : ShellState) : Command → Option ShellState
  | .cd dir => (st.resolvePath dir).map fun path =>
      if path = [slash] ∨ (fsEntry st.fs path).map ArmFsEntry.type = some .dir then
        { st with cwd := strcopyLimit path fsPathMax }
      else st
  | .touch file => (st.resolvePath file).map fun path => st.call (.write path [] .text)
  | .new file session => (st.resolvePath file).map fun path =>
      match fsWrite st.fs path [] .text with
      | (true, fs) => { st with fs := appEdit fs path session }
      | (false, fs) => { st with fs := fs }
  | .write file text => (st.resolvePath file).map fun path =>
      st.call (.write path (shellJoinArgs text shellInputMax) .text)
  | .append file text => (st.resolvePath file).map fun path =>
      st.call (.appendLine path (shellJoinArgs text shellInputMax))
  | .mkdir dir => (st.resolvePath dir).map fun path => st.call (.mkdir path)
  | .rm path => (st.resolvePath path).map fun path => st.call (.remove path)
  | .cp source destination => (st.resolvePath source).bind fun src =>
      (st.resolvePath destination).map fun dst => st.call (.copy src dst)
  | .mv source destination => (st.resolvePath source).bind fun src =>
      (st.resolvePath destination).map fun dst => st.call (.move src dst)
  | .up => some { st with cwd := parentDirectory st.cwd }
  | .enter number => match st.entryAt number with
      | none => some st
      | some entry =>
          if entry.type = .dir then some { st with cwd := strcopyLimit entry.path fsPathMax }
          else some st
  | .del number => match st.entryAt number with
      | none => some st
      | some entry => some (st.call (.remove entry.path))
  | .ren number name => match st.entryAt number with
      | none => some st
      | some entry =>
          let source := strcopyLimit entry.path fsPathMax
          (siblingPath source name).map fun dst => st.call (.move source dst)
  | .copy number name => match st.entryAt number with
      | none => some st
      | some entry =>
          let source := strcopyLimit entry.path fsPathMax
          (siblingPath source name).map fun dst => st.call (.copy source dst)

/-- The session begins in `/home` on the seeded table. -/
def shellStart (fs : ArmFs) : ShellState := ⟨fsSeed fs, ascii "/home"⟩

/-- A relative word at the root leaves room for the slash before it. -/
def Resolves (cwd : Bytes) (word : Word) : Prop :=
  cwd = [slash] → word.bytes.head? = some slash ∨ word.bytes.length + 2 ≤ fsPathMax

/-- The paths of a moved subtree still fit. -/
def MoveFits (table : Table) (source destination : Bytes) : Prop :=
  ∀ node ∈ table, InSubtree slash source node.path →
    destination.length + (node.path.drop source.length).length < fsPathMax

/-- The command keeps clear of the path buffers on the stack, and what it stores goes to a
canonical path that fits. -/
def CommandOk (st : ShellState) : Command → Prop
  | .cd dir | .mkdir dir | .rm dir => Resolves st.cwd dir
  | .touch file | .new file _ | .write file _ | .append file _ => Resolves st.cwd file ∧
      ∀ path, st.resolvePath file = some path → canPush st.fs.nodes path = true →
        path ≠ [slash]
  | .cp source destination => Resolves st.cwd source ∧ Resolves st.cwd destination ∧
      ∀ src dst, st.resolvePath source = some src → st.resolvePath destination = some dst →
        copyAccepted st.fs.nodes src dst = true → dst ≠ [slash]
  | .mv source destination => Resolves st.cwd source ∧ Resolves st.cwd destination ∧
      ∀ src dst, st.resolvePath source = some src → st.resolvePath destination = some dst →
        moveAccepted st.fs.nodes src dst = true →
          dst ≠ [slash] ∧ MoveFits st.fs.nodes src dst
  | .up | .enter _ | .del _ => True
  | .ren number name => ∀ entry, st.entryAt number = some entry →
      ∃ dst, siblingPath entry.path name = some dst ∧
        (moveAccepted st.fs.nodes entry.path dst = true →
          CanonicalPath dst ∧ MoveFits st.fs.nodes entry.path dst)
  | .copy number name => ∀ entry, st.entryAt number = some entry →
      ∃ dst, siblingPath entry.path name = some dst ∧
        (copyAccepted st.fs.nodes entry.path dst = true → CanonicalPath dst)

/-- Every path ends within its field, the paths form a tree, and the sizes fit. -/
structure FsTree (fs : ArmFs) : Prop where
  entries : EntriesOk fs
  tree : TableTree fs.nodes

structure ShellOk (st : ShellState) : Prop where
  fs : FsTree st.fs
  cwd : ResolvedPath st.cwd

section Steps

variable {fs : ArmFs} {st : ShellState}

theorem fsStep_tree (h : FsTree fs) (op : FsOp) (hfits : OpFits fs.nodes op)
    (hop : OpCanonical fs.nodes op) : FsTree (fsStep fs op) := by
  have hcall := fsCall_refines h.entries hfits
  refine ⟨hcall.ok, ?_⟩
  rw [show (fsStep fs op).nodes = tableStep fs.nodes op from hcall.nodes]
  exact tableStep_tree h.tree hfits hop

theorem ShellOk.intro {cwd : Bytes} (hfs : FsTree fs) (hcwd : ResolvedPath cwd) :
    ShellOk ⟨fs, cwd⟩ := ⟨hfs, hcwd⟩

theorem ShellOk.call (h : ShellOk st) (op : FsOp) (hfits : OpFits st.fs.nodes op)
    (hop : OpCanonical st.fs.nodes op) : ShellOk (st.call op) :=
  ⟨fsStep_tree h.fs op hfits hop, h.cwd⟩

/-- The editor saves at most once. -/
theorem appEditLoop_cases (fs : ArmFs) (path text : Bytes) (session : List Bytes) :
    appEditLoop fs path text session = fs ∨
      ∃ data, appEditLoop fs path text session = fsStep fs (.write path data .text) := by
  induction session generalizing text with
  | nil => exact Or.inl rfl
  | cons line lines ih =>
    rw [appEditLoop]
    split
    · exact ih text
    · split
      · exact Or.inl rfl
      · split
        · exact ih []
        · split
          · exact ih text
          · split
            · have hrefused : (fsWrite fs path text .text).1 = false →
                  (fsWrite fs path text .text).2 = fs := by
                intro hfalse
                rw [fsWrite] at hfalse ⊢
                grind
              split
              · rename_i fs' hwrite
                exact Or.inr ⟨text, by rw [fsStep, fsCall, hwrite]⟩
              · rename_i fs' hwrite
                rw [hwrite] at hrefused
                rw [show fs' = fs from hrefused rfl]
                exact ih text
            · split
              · exact ih text
              · exact ih _

theorem appEdit_cases (fs : ArmFs) (path : Bytes) (session : List Bytes) :
    appEdit fs path session = fs ∨
      ∃ data, appEdit fs path session = fsStep fs (.write path data .text) := by
  rw [appEdit]
  split
  · exact appEditLoop_cases fs path [] session
  · split
    · exact Or.inl rfl
    · exact appEditLoop_cases fs path _ session

theorem appEdit_tree (h : FsTree fs) {path : Bytes} (hpath : CanonicalPath path)
    (session : List Bytes) : FsTree (appEdit fs path session) := by
  rcases appEdit_cases fs path session with hsame | hsaved
  · rw [hsame]
    exact h
  · obtain ⟨data, hsaved⟩ := hsaved
    rw [hsaved]
    exact fsStep_tree h (.write path data .text) hpath.nulFree fun _ => hpath

theorem ShellOk.resolved (h : ShellOk st) {word : Word} {path : Bytes}
    (hpath : st.resolvePath word = some path) : ResolvedPath path :=
  resolvePathFrom_resolved h.cwd word.nulFree hpath

theorem parentDirectory_resolved {path : Bytes} (h : ResolvedPath path) :
    ResolvedPath (parentDirectory path) := by
  rcases h.root_or_canonical with rfl | hpath
  · exact resolvedPath_root
  · obtain ⟨a, b, hsplit, -, ha, hparent⟩ := hpath.split
    rw [hparent]
    split
    · exact resolvedPath_root
    · rename_i hne
      refine ⟨Or.inr (ha.resolve_left hne), ?_⟩
      have hfit := h.fits
      rw [hsplit, List.length_append] at hfit
      omega

theorem entryAt_mem {number : Nat} {entry : ArmFsEntry}
    (h : st.entryAt number = some entry) : entry ∈ st.fs.entries := by
  rw [ShellState.entryAt] at h
  split at h
  · cases h
  · exact List.mem_of_mem_filter (List.mem_of_mem_take (List.mem_of_getElem? h))

theorem siblingPath_nulFree {source destination : Bytes} {name : Word} (hsource : NulFree source)
    (h : siblingPath source name = some destination) : NulFree destination := by
  rw [siblingPath] at h
  split at h
  · cases h
  · obtain rfl := Option.some.inj h
    apply NulFree.append _ name.nulFree
    have hparent : NulFree (parentDirectory source) := by
      rw [parentDirectory]
      split
      · exact hsource
      · split
        · exact hsource
        · exact hsource.take 1
        · exact hsource.take _
    rw [siblingPrefix]
    split
    · decide
    · exact hparent.append (by decide)

/-- The word resolves, and a path it can be stored under is canonical. -/
theorem ShellOk.target (h : ShellOk st) {word : Word} (hword : Resolves st.cwd word) :
    ∃ path, st.resolvePath word = some path ∧ ResolvedPath path := by
  obtain ⟨path, hpath⟩ := resolvePathFrom_isSome hword
  exact ⟨path, hpath, h.resolved hpath⟩

theorem exec_new (h : ShellOk st) {path : Bytes} (hpath : ResolvedPath path)
    (htarget : canPush st.fs.nodes path = true → CanonicalPath path) (session : List Bytes) :
    ShellOk (match fsWrite st.fs path [] .text with
      | (true, fs) => { st with fs := appEdit fs path session }
      | (false, fs) => { st with fs := fs }) := by
  have hwrite := fsWrite_refines h.fs.entries hpath.nulFree [] .text
  have hcreated : FsTree (fsWrite st.fs path [] .text).2 :=
    fsStep_tree h.fs (.write path [] .text) hpath.nulFree htarget
  have hanswer := hwrite.answer
  split
  · rename_i fs' hresult
    rw [hresult] at hcreated hanswer
    refine ⟨appEdit_tree hcreated ?_ session, h.cwd⟩
    -- the file was stored, so its path was already in the tree or could be pushed
    rw [tableWrite] at hanswer
    split at hanswer
    · cases hanswer
    · split at hanswer
      · rename_i slot hslot
        obtain ⟨hlt, hkey⟩ := slotOf_eq_some hslot
        rw [← hkey]
        exact h.fs.tree.canonical _ (List.getElem_mem hlt)
      · split at hanswer
        · rename_i hpush
          exact htarget hpush
        · cases hanswer
  · rename_i fs' hresult
    rw [hresult] at hcreated
    exact ⟨hcreated, h.cwd⟩

/-- A command within its limits has an outcome and keeps the tree. -/
theorem exec_ok (h : ShellOk st) {command : Command} (hok : CommandOk st command) :
    ∃ st', exec st command = some st' ∧ ShellOk st' := by
  have hsource : ∀ {entry : ArmFsEntry} {number : Nat}, st.entryAt number = some entry →
      NulFree entry.path ∧ strcopyLimit entry.path fsPathMax = entry.path := by
    intro entry number hentry
    exact ⟨path_nulFree entry, strcopyLimit_of_lt (h.fs.entries entry (entryAt_mem hentry)).path_lt⟩
  cases command with
  | cd dir =>
    obtain ⟨path, hpath, hresolved⟩ := h.target hok
    rw [exec, hpath]
    refine ⟨_, rfl, ?_⟩
    dsimp only
    split
    · refine ⟨h.fs, ?_⟩
      dsimp only
      rw [strcopyLimit_of_lt hresolved.fits]
      exact hresolved
    · exact h
  | touch file =>
    obtain ⟨path, hpath, hresolved⟩ := h.target hok.1
    rw [exec, hpath]
    exact ⟨_, rfl, h.call (.write path [] .text) hresolved.nulFree fun hpush =>
      hresolved.canonical (hok.2 path hpath hpush)⟩
  | new file session =>
    obtain ⟨path, hpath, hresolved⟩ := h.target hok.1
    rw [exec, hpath]
    exact ⟨_, rfl, exec_new h hresolved
      (fun hpush => hresolved.canonical (hok.2 path hpath hpush)) session⟩
  | write file text =>
    obtain ⟨path, hpath, hresolved⟩ := h.target hok.1
    rw [exec, hpath]
    exact ⟨_, rfl, h.call (.write path _ .text) hresolved.nulFree fun hpush =>
      hresolved.canonical (hok.2 path hpath hpush)⟩
  | append file text =>
    obtain ⟨path, hpath, hresolved⟩ := h.target hok.1
    rw [exec, hpath]
    exact ⟨_, rfl, h.call (.appendLine path _) hresolved.nulFree fun hpush =>
      hresolved.canonical (hok.2 path hpath hpush)⟩
  | mkdir dir =>
    obtain ⟨path, hpath, hresolved⟩ := h.target hok
    rw [exec, hpath]
    exact ⟨_, rfl, h.call (.mkdir path) hresolved.nulFree hresolved.canonical⟩
  | rm word =>
    obtain ⟨path, hpath, -⟩ := h.target hok
    rw [exec, hpath]
    exact ⟨_, rfl, h.call (.remove path) trivial trivial⟩
  | cp source destination =>
    obtain ⟨src, hsrc, -⟩ := h.target hok.1
    obtain ⟨dst, hdst, hresolved⟩ := h.target hok.2.1
    rw [exec, hsrc, hdst]
    exact ⟨_, rfl, h.call (.copy src dst) hresolved.nulFree fun haccepted =>
      hresolved.canonical (hok.2.2 src dst hsrc hdst haccepted)⟩
  | mv source destination =>
    obtain ⟨src, hsrc, -⟩ := h.target hok.1
    obtain ⟨dst, hdst, hresolved⟩ := h.target hok.2.1
    rw [exec, hsrc, hdst]
    have hmove := hok.2.2 src dst hsrc hdst
    exact ⟨_, rfl, h.call (.move src dst)
      ⟨hresolved.nulFree, fun haccepted => (hmove haccepted).2⟩ fun haccepted =>
        hresolved.canonical (hmove haccepted).1⟩
  | up => exact ⟨_, rfl, h.fs, parentDirectory_resolved h.cwd⟩
  | enter number =>
    rw [exec]
    cases hentry : st.entryAt number with
    | none => exact ⟨_, rfl, h⟩
    | some entry =>
      have hmem := entryAt_mem hentry
      dsimp only
      split
      · refine ⟨_, rfl, h.fs, ?_⟩
        dsimp only
        rw [(hsource hentry).2]
        exact ⟨Or.inr (h.fs.tree.canonical entry.node (List.mem_map_of_mem hmem)),
          (h.fs.entries entry hmem).path_lt⟩
      · exact ⟨_, rfl, h⟩
  | del number =>
    rw [exec]
    cases hentry : st.entryAt number with
    | none => exact ⟨_, rfl, h⟩
    | some entry => exact ⟨_, rfl, h.call (.remove entry.path) trivial trivial⟩
  | ren number name =>
    rw [exec]
    cases hentry : st.entryAt number with
    | none => exact ⟨_, rfl, h⟩
    | some entry =>
      obtain ⟨hnul, hcopy⟩ := hsource hentry
      obtain ⟨dst, hdst, hmove⟩ := hok entry hentry
      dsimp only
      rw [hcopy, hdst]
      exact ⟨_, rfl, h.call (.move entry.path dst)
        ⟨siblingPath_nulFree hnul hdst, fun haccepted => (hmove haccepted).2⟩
        fun haccepted => (hmove haccepted).1⟩
  | copy number name =>
    rw [exec]
    cases hentry : st.entryAt number with
    | none => exact ⟨_, rfl, h⟩
    | some entry =>
      obtain ⟨hnul, hcopy⟩ := hsource hentry
      obtain ⟨dst, hdst, hcopied⟩ := hok entry hentry
      dsimp only
      rw [hcopy, hdst]
      exact ⟨_, rfl, h.call (.copy entry.path dst) (siblingPath_nulFree hnul hdst)
        hcopied⟩

end Steps

section Runs

theorem loadCall_canonical {nodes : Table} (hpaths : ∀ node ∈ nodes, CanonicalPath node.path)
    (table : Table) :
    Guarded tableStep (fun t op => OpFits t op ∧ OpCanonical t op) table
      (nodes.map loadCall) := by
  induction nodes generalizing table with
  | nil => exact trivial
  | cons node nodes ih =>
    have hnode := hpaths node (by simp)
    refine ⟨?_, ih (fun n hn => hpaths n (by simp [hn])) _⟩
    rw [loadCall]
    split
    · exact ⟨hnode.nulFree, fun _ => hnode⟩
    · exact ⟨hnode.nulFree, fun _ => hnode⟩

theorem seedTable_canonical : ∀ node ∈ seedTable, CanonicalPath node.path := by decide +kernel

theorem seedTable_tree : TableTree seedTable := by
  have hguarded := loadCall_canonical seedTable_canonical []
  rw [← seedCalls_eq] at hguarded
  rw [← run_seedCalls]
  exact run_invariant_of_guarded (I := TableTree)
    (fun _ _ htable hop => tableStep_tree htable hop.1 hop.2) TableTree.nil seedCalls hguarded

theorem home_resolved : ResolvedPath (ascii "/home") := ⟨Or.inr (by decide), by decide⟩

theorem fsSeed_tree (fs : ArmFs) : FsTree (fsSeed fs) := by
  obtain ⟨hnodes, hentries⟩ := fsSeed_nodes fs
  refine ⟨hentries, ?_⟩
  rw [hnodes]
  exact seedTable_tree

theorem shellStart_ok (fs : ArmFs) : ShellOk (shellStart fs) :=
  ShellOk.intro (fsSeed_tree fs) home_resolved

/-- Runs of commands within their limits never fault and keep the tree. -/
theorem shell_tree (fs : ArmFs) (commands : List Command)
    (hok : GuardedPartial exec CommandOk (shellStart fs) commands) :
    ∃ st, runPartial exec (shellStart fs) commands = some st ∧ FsTree st.fs ∧
      ∀ file ∈ st.fs.nodes, file.type ≠ .dir → ∀ node ∈ st.fs.nodes,
        ¬ Below slash file.path node.path := by
  obtain ⟨st, hrun, hst⟩ := runPartial_invariant_of_guarded (I := ShellOk)
    (fun _ _ hst hcommand => exec_ok hst hcommand) (shellStart_ok fs) commands hok
  refine ⟨st, hrun, hst.fs, ?_⟩
  intro file hfile htype node hnode
  exact hst.fs.tree.toTreeTable.not_below hfile hnode
    (hst.fs.tree.canonical file hfile).ne_nil htype

/-- A storing command whose path resolves away from the root is within its limits. -/
theorem commandOk_mkdir_write {cwd : Bytes} (hcwd : cwd ≠ [slash]) (fs : ArmFs) (dir file : Word)
    (text : List Word) {path : Bytes} (hpath : resolvePathFrom cwd file.bytes = some path)
    (hne : path ≠ [slash]) :
    GuardedPartial exec CommandOk ⟨fs, cwd⟩ [.mkdir dir, .write file text] := by
  refine ⟨fun hroot => absurd hroot hcwd, fun t ht => ?_⟩
  have htcwd : t.cwd = cwd := by
    obtain ⟨-, -, rfl⟩ := Option.map_eq_some_iff.mp ht
    rfl
  refine ⟨⟨fun hroot => absurd (htcwd.symm.trans hroot) hcwd, fun p hp _ => ?_⟩,
    fun _ _ => trivial⟩
  rw [ShellState.resolvePath, htcwd, hpath] at hp
  rw [← Option.some.inj hp]
  exact hne

def emptySession : ArmFs := ArmFs.empty ⟨false, false, false, 0⟩

/-- A directory and a file in it, made in `/home`. -/
theorem shell_tree_mkdir_write :
    ∃ st, runPartial exec (shellStart emptySession)
      [.mkdir ⟨ascii "work", by decide⟩,
        .write ⟨ascii "work/a.txt", by decide⟩ [⟨ascii "hello", by decide⟩]] = some st ∧
      FsTree st.fs ∧ ∀ file ∈ st.fs.nodes, file.type ≠ .dir → ∀ node ∈ st.fs.nodes,
        ¬ Below slash file.path node.path :=
  shell_tree emptySession _ (commandOk_mkdir_write (by decide) (fsSeed emptySession) _ _ _
    (show resolvePathFrom (ascii "/home") (ascii "work/a.txt") = some (ascii "/home/work/a.txt")
      by decide) (by decide))

/-- `touch /` stores a file under the path of the root. -/
theorem not_shell_tree :
    ¬ ∀ (fs : ArmFs) (commands : List Command) (st : ShellState),
      runPartial exec (shellStart fs) commands = some st → FsTree st.fs := by
  intro h
  have hword : resolvePathFrom (ascii "/home") [slash] = some [slash] := by decide
  have hrun : runPartial exec (shellStart emptySession) [.touch ⟨[slash], by decide⟩] =
      some (ShellState.call ⟨fsSeed emptySession, ascii "/home"⟩ (.write [slash] [] .text)) := by
    rw [runPartial_cons, exec, ShellState.resolvePath]
    rw [shellStart, hword]
    rfl
  have htree := h emptySession _ _ hrun
  rw [ShellState.call_fs] at htree
  obtain ⟨hnodes, hentries⟩ := fsSeed_nodes emptySession
  have hcall := fsCall_refines hentries
    (show OpFits (fsSeed emptySession).nodes (.write [slash] [] .text) by decide)
  have htable : tableCall seedTable (.write [slash] [] .text) =
      (true, seedTable ++ [⟨[slash], .text, []⟩]) := by
    have hfresh : slotOf FileNode.path seedTable [slash] = none := by
      rw [slotOf_eq_none, List.mem_map]
      intro hex
      obtain ⟨node, hnode, hroot⟩ := hex
      exact seedTable_paths.2.2.2.2 node hnode hroot
    rw [tableCall, tableWrite, if_neg (by decide), hfresh]
    exact if_pos (by decide +kernel)
  have hroot : (⟨[slash], .text, []⟩ : FileNode ArmFsType) ∈
      (fsStep (fsSeed emptySession) (.write [slash] [] .text)).nodes := by
    rw [fsStep, hcall.nodes, hnodes, htable]
    simp
  exact not_canonicalPath_root (htree.tree.canonical _ hroot)

end Runs

end SnsxOS.Arm64
