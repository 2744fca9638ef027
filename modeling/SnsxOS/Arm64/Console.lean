import SnsxOS.Arm64.Shell
import SnsxOS.Framework.Session

/-!
# The shell, its file manager and their directories

`g_cwd` is a text that is kept apart from the table; `app_files` works on a copy of it. Words that
keep within the path buffers lead from directories of the table to directories of the table, unless
a removal or a rename takes the directory itself away.
-/

namespace SnsxOS.Arm64

open Framework

inductive ConsoleCommand where
  | file (command : Command)
  /-- `edit` with the lines typed into the editor -/
  | edit (file : Word) (session : List Bytes)
  | editEntry (number : Nat) (session : List Bytes)

namespace ConsoleCommand

/-- The commands that the shell reads, and those that the open file manager reads. -/
def reads : Bool → ConsoleCommand → Bool
  | false, .file (.cd _) | false, .file (.touch _) | false, .file (.new _ _)
  | false, .file (.write _ _) | false, .file (.append _ _) | false, .file (.mkdir _)
  | false, .file (.rm _) | false, .file (.cp _ _) | false, .file (.mv _ _)
  | false, .edit _ _ => true
  | true, .file (.new _ _) | true, .file (.mkdir _) | true, .file .up | true, .file (.enter _)
  | true, .file (.del _) | true, .file (.ren _ _) | true, .file (.copy _ _)
  | true, .editEntry _ _ => true
  | _, _ => false

end ConsoleCommand

def consoleExec (st : ShellState) : ConsoleCommand → Option ShellState
  | .file command => exec st command
  | .edit file session => (st.resolvePath file).map fun path =>
      { st with fs := appEdit st.fs path session }
  | .editEntry number session => match st.entryAt number with
      | none => some st
      | some entry => some { st with fs := appEdit st.fs entry.path session }

def console : Interpreter ArmFs Bytes ConsoleCommand where
  copy directory := strcopyLimit directory fsPathMax
  reads := ConsoleCommand.reads
  exec fs directory command :=
    (consoleExec ⟨fs, directory⟩ command).map fun st => (st.fs, st.cwd)

theorem console_exec (fs : ArmFs) (directory : Bytes) (command : ConsoleCommand) :
    console.exec fs directory command =
      (consoleExec ⟨fs, directory⟩ command).map fun st => (st.fs, st.cwd) := rfl

/-- The root, or the path of a directory entry. -/
def DirPresent (fs : ArmFs) (directory : Bytes) : Prop :=
  directory = [slash] ∨ ∃ entry ∈ fs.entries, entry.path = directory ∧ entry.type = .dir

/-- The removal or rename that a command asks for. -/
def ShellState.takingOp (st : ShellState) : ConsoleCommand → Option FsOp
  | .file (.rm path) => (st.resolvePath path).map .remove
  | .file (.mv source destination) => (st.resolvePath source).bind fun src =>
      (st.resolvePath destination).map fun dst => .move src dst
  | .file (.del number) => (st.entryAt number).map fun entry => .remove entry.path
  | .file (.ren number name) => (st.entryAt number).bind fun entry =>
      (siblingPath entry.path name).map fun dst => .move entry.path dst
  | _ => none

/-- The command removes the directory, or renames it or a directory above it. -/
def CommandTakes (fs : ArmFs) (cwd : Bytes) (command : ConsoleCommand) (directory : Bytes) : Prop :=
  directory ≠ [slash] ∧
    ∃ op, ShellState.takingOp ⟨fs, cwd⟩ command = some op ∧ OpTakes fs.nodes directory op

/-- The command runs over no path buffer, and no name given to `ren` or `copy` at the root begins
with a slash. -/
def CommandFits (fs : ArmFs) (cwd : Bytes) : ConsoleCommand → Prop
  | .file (.cd word) | .file (.touch word) | .file (.new word _) | .file (.write word _)
  | .file (.append word _) | .file (.mkdir word) | .file (.rm word) | .edit word _ =>
      Resolves cwd word
  | .file (.cp source destination) => Resolves cwd source ∧ Resolves cwd destination
  | .file (.mv source destination) => Resolves cwd source ∧ Resolves cwd destination ∧
      ∀ src dst, resolvePathFrom cwd source.bytes = some src →
        resolvePathFrom cwd destination.bytes = some dst →
        moveAccepted fs.nodes src dst = true → MoveFits fs.nodes src dst
  | .file .up | .file (.enter _) | .file (.del _) | .editEntry _ _ => True
  | .file (.ren number name) => ∀ entry, ShellState.entryAt ⟨fs, cwd⟩ number = some entry →
      ∃ dst, siblingPath entry.path name = some dst ∧
        (moveAccepted fs.nodes entry.path dst = true →
          SinglePath dst ∧ MoveFits fs.nodes entry.path dst)
  | .file (.copy number name) => ∀ entry, ShellState.entryAt ⟨fs, cwd⟩ number = some entry →
      ∃ dst, siblingPath entry.path name = some dst ∧
        (copyAccepted fs.nodes entry.path dst = true → SinglePath dst)

/-- Every path ends within its field, and every entry hangs from directories. -/
structure FsRooted (fs : ArmFs) : Prop where
  entries : EntriesOk fs
  table : TableRooted fs.nodes

section Directories

variable {fs fs' : ArmFs} {directory : Bytes}

theorem not_commandTakes {cwd : Bytes} {command : ConsoleCommand}
    (h : ShellState.takingOp ⟨fs, cwd⟩ command = none) :
    ¬ CommandTakes fs cwd command directory := by
  intro htakes
  obtain ⟨-, op, hop, -⟩ := htakes
  rw [h] at hop
  cases hop

theorem dirPresent_iff : DirPresent fs directory ↔
    directory = [slash] ∨ DirAt fs.nodes directory := by
  have hdir : (∃ entry ∈ fs.entries, entry.path = directory ∧ entry.type = .dir) ↔
      DirAt fs.nodes directory := by
    constructor
    · intro h
      obtain ⟨entry, hentry, hpath, htype⟩ := h
      exact ⟨entry.node, List.mem_map_of_mem hentry, hpath, htype⟩
    · intro h
      obtain ⟨node, hnode, hpath, htype⟩ := h
      obtain ⟨entry, hentry, rfl⟩ := List.mem_map.mp hnode
      exact ⟨entry, hentry, hpath, htype⟩
  rw [DirPresent, hdir]

theorem FsRooted.dir_absolute (h : FsRooted fs) (hdir : DirPresent fs directory) :
    AbsolutePath directory := by
  rcases hdir with rfl | hdir
  · exact resolvedPath_root.absolutePath
  · obtain ⟨entry, hentry, rfl, -⟩ := hdir
    exact ⟨h.table.absolute entry.node (List.mem_map_of_mem hentry), path_nulFree entry,
      (h.entries entry hentry).path_lt⟩

theorem FsRooted.dir_parent (h : FsRooted fs) (hdir : DirPresent fs directory) :
    DirPresent fs (parentDirectory directory) := by
  rw [dirPresent_iff] at hdir ⊢
  rcases hdir with rfl | hdir
  · exact Or.inl rfl
  · exact hdir.parent h.table

/-- A call whose paths fit takes away the directories it names and no other. -/
theorem FsRooted.step (h : FsRooted fs) {takes : Bytes → Prop} (op : FsOp)
    (hfits : OpFits fs.nodes op) (hpaths : ∀ path, StoresAt fs.nodes op path →
      path ∉ fs.nodes.map FileNode.path → SinglePath path)
    (htakes : ∀ directory, directory ≠ [slash] → OpTakes fs.nodes directory op → takes directory) :
    Kept FsRooted DirPresent takes fs (fsStep fs op) := by
  have hcall := fsCall_refines h.entries hfits
  have hnodes : (fsStep fs op).nodes = tableStep fs.nodes op := hcall.nodes
  have heffect := tableStep_effect fs.nodes op
  rw [← hnodes] at heffect
  refine ⟨⟨hcall.ok, heffect.rooted h.table hfits hpaths⟩, fun directory hdir hkept => ?_⟩
  rw [dirPresent_iff] at hdir ⊢
  by_cases hroot : directory = [slash]
  · exact Or.inl hroot
  · right
    apply heffect.dirAt h.table (hdir.resolve_left hroot)
    exact fun htaken => hkept (htakes directory hroot htaken)

/-- A path that text can be stored under: it names an entry, or it is a path of its own. -/
structure WritablePath (fs : ArmFs) (path : Bytes) : Prop where
  nulFree : NulFree path
  single : path ∉ fs.nodes.map FileNode.path → SinglePath path

theorem FsRooted.write (h : FsRooted fs) {path : Bytes} (hpath : WritablePath fs path)
    (data : Bytes) (takes : Bytes → Prop) :
    Kept FsRooted DirPresent takes fs (fsStep fs (.write path data .text)) :=
  h.step _ hpath.nulFree (fun _ hstores => hstores.1 ▸ hpath.single) fun _ _ htakes => htakes.elim

/-- What was writable stays so, since writing renames and removes nothing. -/
theorem WritablePath.write (hpath : WritablePath fs directory) (h : FsRooted fs) (data : Bytes) :
    WritablePath (fsStep fs (.write directory data .text)) directory := by
  refine ⟨hpath.nulFree, fun habsent => hpath.single fun hmem => habsent ?_⟩
  have hcall := fsCall_refines h.entries (show OpFits fs.nodes (.write directory data .text) from
    hpath.nulFree)
  rw [show (fsStep fs (.write directory data .text)).nodes = tableStep fs.nodes _ from hcall.nodes]
  have heffect := tableStep_effect fs.nodes (.write directory data .text)
  generalize tableStep fs.nodes (.write directory data .text) = table' at heffect ⊢
  cases heffect with
  | same => exact hmem
  | push node stores absent room size =>
    rw [List.map_append]
    exact List.mem_append_left _ hmem
  | store slot hslot file type data size => rwa [map_modify hslot rfl]
  | remove slot hslot call leaf => cases call
  | rename source destination call accepted => cases call

theorem FsRooted.edit (h : FsRooted fs) {path : Bytes} (hpath : WritablePath fs path)
    (session : List Bytes) (takes : Bytes → Prop) :
    Kept FsRooted DirPresent takes fs (appEdit fs path session) := by
  rcases appEdit_cases fs path session with hsame | hsaved
  · rw [hsame]
    exact .refl h takes
  · obtain ⟨data, hsaved⟩ := hsaved
    rw [hsaved]
    exact h.write hpath data takes

end Directories

section Steps

variable {fs : ArmFs} {cwd : Bytes}

theorem SinglePath.of_resolved {path : Bytes} (h : ResolvedPath path) : SinglePath path := by
  rcases h.root_or_canonical with rfl | hpath
  · exact ⟨rfl, fun name _ hroot => by cases hroot⟩
  · exact hpath.single

theorem WritablePath.of_mem {entry : ArmFsEntry} (hentry : entry ∈ fs.entries) :
    WritablePath fs entry.path :=
  ⟨path_nulFree entry, fun habsent =>
    absurd (List.mem_map_of_mem (List.mem_map_of_mem hentry)) habsent⟩

/-- A word within its limits resolves to a path that can be written. -/
theorem FsRooted.target (h : FsRooted fs) (hcwd : DirPresent fs cwd) {word : Word}
    (hword : Resolves cwd word) :
    ∃ path, resolvePathFrom cwd word.bytes = some path ∧ WritablePath fs path := by
  obtain ⟨path, hpath⟩ := resolvePathFrom_isSome hword
  refine ⟨path, hpath, ?_⟩
  have habs := h.dir_absolute hcwd
  rcases resolvePathFrom_cases habs word.nulFree hpath with rfl | hresolved
  · refine ⟨habs.nulFree, fun habsent => ?_⟩
    rcases hcwd with rfl | hcwd
    · exact SinglePath.of_resolved resolvedPath_root
    · obtain ⟨entry, hentry, rfl, -⟩ := hcwd
      exact (WritablePath.of_mem hentry).single habsent
  · exact ⟨hresolved.nulFree, fun _ => SinglePath.of_resolved hresolved⟩

/-- A call on a single path that takes nothing away. -/
theorem FsRooted.store (h : FsRooted fs) (hcwd : DirPresent fs cwd) {path : Bytes}
    (hpath : WritablePath fs path) (takes : Bytes → Prop) {op : FsOp}
    (hfits : OpFits fs.nodes op) (hstores : ∀ p, StoresAt fs.nodes op p → p = path)
    (htakes : ∀ directory, ¬ OpTakes fs.nodes directory op) :
    Leads FsRooted DirPresent takes fs cwd (fsStep fs op, cwd) :=
  .stay hcwd (h.step op hfits (fun p hp => hstores p hp ▸ hpath.single)
    fun directory _ htaken => absurd htaken (htakes directory))

/-- The path of an entry is a text that the buffers of the shell hold. -/
theorem FsRooted.entryAt (h : FsRooted fs) {number : Nat} {entry : ArmFsEntry}
    (hat : ShellState.entryAt ⟨fs, cwd⟩ number = some entry) :
    entry ∈ fs.entries ∧ strcopyLimit entry.path fsPathMax = entry.path := by
  have hmem := entryAt_mem hat
  exact ⟨hmem, strcopyLimit_of_lt (h.entries entry hmem).path_lt⟩

/-- A command on files and directories. -/
theorem exec_keeps (h : FsRooted fs) (hcwd : DirPresent fs cwd) {command : Command}
    (hfits : CommandFits fs cwd (.file command)) :
    ∃ st', exec ⟨fs, cwd⟩ command = some st' ∧
      Leads FsRooted DirPresent (CommandTakes fs cwd (.file command)) fs cwd (st'.fs, st'.cwd) := by
  cases command with
  | cd dir =>
    obtain ⟨path, hpath, -⟩ := h.target hcwd hfits
    refine ⟨_, by rw [exec, ShellState.resolvePath, hpath]; rfl, ?_⟩
    dsimp only
    split
    · rename_i hdir
      have hpresent : DirPresent fs path := by
        rcases hdir with hroot | hdir
        · exact Or.inl hroot
        · obtain ⟨entry, hfind, htype⟩ := Option.map_eq_some_iff.mp hdir
          obtain ⟨hmem, hkey⟩ := mem_of_lookup hfind
          exact Or.inr ⟨entry, hmem, hkey, htype⟩
      rw [strcopyLimit_of_lt (h.dir_absolute hpresent).fits]
      exact .enter h hpresent
    · exact .stay hcwd (.refl h _)
  | touch file =>
    obtain ⟨path, hpath, hwritable⟩ := h.target hcwd hfits
    refine ⟨_, by rw [exec, ShellState.resolvePath, hpath]; rfl, ?_⟩
    exact .stay hcwd (h.write hwritable [] _)
  | new file session =>
    obtain ⟨path, hpath, hwritable⟩ := h.target hcwd hfits
    refine ⟨_, by rw [exec, ShellState.resolvePath, hpath]; rfl, ?_⟩
    have hcreated := h.write hwritable [] (CommandTakes fs cwd (.file (.new file session)))
    have hstep : (fsWrite fs path [] .text).2 = fsStep fs (.write path [] .text) := rfl
    dsimp only
    split
    · rename_i fs' hwrite
      rw [hwrite] at hstep
      obtain rfl := hstep
      exact .stay hcwd (hcreated.trans (hcreated.ok.edit (hwritable.write h []) session _))
    · rename_i fs' hwrite
      rw [hwrite] at hstep
      obtain rfl := hstep
      exact .stay hcwd hcreated
  | write file text =>
    obtain ⟨path, hpath, hwritable⟩ := h.target hcwd hfits
    refine ⟨_, by rw [exec, ShellState.resolvePath, hpath]; rfl, ?_⟩
    exact .stay hcwd (h.write hwritable _ _)
  | append file text =>
    obtain ⟨path, hpath, hwritable⟩ := h.target hcwd hfits
    refine ⟨_, by rw [exec, ShellState.resolvePath, hpath]; rfl, ?_⟩
    exact h.store hcwd hwritable _ hwritable.nulFree (fun _ hp => hp.1) fun _ => id
  | mkdir dir =>
    obtain ⟨path, hpath, hwritable⟩ := h.target hcwd hfits
    refine ⟨_, by rw [exec, ShellState.resolvePath, hpath]; rfl, ?_⟩
    exact h.store hcwd hwritable _ hwritable.nulFree (fun _ hp => hp.1) fun _ => id
  | rm word =>
    obtain ⟨path, hpath, -⟩ := h.target hcwd hfits
    refine ⟨_, by rw [exec, ShellState.resolvePath, hpath]; rfl, ?_⟩
    apply Leads.stay hcwd
    apply h.step (.remove path) trivial (fun _ hp => hp.elim)
    intro directory hne htaken
    exact ⟨hne, _, by rw [ShellState.takingOp, ShellState.resolvePath, hpath]; rfl, htaken⟩
  | cp source destination =>
    obtain ⟨src, hsrc, -⟩ := h.target hcwd hfits.1
    obtain ⟨dst, hdst, hwritable⟩ := h.target hcwd hfits.2
    refine ⟨_, by rw [exec, ShellState.resolvePath, ShellState.resolvePath, hsrc, hdst]; rfl, ?_⟩
    exact h.store hcwd hwritable _ hwritable.nulFree (fun _ hp => hp.1) fun _ => id
  | mv source destination =>
    obtain ⟨src, hsrc, -⟩ := h.target hcwd hfits.1
    obtain ⟨dst, hdst, hwritable⟩ := h.target hcwd hfits.2.1
    refine ⟨_, by rw [exec, ShellState.resolvePath, ShellState.resolvePath, hsrc, hdst]; rfl, ?_⟩
    apply Leads.stay hcwd
    apply h.step (.move src dst) ⟨hwritable.nulFree, hfits.2.2 src dst hsrc hdst⟩
      (fun p hp => hp.1 ▸ hwritable.single)
    intro directory hne htaken
    exact ⟨hne, _, by
      rw [ShellState.takingOp, ShellState.resolvePath, ShellState.resolvePath, hsrc, hdst]
      rfl, htaken⟩
  | up => exact ⟨_, rfl, .enter h (h.dir_parent hcwd)⟩
  | enter number =>
    rw [exec]
    cases hat : ShellState.entryAt ⟨fs, cwd⟩ number with
    | none => exact ⟨_, rfl, .stay hcwd (.refl h _)⟩
    | some entry =>
      obtain ⟨hmem, hcopy⟩ := h.entryAt hat
      dsimp only
      split
      · rename_i hdir
        rw [hcopy]
        exact ⟨_, rfl, .enter h (Or.inr ⟨entry, hmem, rfl, hdir⟩)⟩
      · exact ⟨_, rfl, .stay hcwd (.refl h _)⟩
  | del number =>
    rw [exec]
    cases hat : ShellState.entryAt ⟨fs, cwd⟩ number with
    | none => exact ⟨_, rfl, .stay hcwd (.refl h _)⟩
    | some entry =>
      refine ⟨_, rfl, .stay hcwd ?_⟩
      apply h.step (.remove entry.path) trivial (fun _ hp => hp.elim)
      intro directory hne htaken
      exact ⟨hne, _, by rw [ShellState.takingOp, hat]; rfl, htaken⟩
  | ren number name =>
    rw [exec]
    cases hat : ShellState.entryAt ⟨fs, cwd⟩ number with
    | none => exact ⟨_, rfl, .stay hcwd (.refl h _)⟩
    | some entry =>
      obtain ⟨hmem, hcopy⟩ := h.entryAt hat
      obtain ⟨dst, hdst, hmove⟩ := hfits entry hat
      dsimp only
      rw [hcopy, hdst]
      refine ⟨_, rfl, .stay hcwd ?_⟩
      apply h.step (.move entry.path dst)
        ⟨siblingPath_nulFree (path_nulFree entry) hdst, fun haccepted => (hmove haccepted).2⟩
      · intro p hp _
        obtain ⟨rfl, haccepted⟩ := hp
        exact (hmove haccepted).1
      · intro directory hne htaken
        exact ⟨hne, _, by rw [ShellState.takingOp, hat, Option.bind_some, hdst]; rfl, htaken⟩
  | copy number name =>
    rw [exec]
    cases hat : ShellState.entryAt ⟨fs, cwd⟩ number with
    | none => exact ⟨_, rfl, .stay hcwd (.refl h _)⟩
    | some entry =>
      obtain ⟨hmem, hcopy⟩ := h.entryAt hat
      obtain ⟨dst, hdst, hcopied⟩ := hfits entry hat
      dsimp only
      rw [hcopy, hdst]
      refine ⟨_, rfl, .stay hcwd ?_⟩
      apply h.step (.copy entry.path dst) (siblingPath_nulFree (path_nulFree entry) hdst)
      · intro p hp _
        obtain ⟨rfl, haccepted⟩ := hp
        exact hcopied haccepted
      · exact fun _ _ htaken => htaken.elim

/-- A command within its limits has an outcome and keeps the directories it does not take. -/
theorem consoleExec_keeps (h : FsRooted fs) (hcwd : DirPresent fs cwd)
    {command : ConsoleCommand} (hfits : CommandFits fs cwd command) :
    ∃ st', consoleExec ⟨fs, cwd⟩ command = some st' ∧
      Leads FsRooted DirPresent (CommandTakes fs cwd command) fs cwd (st'.fs, st'.cwd) := by
  cases command with
  | edit file session =>
    obtain ⟨path, hpath, hwritable⟩ := h.target hcwd hfits
    refine ⟨_, by rw [consoleExec, ShellState.resolvePath, hpath]; rfl, ?_⟩
    exact .stay hcwd (h.edit hwritable session _)
  | editEntry number session =>
    rw [consoleExec]
    cases hat : ShellState.entryAt ⟨fs, cwd⟩ number with
    | none => exact ⟨_, rfl, .stay hcwd (.refl h _)⟩
    | some entry =>
      exact ⟨_, rfl, .stay hcwd (h.edit (.of_mem (h.entryAt hat).1) session _)⟩
  | file command => exact exec_keeps h hcwd hfits

theorem console_respects : Respects FsRooted DirPresent console CommandFits CommandTakes := by
  constructor
  · intro fs directory h hdir
    rw [show console.copy directory = strcopyLimit directory fsPathMax from rfl,
      strcopyLimit_of_lt (h.dir_absolute hdir).fits]
    exact hdir
  · intro fs directory command h hdir hfits
    obtain ⟨st', hexec, hleads⟩ := consoleExec_keeps h hdir hfits
    refine ⟨(st'.fs, st'.cwd), ?_, hleads⟩
    rw [console_exec, hexec]
    rfl

end Steps

section Start

/-- The shell begins at the prompt in `/home`. -/
def consoleStart (fs : ArmFs) : Session ArmFs Bytes := ⟨fs, ascii "/home", none⟩

theorem consoleStart_staysPresent {fs : ArmFs} (h : FsRooted fs)
    (hhome : DirPresent fs (ascii "/home")) :
    StaysPresent DirPresent console CommandFits CommandTakes (consoleStart fs) :=
  Session.Working.staysPresent console_respects ⟨h, hhome⟩ hhome

theorem fsSeed_rooted (fs : ArmFs) : FsRooted (fsSeed fs) :=
  ⟨(fsSeed_tree fs).entries, (fsSeed_tree fs).tree.tableRooted⟩

theorem fsSeed_home (fs : ArmFs) : DirPresent (fsSeed fs) (ascii "/home") := by
  rw [dirPresent_iff, (fsSeed_nodes fs).1]
  right
  exact ⟨⟨ascii "/home", .dir, []⟩, by decide +kernel, rfl, rfl⟩

theorem consoleStart_mv (fs : ArmFs) {source destination : Word} {src dst : Bytes}
    (hsrc : resolvePathFrom (ascii "/home") source.bytes = some src)
    (hdst : resolvePathFrom (ascii "/home") destination.bytes = some dst) :
    Session.step console (consoleStart fs) (.command (.file (.mv source destination))) =
      some ⟨fsStep fs (.move src dst), ascii "/home", none⟩ := by
  have hexec : console.exec fs (ascii "/home") (.file (.mv source destination)) =
      some (fsStep fs (.move src dst), ascii "/home") := by
    rw [console_exec, consoleExec, exec, ShellState.resolvePath, ShellState.resolvePath, hsrc, hdst]
    rfl
  exact Session.step_command rfl hexec

theorem seedTable_move_home : OpFits seedTable (.move (ascii "/home") (ascii "/h")) ∧
    ∀ node ∈ tableStep seedTable (.move (ascii "/home") (ascii "/h")),
      node.path ≠ ascii "/home" := by
  decide +kernel

theorem move_home_gone (fs : ArmFs) :
    ¬ DirPresent (fsStep (fsSeed fs) (.move (ascii "/home") (ascii "/h"))) (ascii "/home") := by
  obtain ⟨hseed, hok⟩ := fsSeed_nodes fs
  obtain ⟨hfits, hgone⟩ := seedTable_move_home
  have hcall := fsCall_refines hok (hseed.symm ▸ hfits)
  rw [dirPresent_iff, fsStep, hcall.nodes, hseed]
  intro hpresent
  obtain ⟨node, hnode, hpath, -⟩ := hpresent.resolve_left (by decide)
  exact hgone node hnode hpath

/-- `mv /home /h` leaves the shell in a directory that is gone. -/
theorem consoleStart_mv_home (fs : ArmFs) : ∃ t, Session.step console (consoleStart (fsSeed fs))
    (.command (.file (.mv ⟨ascii "/home", by decide⟩ ⟨ascii "/h", by decide⟩))) = some t ∧
      ¬ DirPresent t.files t.current := by
  have hsource : resolvePathFrom (ascii "/home") (ascii "/home") = some (ascii "/home") := by decide
  have hdest : resolvePathFrom (ascii "/home") (ascii "/h") = some (ascii "/h") := by decide
  refine ⟨_, consoleStart_mv _ hsource hdest, ?_⟩
  dsimp only
  exact move_home_gone fs

end Start

end SnsxOS.Arm64
