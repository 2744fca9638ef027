import SnsxOS.X86.Shell
import SnsxOS.Framework.Session

/-!
# The x86 shell, its file manager and their directories

Commands of the shell give words, commands of the file manager numbers of the views that `fs_list`
hands out. What the file manager enters, removes or renames is the path that a view shows, whether
or not the view is that of the slot it is stored in. The table itself stays a tree under every call.
-/

namespace SnsxOS.X86

open Framework

def fileManagerViewMax : Nat := 32

def newline : UInt8 := 10

inductive Command where
  | cd (dir : Bytes)
  | touch (file : Bytes)
  | mkdir (dir : Bytes)
  | rm (path : Bytes)
  | cp (source destination : Bytes)
  | mv (source destination : Bytes)
  /-- the lines typed into the editor -/
  | edit (file : Bytes) (session : List Bytes)
  | new (file : Bytes) (session : List Bytes)
  | up
  /-- `cd` and `open` of a directory -/
  | enter (number : Nat)
  | editEntry (number : Nat) (session : List Bytes)
  | del (number : Nat)
  | ren (number : Nat) (name : Bytes)
  | copy (number : Nat) (name : Bytes)

namespace Command

/-- The commands that the shell reads, and those that the open file manager reads. -/
def reads : Bool → Command → Bool
  | false, .cd _ | false, .touch _ | false, .mkdir _ | false, .rm _ | false, .cp _ _
  | false, .mv _ _ | false, .edit _ _ => true
  | true, .mkdir _ | true, .new _ _ | true, .up | true, .enter _ | true, .editEntry _ _
  | true, .del _ | true, .ren _ _ | true, .copy _ _ => true
  | _, _ => false

end Command

/-- The loop of `app_text_editor` with the text in its buffer and the lines still to be typed. -/
def textEditorLoop (st : FsState) (path : Bytes) : Bytes → List Bytes → FsState
  | _, [] => st
  | text, line :: lines =>
      if line = ascii ".help" then textEditorLoop st path text lines
      else if line = ascii ".quit" then st
      else if line = ascii ".clear" then textEditorLoop st path [] lines
      else if line = ascii ".show" then textEditorLoop st path text lines
      else if line = ascii ".save" then
        match fsWriteFile st path text fsTypeText with
        | (true, st') => st'
        | (false, st') => textEditorLoop st' path text lines
      else if fsMaxEntrySize ≤ text.length + line.length + 1 then textEditorLoop st path text lines
      else textEditorLoop st path (text ++ line ++ [newline]) lines

/-- `app_text_editor`; there is no outcome when a null pointer is followed. -/
def appTextEditor (st : FsState) (path : Bytes) (session : List Bytes) : Option FsState :=
  match fsFind st path with
  | none => some (textEditorLoop st path [] session)
  | some slot => (readEntry st slot).map fun entry =>
      if entry.type = fsTypeDir ∨ entry.type = fsTypeProgram ∨ fsMaxEntrySize < entry.size then st
      else textEditorLoop st path entry.data session

def shellParentDirectory (path : Bytes) : Bytes := parentOf slash path

/-- `shell_entry_absolute_path` of the view in a slot. -/
def shellEntryAbsolutePath (st : FsState) (slot : Nat) : Option Bytes :=
  (st.nodeAt slot).entry.name.map fun nameSlot =>
    slash :: strcopyLimit (st.nodeAt nameSlot).name (fsPathMax - 1)

/-- The buffer `destination_path` of `ren` and `copy`; a name that does not fit is left out. -/
def shellSiblingPath (source name : Bytes) : Bytes :=
  let parent := shellParentDirectory source
  if parent = [slash] then
    if name.length + 2 < fsPathMax then slash :: name else [slash]
  else if parent.length + name.length + 2 < fsPathMax then parent ++ slash :: name
  else parent

namespace ShellState

def call (st : ShellState) (op : FsOp) : ShellState := { st with table := fsStep st.table op }

/-- The slot of the list that a number on the command line stands for. -/
def entryAt (st : ShellState) (number : Nat) : Option Nat :=
  if number = 0 then none
  else (fsList st.table st.currentDirectory fileManagerViewMax)[number - 1]?

end ShellState

/-- A command on the path shown behind a number, which is ignored where there is no such number. -/
def onShown (st : ShellState) (number : Nat) (f : Bytes → Option ShellState) : Option ShellState :=
  match st.entryAt number with
  | none => some st
  | some slot => (shellEntryAbsolutePath st.table slot).bind f

def exec (st : ShellState) : Command → Option ShellState
  | .cd dir => some (commandCd st dir).2
  | .touch file => some (st.call (.writeFile (st.resolvePath file) [] fsTypeText))
  | .mkdir dir => some (st.call (.mkdir (st.resolvePath dir)))
  | .rm path => some (st.call (.remove (st.resolvePath path)))
  | .cp source destination =>
      some (st.call (.copy (st.resolvePath source) (st.resolvePath destination)))
  | .mv source destination =>
      some (st.call (.move (st.resolvePath source) (st.resolvePath destination)))
  | .edit file session => (appTextEditor st.table (st.resolvePath file) session).map fun table =>
      { st with table := table }
  | .new file session => match fsWriteFile st.table (st.resolvePath file) [] fsTypeText with
      | (false, table) => some { st with table := table }
      | (true, table) => (appTextEditor table (st.resolvePath file) session).map fun table =>
          { st with table := table }
  | .up => some { st with currentDirectory := shellParentDirectory st.currentDirectory }
  | .enter number => match st.entryAt number with
      | none => some st
      | some slot =>
          if (st.table.nodeAt slot).entry.type = fsTypeDir then
            (shellEntryAbsolutePath st.table slot).map fun path =>
              { st with currentDirectory := strcopyLimit path fsPathMax }
          else some st
  | .editEntry number session => onShown st number fun path =>
      (appTextEditor st.table path session).map fun table => { st with table := table }
  | .del number => onShown st number fun path => some (st.call (.remove path))
  | .ren number name => onShown st number fun source =>
      some (st.call (.move source (shellSiblingPath source name)))
  | .copy number name => onShown st number fun source =>
      some (st.call (.copy source (shellSiblingPath source name)))

def console : Interpreter FsState Bytes Command where
  copy directory := strcopyLimit directory fsPathMax
  reads := Command.reads
  exec table directory command :=
    (exec ⟨table, directory⟩ command).map fun st => (st.table, st.currentDirectory)

theorem console_exec (st : FsState) (directory : Bytes) (command : Command) :
    console.exec st directory command =
      (exec ⟨st, directory⟩ command).map fun st => (st.table, st.currentDirectory) := rfl

/-- The root, or the path of a directory node. -/
def DirPresent (st : FsState) (directory : Bytes) : Prop :=
  directory = [slash] ∨ ∃ node ∈ st.used, directory = slash :: node.name ∧ node.type = fsTypeDir

/-- The call takes the directory away: it removes it while nothing lies below it, or it moves a
subtree that the directory belongs to. -/
def OpTakes (st : FsState) (p : Bytes) : FsOp → Prop
  | .remove path => fsNormalizePath path = some p ∧ fsHasChildren st p = false
  | .move source destination => ∃ s d, fsNormalizePath source = some s ∧
      fsNormalizePath destination = some d ∧ s ≠ [] ∧ d ≠ [] ∧ InSubtree slash s p ∧
      Movable st.used s d
  | _ => False

/-- The removal or rename that a command asks for. -/
def ShellState.takingOp (st : ShellState) : Command → Option FsOp
  | .rm path => some (.remove (st.resolvePath path))
  | .mv source destination => some (.move (st.resolvePath source) (st.resolvePath destination))
  | .del number => ((st.entryAt number).bind (shellEntryAbsolutePath st.table)).map .remove
  | .ren number name => ((st.entryAt number).bind (shellEntryAbsolutePath st.table)).map
      fun source => .move source (shellSiblingPath source name)
  | _ => none

/-- The command removes the directory, or renames it or a directory above it. -/
def CommandTakes (table : FsState) (cwd : Bytes) (command : Command) (directory : Bytes) : Prop :=
  directory ≠ [slash] ∧ ∃ op, ShellState.takingOp ⟨table, cwd⟩ command = some op ∧
    OpTakes table directory.tail op

/-- A directory is entered through a view of its own slot, and its name leaves room for a slash. -/
def CommandShows (table : FsState) (cwd : Bytes) : Command → Prop
  | .enter number => ∀ slot, ShellState.entryAt ⟨table, cwd⟩ number = some slot →
      (table.nodeAt slot).entry.type = fsTypeDir →
      (table.nodeAt slot).entry.name = some slot ∧
        (table.nodeAt slot).name.length + 1 < fsPathMax
  | _ => True

/-- The node has a name, and its view shows its type and designates a name and data. -/
structure Viewed (node : FsNode) : Prop extends Labelled node where
  name : node.entry.name.isSome
  data : node.entry.data.isSome

/-- A tree whose views can be followed. -/
structure FsOk (st : FsState) : Prop where
  tree : FsTree st.used
  viewed : EveryNode Viewed st

section Directories

variable {st : FsState} {directory p : Bytes}

theorem not_commandTakes {cwd : Bytes} {command : Command}
    (h : ShellState.takingOp ⟨st, cwd⟩ command = none) :
    ¬ CommandTakes st cwd command directory := by
  intro htakes
  obtain ⟨-, op, hop, -⟩ := htakes
  rw [h] at hop
  cases hop

theorem givenBySync_viewed : GivenBySync Viewed :=
  ⟨fun slot node h => ⟨labelled_sync slot node h, rfl, rfl⟩, fun _ h => h.named⟩

theorem fsInit_ok (boot : Multiboot) (start : FsState)
    (htree : FsTree (fsInit boot start).table.used) : FsOk (fsInit boot start).table :=
  ⟨htree, fsInit_every givenBySync_viewed boot start⟩

theorem FsOk.labelled (h : FsOk st) : LabelledTable st :=
  fun node hn => (h.viewed node hn).toLabelled

theorem FsOk.step (h : FsOk st) (op : FsOp) : FsOk (fsStep st op) :=
  ⟨fsStep_tree st op h.tree, fsStep_every givenBySync_viewed st op h.viewed⟩

theorem dirPresent_iff (h : FsTree st.used) : DirPresent st directory ↔
    directory = [slash] ∨ ∃ p, directory = slash :: p ∧ (contents st.used).IsDir p := by
  rw [DirPresent]
  apply or_congr_right
  constructor
  · intro hdir
    obtain ⟨node, hn, hname, htype⟩ := hdir
    exact ⟨_, hname, (contents_isDir h).mpr ⟨node, hn, rfl, htype⟩⟩
  · intro hdir
    obtain ⟨p, hp, hdir⟩ := hdir
    obtain ⟨node, hn, rfl, htype⟩ := (contents_isDir h).mp hdir
    exact ⟨node, hn, hp, htype⟩

section Maps

variable {m : FileMap}

theorem FileMap.IsDir.update (hdir : m.IsDir p) {q : Bytes} (hne : p ≠ q)
    (content : Option (UInt32 × Bytes)) : FileMap.IsDir (Function.update m q content) p := by
  obtain ⟨bytes, hp⟩ := hdir
  exact ⟨bytes, by rw [Function.update_of_ne hne, hp]⟩

/-- A path under which no directory is found is another one. -/
theorem FileMap.IsDir.ne (hdir : m.IsDir p) {q : Bytes}
    (hfile : ∀ content, m q = some content → content.1 ≠ fsTypeDir) : p ≠ q := by
  obtain ⟨bytes, hp⟩ := hdir
  intro he
  subst he
  exact hfile _ hp rfl

theorem FileMap.IsDir.ne_of_none (hdir : m.IsDir p) {q : Bytes} (hq : m q = none) : p ≠ q :=
  hdir.ne fun other hother => by simp [hq] at hother

theorem FileMap.IsDir.ne_of_some (hdir : m.IsDir p) {q : Bytes} {content : UInt32 × Bytes}
    (hq : m q = some content) (hfile : content.1 ≠ fsTypeDir) : p ≠ q := by
  apply hdir.ne
  intro other hother
  obtain rfl := Option.some.inj (hq.symm.trans hother)
  exact hfile

theorem FileMap.IsDir.mkdir (hdir : m.IsDir p) (q : Bytes) : (m.mkdir q).2.IsDir p := by
  rw [FileMap.mkdir]
  split
  · exact hdir
  · rename_i hnone
    split
    · exact hdir.update (hdir.ne_of_none hnone) _
    · exact hdir

theorem FileMap.IsDir.writeFile (hdir : m.IsDir p) (q data : Bytes) (type : UInt32) :
    (m.writeFile q data type).2.IsDir p := by
  rw [FileMap.writeFile]
  split
  · exact hdir
  · split
    · rename_i content hq
      split
      · exact hdir
      · rename_i hfile
        exact hdir.update (hdir.ne_of_some hq hfile) _
    · rename_i hq
      split
      · exact hdir.update (hdir.ne_of_none hq) _
      · exact hdir

theorem FileMap.IsDir.appendFile (hdir : m.IsDir p) (q data : Bytes) :
    (m.appendFile q data).2.IsDir p := by
  rw [FileMap.appendFile]
  split
  · exact hdir.writeFile q data fsTypeText
  · rename_i content hq
    split
    · rename_i htext
      have hfile : content.1 ≠ fsTypeDir := by
        rw [htext.1]
        decide
      exact hdir.update (hdir.ne_of_some hq hfile) _
    · exact hdir

theorem FileMap.IsDir.copy (hdir : m.IsDir p) (source destination : Bytes) :
    (m.copy source destination).2.IsDir p := by
  rw [FileMap.copy]
  split
  · exact hdir
  · split
    · exact hdir
    · exact hdir.writeFile destination _ _

/-- What has something below it is not removed. -/
theorem FileMap.IsDir.remove (hdir : m.IsDir p) {q : Bytes}
    (hbusy : q = p → ∃ below, m below ≠ none ∧ Below slash p below) : (m.remove q).2.IsDir p := by
  rw [FileMap.remove]
  split
  · exact hdir
  · rename_i content hcontent
    split
    · exact hdir
    · rename_i hfree
      refine hdir.update ?_ _
      rintro rfl
      obtain ⟨bytes, hbytes⟩ := hdir
      rw [hbytes, Option.some.injEq] at hcontent
      exact hfree ⟨by rw [← hcontent], hbusy rfl⟩

/-- A move changes what lies at and below its two paths. -/
theorem FileMap.IsDir.move (hdir : m.IsDir p) {source destination : Bytes}
    (houtside : (m.move source destination).1 = true →
      ¬ InSubtree slash source p ∧ ¬ InSubtree slash destination p) :
    (m.move source destination).2.IsDir p := by
  rw [FileMap.move] at houtside ⊢
  split
  · rename_i hmoves
    obtain ⟨hsource, hdestination⟩ := houtside (by rw [if_pos hmoves])
    obtain ⟨bytes, hbytes⟩ := hdir
    refine ⟨bytes, ?_⟩
    dsimp only
    rw [FileMap.renamed, if_neg hdestination, if_neg hsource, hbytes]
  · exact hdir

theorem FileMap.IsDir.onPath (hdir : m.IsDir p) {path : Bytes} {f : Bytes → Bool × FileMap}
    (hf : ∀ q, fsNormalizePath path = some q → q ≠ [] → (f q).2.IsDir p) :
    (m.onPath path f).2.IsDir p := by
  rw [FileMap.onPath]
  cases hnorm : fsNormalizePath path with
  | none => exact hdir
  | some q =>
    dsimp only
    split
    · exact hdir
    · rename_i hq
      exact hf q hnorm hq

end Maps

/-- A directory that the call does not take away stays. -/
theorem fsStep_isDir (h : FsTree st.used) (hdir : (contents st.used).IsDir p) (op : FsOp)
    (hkept : ¬ OpTakes st p op) : (contents (fsStep st op).used).IsDir p := by
  have hcall := congrArg Prod.snd (fsCall_refines h op)
  dsimp only at hcall
  rw [← hcall]
  obtain ⟨node, hn, hname, -⟩ := (contents_isDir h).mp hdir
  cases op with
  | mkdir path => exact hdir.onPath fun q _ _ => hdir.mkdir q
  | writeFile path data type => exact hdir.onPath fun q _ _ => hdir.writeFile q data type
  | appendFile path data => exact hdir.onPath fun q _ _ => hdir.appendFile q data
  | remove path =>
    apply hdir.onPath
    intro q hnorm hq
    apply hdir.remove
    rintro rfl
    by_contra hfree
    apply hkept
    refine ⟨hnorm, ?_⟩
    rw [← Bool.not_eq_true, fsHasChildren_iff hq]
    intro hchildren
    obtain ⟨child, hchild, hbelow⟩ := hchildren
    exact hfree ⟨child.name, contents_ne_none.mpr ⟨child, hchild, rfl⟩, hbelow⟩
  | copy source destination =>
    exact hdir.onPath fun s _ _ => hdir.onPath fun d _ _ => hdir.copy s d
  | move source destination =>
    apply hdir.onPath
    intro s hs hsne
    apply hdir.onPath
    intro d hd hdne
    apply hdir.move
    intro hmoves
    have hmovable := (contents_move_iff h hsne).mp hmoves
    constructor
    · exact fun hin => hkept ⟨s, d, hs, hd, hsne, hdne, hin, hmovable⟩
    · intro hin
      refine h.not_inSubtree hdne ?_ node hn (hname.symm ▸ hin)
      intro hmem
      obtain ⟨other, ho, he⟩ := List.mem_map.mp hmem
      exact hmovable.absent other ho he

end Directories

/-- A present directory that a path buffer of the shell can hold. -/
structure DirHeld (st : FsState) (directory : Bytes) : Prop where
  present : DirPresent st directory
  fits : directory.length < fsPathMax

section Steps

variable {st st' : FsState} {cwd : Bytes} {takes : Bytes → Prop}

theorem DirHeld.root (st : FsState) : DirHeld st [slash] := ⟨Or.inl rfl, by decide⟩

theorem DirHeld.absolute (h : DirHeld st cwd) : cwd.head? = some slash := by
  rcases h.present with rfl | hdir
  · rfl
  · obtain ⟨node, -, rfl, -⟩ := hdir
    rfl

theorem DirHeld.copy (h : DirHeld st cwd) : strcopyLimit cwd fsPathMax = cwd :=
  strcopyLimit_of_lt h.fits

/-- A call takes away the directories it names and no other. -/
theorem FsOk.kept (h : FsOk st) (op : FsOp) (htakes : ∀ directory, directory ≠ [slash] →
    OpTakes st directory.tail op → takes directory) :
    Kept FsOk DirHeld takes st (fsStep st op) := by
  refine ⟨h.step op, fun directory hdir hkept => ⟨?_, hdir.fits⟩⟩
  have hpresent := (dirPresent_iff h.tree).mp hdir.present
  rw [dirPresent_iff (h.step op).tree]
  by_cases hroot : directory = [slash]
  · exact Or.inl hroot
  · obtain ⟨p, rfl, hp⟩ := hpresent.resolve_left hroot
    right
    exact ⟨p, rfl, fsStep_isDir h.tree hp op fun htaken => hkept (htakes _ hroot htaken)⟩

theorem FsOk.written (h : FsOk st) (path data : Bytes) (type : UInt32) (takes : Bytes → Prop) :
    Kept FsOk DirHeld takes st (fsStep st (.writeFile path data type)) :=
  h.kept _ fun _ _ htaken => htaken.elim

/-- The editor saves at most once. -/
theorem textEditorLoop_cases (st : FsState) (path text : Bytes) (session : List Bytes) :
    textEditorLoop st path text session = st ∨ ∃ data,
      textEditorLoop st path text session = fsStep st (.writeFile path data fsTypeText) := by
  induction session generalizing text with
  | nil => exact Or.inl rfl
  | cons line lines ih =>
    rw [textEditorLoop]
    split
    · exact ih text
    · split
      · exact Or.inl rfl
      · split
        · exact ih []
        · split
          · exact ih text
          · split
            · have hrefused : (fsWriteFile st path text fsTypeText).1 = false →
                  (fsWriteFile st path text fsTypeText).2 = st := by
                intro hfalse
                rw [fsWriteFile] at hfalse ⊢
                grind
              split
              · rename_i st' hwrite
                exact Or.inr ⟨text, by rw [fsStep, fsCall, hwrite]⟩
              · rename_i st' hwrite
                rw [hwrite] at hrefused
                rw [show st' = st from hrefused rfl]
                exact ih text
            · split
              · exact ih text
              · exact ih _

theorem FsOk.readEntry (h : FsOk st) {slot : Nat} (hs : slot < st.count) :
    ∃ entry, readEntry st slot = some entry := by
  have hslot : slot < st.used.length := by simpa using hs
  have hviewed := h.viewed _ (List.getElem_mem hslot)
  obtain ⟨nameSlot, hname⟩ := Option.isSome_iff_exists.mp hviewed.name
  obtain ⟨dataSlot, hdata⟩ := Option.isSome_iff_exists.mp hviewed.data
  rw [X86.readEntry, nodeAt_used hslot, hname, hdata]
  exact ⟨_, rfl⟩

theorem FsOk.edit (h : FsOk st) (path : Bytes) (session : List Bytes) (takes : Bytes → Prop) :
    ∃ st', appTextEditor st path session = some st' ∧ Kept FsOk DirHeld takes st st' := by
  have hloop : ∀ text, Kept FsOk DirHeld takes st (textEditorLoop st path text session) := by
    intro text
    rcases textEditorLoop_cases st path text session with hsame | hsaved
    · rw [hsame]
      exact .refl h takes
    · obtain ⟨data, hsaved⟩ := hsaved
      rw [hsaved]
      exact h.written path data _ takes
  rw [appTextEditor]
  cases hfind : fsFind st path with
  | none => exact ⟨_, rfl, hloop []⟩
  | some slot =>
    have hs : slot < st.count := by
      rw [fsFind] at hfind
      cases hnorm : fsNormalizePath path with
      | none => simp [hnorm] at hfind
      | some p =>
        rw [hnorm] at hfind
        simpa using (fsFindNodeNormalized_some hfind).1
    obtain ⟨entry, hentry⟩ := h.readEntry hs
    dsimp only
    rw [hentry, Option.map_some]
    refine ⟨_, rfl, ?_⟩
    split
    · exact .refl h takes
    · exact hloop _

/-- The parent of a directory is the root or a directory. -/
theorem FsOk.parent (h : FsOk st) (hcwd : DirHeld st cwd) :
    DirHeld st (shellParentDirectory cwd) := by
  rcases hcwd.present with rfl | hdir
  · exact .root st
  · obtain ⟨node, hn, rfl, -⟩ := hdir
    have hnormal := h.tree.normal node hn
    obtain ⟨a, b, hsplit, -, hb⟩ : ∃ a b, slash :: node.name = a ++ slash :: b ∧
        a.length = ((lastIndex? slash (slash :: node.name)).getD 0) ∧ slash ∉ b := by
      cases hlast : lastIndex? slash (slash :: node.name) with
      | none => exact absurd (lastIndex?_eq_none.mp hlast) (by simp)
      | some i => exact lastIndex?_eq_some hlast
    have hne : slash :: node.name ≠ [slash] := by simp [hnormal.ne_nil]
    have hfits := hcwd.fits
    rw [hsplit] at hne hfits
    rw [shellParentDirectory, hsplit, parentOf_append hb hne]
    cases a with
    | nil => exact .root st
    | cons c a =>
      obtain ⟨rfl, hname⟩ := List.cons.inj hsplit
      have ha : a ≠ [] := by
        rintro rfl
        exact hnormal.head_ne (by rw [hname]; rfl)
      obtain ⟨d, hd, rfl, hdir⟩ := h.tree.rooted node hn a ha ⟨b, hname⟩
      rw [if_neg (by simp)]
      refine ⟨Or.inr ⟨d, hd, rfl, hdir⟩, ?_⟩
      rw [List.length_append] at hfits
      omega

/-- What `fs_is_dir` accepts of a resolved word is the path of a directory. -/
theorem FsOk.resolved (h : FsOk st) (hcwd : DirHeld st cwd) (input : Bytes)
    (hdir : fsIsDir st (shellResolvePathFrom cwd input) = true) :
    DirHeld st (shellResolvePathFrom cwd input) := by
  by_cases hne : input = []
  · rw [shellResolvePathFrom, if_pos hne, hcwd.copy]
    exact hcwd
  · obtain ⟨habs, hfit⟩ := shellResolveRaw_absolute hcwd.absolute input
    rw [shellResolvePathFrom_eq hcwd.absolute hne] at hdir ⊢
    generalize hraw : shellResolveRaw cwd input = raw at *
    have hproper := proper_cappedNames slash dot maxComponents raw
    refine ⟨?_, lt_of_le_of_lt (length_cappedPath_le maxComponents habs) hfit⟩
    obtain ⟨p, hnorm, node, hfind, htype⟩ := (fsIsDir_iff h.labelled).mp hdir
    obtain ⟨hn, rfl⟩ := mem_of_lookup hfind
    right
    refine ⟨node, hn, ?_, htype⟩
    rw [fsNormalizePath_eq] at hnorm
    split at hnorm
    · rw [← Option.some.inj hnorm, normalForm, pathNames_of_proper hproper]
    · cases hnorm

theorem entryAt_lt {number slot : Nat}
    (hat : ShellState.entryAt ⟨st, cwd⟩ number = some slot) : slot < st.used.length := by
  rw [ShellState.entryAt] at hat
  split at hat
  · cases hat
  · obtain ⟨-, hs, -⟩ := mem_fsList (List.mem_of_getElem? hat)
    exact hs

/-- A command on a shown path keeps directories when it does so on every path. -/
theorem FsOk.onShown (h : FsOk st) (hcwd : DirHeld st cwd) {number : Nat}
    {f : Bytes → Option ShellState} (hf : ∀ path,
      ((ShellState.entryAt ⟨st, cwd⟩ number).bind (shellEntryAbsolutePath st)) = some path →
        ∃ st', f path = some ⟨st', cwd⟩ ∧ Kept FsOk DirHeld takes st st') :
    ∃ result, onShown ⟨st, cwd⟩ number f = some result ∧
      Leads FsOk DirHeld takes st cwd (result.table, result.currentDirectory) := by
  rw [X86.onShown]
  cases hat : ShellState.entryAt ⟨st, cwd⟩ number with
  | none => exact ⟨_, rfl, .stay hcwd (.refl h takes)⟩
  | some slot =>
    have hs := entryAt_lt hat
    obtain ⟨nameSlot, hname⟩ := Option.isSome_iff_exists.mp (h.viewed _ (List.getElem_mem hs)).name
    have hpath : shellEntryAbsolutePath st slot =
        some (slash :: strcopyLimit (st.nodeAt nameSlot).name (fsPathMax - 1)) := by
      rw [shellEntryAbsolutePath, nodeAt_used hs, hname, Option.map_some]
    dsimp only
    rw [hpath, Option.bind_some]
    obtain ⟨st', hf', hkept⟩ := hf _ (by rw [hat, Option.bind_some, hpath])
    exact ⟨_, hf', .stay hcwd hkept⟩

/-- A command has an outcome and keeps the directories it does not take. -/
theorem exec_keeps (h : FsOk st) (hcwd : DirHeld st cwd) {command : Command}
    (hshows : CommandShows st cwd command) :
    ∃ result, exec ⟨st, cwd⟩ command = some result ∧
      Leads FsOk DirHeld (CommandTakes st cwd command) st cwd
        (result.table, result.currentDirectory) := by
  have hcall : ∀ op, (∀ directory, directory ≠ [slash] → OpTakes st directory.tail op →
      CommandTakes st cwd command directory) →
        Leads FsOk DirHeld (CommandTakes st cwd command) st cwd (fsStep st op, cwd) :=
    fun op htakes => .stay hcwd (h.kept op htakes)
  cases command with
  | cd dir =>
    refine ⟨_, rfl, ?_⟩
    rw [commandCd]
    cases hdir : fsIsDir st (shellResolvePathFrom cwd dir) with
    | false =>
      simp only [ShellState.resolvePath, hdir]
      exact .stay hcwd (.refl h _)
    | true =>
      have hentered := h.resolved hcwd dir hdir
      simp only [ShellState.resolvePath, hdir, if_true, hentered.copy]
      exact .enter h hentered
  | touch file => exact ⟨_, rfl, .stay hcwd (h.written _ _ _ _)⟩
  | mkdir dir => exact ⟨_, rfl, hcall (.mkdir _) fun _ _ htaken => htaken.elim⟩
  | rm path => exact ⟨_, rfl, hcall (.remove _) fun _ hne htaken => ⟨hne, _, rfl, htaken⟩⟩
  | cp source destination => exact ⟨_, rfl, hcall (.copy _ _) fun _ _ htaken => htaken.elim⟩
  | mv source destination =>
    exact ⟨_, rfl, hcall (.move _ _) fun _ hne htaken => ⟨hne, _, rfl, htaken⟩⟩
  | edit file session =>
    obtain ⟨st', hedit, hkept⟩ := h.edit (shellResolvePathFrom cwd file) session
      (CommandTakes st cwd (.edit file session))
    refine ⟨⟨st', cwd⟩, ?_, .stay hcwd hkept⟩
    rw [exec, ShellState.resolvePath, hedit, Option.map_some]
  | new file session =>
    have hwritten := h.written (shellResolvePathFrom cwd file) [] fsTypeText
      (CommandTakes st cwd (.new file session))
    have hstep : fsStep st (.writeFile (shellResolvePathFrom cwd file) [] fsTypeText) =
        (fsWriteFile st (shellResolvePathFrom cwd file) [] fsTypeText).2 := rfl
    rw [exec, ShellState.resolvePath]
    rcases hwrite : fsWriteFile st (shellResolvePathFrom cwd file) [] fsTypeText with ⟨ok, table⟩
    rw [hwrite] at hstep
    rw [hstep] at hwritten
    cases ok with
    | false => exact ⟨_, rfl, .stay hcwd hwritten⟩
    | true =>
      obtain ⟨st', hedit, hkept⟩ := hwritten.ok.edit (shellResolvePathFrom cwd file) session
        (CommandTakes st cwd (.new file session))
      refine ⟨⟨st', cwd⟩, ?_, .stay hcwd (hwritten.trans hkept)⟩
      dsimp only
      rw [hedit, Option.map_some]
  | up => exact ⟨_, rfl, .enter h (h.parent hcwd)⟩
  | enter number =>
    rw [exec]
    cases hat : ShellState.entryAt ⟨st, cwd⟩ number with
    | none => exact ⟨_, rfl, .stay hcwd (.refl h _)⟩
    | some slot =>
      dsimp only
      split
      · rename_i htype
        obtain ⟨hname, hroom⟩ := hshows slot hat htype
        have hslot := entryAt_lt hat
        have hviewed := h.viewed _ (List.getElem_mem hslot)
        rw [nodeAt_used hslot] at hname hroom htype
        rw [hviewed.shown] at htype
        have hcut : strcopyLimit st.used[slot].name (fsPathMax - 1) = st.used[slot].name :=
          strcopyLimit_of_lt (by omega)
        have hheld : DirHeld st (slash :: st.used[slot].name) :=
          ⟨Or.inr ⟨_, List.getElem_mem hslot, rfl, htype⟩, by simpa using hroom⟩
        rw [shellEntryAbsolutePath, nodeAt_used hslot, hname, Option.map_some, Option.map_some,
          nodeAt_used hslot, hcut, hheld.copy]
        exact ⟨_, rfl, .enter h hheld⟩
      · exact ⟨_, rfl, .stay hcwd (.refl h _)⟩
  | editEntry number session =>
    apply h.onShown hcwd
    intro path _
    obtain ⟨st', hedit, hkept⟩ :=
      h.edit path session (CommandTakes st cwd (.editEntry number session))
    exact ⟨st', by rw [hedit, Option.map_some], hkept⟩
  | del number =>
    apply h.onShown hcwd
    intro path hpath
    refine ⟨_, rfl, h.kept (.remove path) fun _ hne htaken => ⟨hne, _, ?_, htaken⟩⟩
    rw [ShellState.takingOp, hpath, Option.map_some]
  | ren number name =>
    apply h.onShown hcwd
    intro source hpath
    refine ⟨_, rfl, h.kept (.move source _) fun _ hne htaken => ⟨hne, _, ?_, htaken⟩⟩
    rw [ShellState.takingOp, hpath, Option.map_some]
  | copy number name =>
    apply h.onShown hcwd
    intro source _
    exact ⟨_, rfl, h.kept (.copy source _) fun _ _ htaken => htaken.elim⟩

theorem console_respects : Respects FsOk DirHeld console CommandShows CommandTakes := by
  constructor
  · intro st directory h hdir
    rw [show console.copy directory = strcopyLimit directory fsPathMax from rfl, hdir.copy]
    exact hdir
  · intro st directory command h hdir hshows
    obtain ⟨result, hexec, hleads⟩ := exec_keeps h hdir hshows
    refine ⟨(result.table, result.currentDirectory), ?_, hleads⟩
    rw [console_exec, hexec]
    rfl

end Steps

section Start

/-- The shell starts in `/home`, or at the root when there is no such directory. -/
def consoleStart (table : FsState) : Session FsState Bytes :=
  ⟨table, if fsIsDir table (ascii "/home") then ascii "/home" else [slash], none⟩

theorem consoleStart_held {st : FsState} (h : FsOk st) : DirHeld st (consoleStart st).current := by
  rw [consoleStart]
  split
  · rename_i hdir
    exact h.resolved (.root st) (ascii "/home") hdir
  · exact .root st

theorem consoleStart_staysPresent {st : FsState} (h : FsOk st) :
    StaysPresent DirPresent console CommandShows CommandTakes (consoleStart st) := by
  have hstart := consoleStart_held h
  have hworking : (consoleStart st).Working FsOk DirHeld := ⟨h, hstart⟩
  exact (hworking.staysPresent console_respects hstart).mono fun _ _ hdir => hdir.present

/-- A machine booted without a module has the built-in table. -/
theorem fsInit_plainBoot : (fsInit plainBoot zeroTable).table = fsUseBuiltin zeroTable.emptied := by
  have hmodule : ¬ plainBoot.HasModule := by decide
  have hempty : ¬ 0 < zeroTable.emptied.count := by simp [FsState.emptied]
  rw [fsInit]
  simp only [if_neg hmodule, if_neg hempty]

theorem fsInit_plainBoot_tree : FsTree (fsInit plainBoot zeroTable).table.used := by
  rw [fsInit_plainBoot]
  exact fsUseBuiltin_tree _

theorem builtin_move_home : fsIsDir (fsUseBuiltin zeroTable.emptied) (ascii "/home") = true ∧
    ∀ node ∈ (fsStep (fsUseBuiltin zeroTable.emptied)
      (.move (ascii "/home") (ascii "/h"))).used, ascii "/home" ≠ slash :: node.name := by
  decide +kernel

theorem move_home_gone : ¬ DirPresent (fsStep (fsUseBuiltin zeroTable.emptied)
    (.move (ascii "/home") (ascii "/h"))) (ascii "/home") := by
  intro hpresent
  obtain ⟨node, hnode, hpath, -⟩ := hpresent.resolve_left (by decide)
  exact builtin_move_home.2 node hnode hpath

/-- `mv /home /h` leaves the shell in a directory that is gone. -/
theorem consoleStart_mv_home : ∃ t,
    Session.step console (consoleStart (fsInit plainBoot zeroTable).table)
      (.command (.mv (ascii "/home") (ascii "/h"))) = some t ∧ ¬ DirPresent t.files t.current := by
  have hsource : shellResolvePathFrom (ascii "/home") (ascii "/home") = ascii "/home" := by decide
  have hdest : shellResolvePathFrom (ascii "/home") (ascii "/h") = ascii "/h" := by decide
  have hexec : console.exec (fsUseBuiltin zeroTable.emptied) (ascii "/home")
      (.mv (ascii "/home") (ascii "/h")) = some (fsStep (fsUseBuiltin zeroTable.emptied)
        (.move (ascii "/home") (ascii "/h")), ascii "/home") := by
    rw [console_exec, exec, ShellState.resolvePath, ShellState.resolvePath, hsource, hdest,
      Option.map_some, ShellState.call]
  rw [fsInit_plainBoot, consoleStart, builtin_move_home.1]
  refine ⟨_, Session.step_command rfl hexec, ?_⟩
  dsimp only
  exact move_home_gone

end Start

end SnsxOS.X86
