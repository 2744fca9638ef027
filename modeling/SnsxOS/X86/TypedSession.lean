import SnsxOS.X86.Listing
import SnsxOS.Editions.MenuIndex
import SnsxOS.Editions.DivideError

/-!
# Lines typed at the x86 machine

One line is read at a time, by `shell_run`, by the calculator, by the file manager, by the pause
after one of its commands or by the text editor, which was started from the shell or from the file
manager. What a line does depends on its reader. Whatever is typed, the directories and the files
are those of some commands of the console, and every file was made by calls of the file system.
-/

namespace SnsxOS.X86

open Framework

def shellInputMax : Nat := 256

def shellArgMax : Nat := 16

/-- `shell_tokenize`: the words of a line, with room for some more. -/
def shellTokenize : Nat → Bytes → List Bytes
  | 0, _ => []
  | maxArgs + 1, line =>
      let cursor := line.dropWhile isspace
      if cursor = [] then []
      else cursor.takeWhile (fun ch => !isspace ch) ::
        shellTokenize maxArgs ((cursor.dropWhile fun ch => !isspace ch).drop 1)

def shellJoinArgs (args : List Bytes) (limit : Nat) : Bytes :=
  strcopyLimit ([32].intercalate args) limit

/-- The loop that reads the next line. -/
inductive Reader where
  | shell
  | calculator
  | manager (cwd : Bytes)
  /-- `shell_wait_for_enter` in the file manager -/
  | enter (cwd : Bytes)
  /-- `app_text_editor` on a path with its text, and the directory of the file manager behind it -/
  | editor (path text : Bytes) (manager : Option Bytes)
  /-- after `reboot` or an exception -/
  | halted

structure Typed where
  shell : ShellState
  reader : Reader

/-- The reader that the editor returns to. -/
def Reader.behind : Option Bytes → Reader
  | none => .shell
  | some cwd => .manager cwd

/-- `app_text_editor` up to its loop; there is no outcome when a null pointer is followed. -/
def openEditor (st : ShellState) (path : Bytes) (manager : Option Bytes) : Option Typed :=
  match fsFind st.table path with
  | none => some ⟨st, .editor path [] manager⟩
  | some slot => (readEntry st.table slot).map fun entry =>
      if entry.type = fsTypeDir ∨ entry.type = fsTypeProgram ∨ fsMaxEntrySize < entry.size then
        ⟨st, .behind manager⟩
      else ⟨st, .editor path entry.data manager⟩

/-- One round of the editor's loop: the table, and the text unless the editor is left. -/
def editorLine (table : FsState) (path text line : Bytes) : FsState × Option Bytes :=
  if line = ascii ".help" then (table, some text)
  else if line = ascii ".quit" then (table, none)
  else if line = ascii ".clear" then (table, some [])
  else if line = ascii ".show" then (table, some text)
  else if line = ascii ".save" then
    match fsWriteFile table path text fsTypeText with
    | (true, table) => (table, none)
    | (false, table) => (table, some text)
  else if fsMaxEntrySize ≤ text.length + line.length + 1 then (table, some text)
  else (table, some (text ++ line ++ [newline]))

/-- `calc_evaluate` and what it leaves behind for the next line, which an exception never lets
come. -/
def calculate (fuel : Nat) (st : ShellState) (expression : Bytes) (next : Reader) : Option Typed :=
  (Editions.x86CalcEvaluate fuel expression).map fun
    | .error _ => ⟨st, .halted⟩
    | .ok _ => ⟨st, next⟩

def calculatorLine (fuel : Nat) (st : ShellState) (expression : Bytes) : Option Typed :=
  if expression = ascii "exit" ∨ expression = ascii "quit" then some ⟨st, .shell⟩
  else if expression = [] then some ⟨st, .calculator⟩
  else calculate fuel st expression .calculator

/-- `command_cat` and `shell_stat_path` read a found entry through its view. -/
def readShown (st : ShellState) (absolutePath : Bytes) : Option Unit :=
  match fsFind st.table absolutePath with
  | none => some ()
  | some slot => (readEntry st.table slot).map fun _ => ()

inductive ShellName where
  | help | apps | clear | pwd | ls | tree | cd | cat | stat | touch | mkdir | rm | cp | mv | files
  | calculator | edit | run | ps | ticks | ata | about | reboot
  deriving DecidableEq

/-- The comparisons of `shell_run` with the first word, in order. -/
def shellNames : List (Bytes × ShellName) :=
  [(ascii "help", .help), (ascii "apps", .apps), (ascii "clear", .clear), (ascii "pwd", .pwd),
    (ascii "ls", .ls), (ascii "tree", .tree), (ascii "cd", .cd), (ascii "cat", .cat),
    (ascii "stat", .stat), (ascii "touch", .touch), (ascii "mkdir", .mkdir), (ascii "rm", .rm),
    (ascii "cp", .cp), (ascii "mv", .mv), (ascii "files", .files), (ascii "calc", .calculator),
    (ascii "edit", .edit), (ascii "run", .run), (ascii "ps", .ps), (ascii "ticks", .ticks),
    (ascii "ata", .ata), (ascii "about", .about), (ascii "reboot", .reboot)]

def shellName (word : Bytes) : Option ShellName :=
  (shellNames.find? fun entry => word == entry.1).map Prod.snd

/-- A command of the shell with the words behind its name. A program that is run is taken to come
back and to leave the files alone; a command with too few words only tells how it is used. -/
def shellCommand (fuel : Nat) (st : ShellState) : ShellName → List Bytes → Option Typed
  | .ls, args => (commandLs st (args.headD st.currentDirectory)).map fun _ => ⟨st, .shell⟩
  | .tree, args => (commandTree fuel st (args.headD st.currentDirectory)).map fun _ => ⟨st, .shell⟩
  | .cd, path :: _ => some ⟨(commandCd st path).2, .shell⟩
  | .cat, path :: _ => (readShown st (st.resolvePath path)).map fun _ => ⟨st, .shell⟩
  | .stat, path :: _ => (readShown st (st.resolvePath path)).map fun _ => ⟨st, .shell⟩
  | .touch, path :: _ => some ⟨st.call (.writeFile (st.resolvePath path) [] fsTypeText), .shell⟩
  | .mkdir, path :: _ => some ⟨st.call (.mkdir (st.resolvePath path)), .shell⟩
  | .rm, path :: _ => some ⟨st.call (.remove (st.resolvePath path)), .shell⟩
  | .cp, source :: destination :: _ =>
      some ⟨st.call (.copy (st.resolvePath source) (st.resolvePath destination)), .shell⟩
  | .mv, source :: destination :: _ =>
      some ⟨st.call (.move (st.resolvePath source) (st.resolvePath destination)), .shell⟩
  | .files, _ => some ⟨st, .manager (strcopyLimit st.currentDirectory fsPathMax)⟩
  | .calculator, [] => some ⟨st, .calculator⟩
  | .calculator, args => calculate fuel st (shellJoinArgs args shellInputMax) .shell
  | .edit, path :: _ => openEditor st (st.resolvePath path) none
  | .run, path :: _ => (readShown st (st.resolvePath path)).map fun _ => ⟨st, .shell⟩
  | .reboot, _ => some ⟨st, .halted⟩
  | _, _ => some ⟨st, .shell⟩

def shellLine (fuel : Nat) (st : ShellState) : List Bytes → Option Typed
  | [] => some ⟨st, .shell⟩
  | word :: args => match shellName word with
      | none => some ⟨st, .shell⟩
      | some name => shellCommand fuel st name args

inductive ManagerName where
  | openEntry | edit | run | cd | del | mkdir | new | ren | copy

/-- The comparisons of `app_file_manager` with the first word, behind `quit`, `exit` and `up`. -/
def managerNames : List (Bytes × ManagerName) :=
  [(ascii "open", .openEntry), (ascii "edit", .edit), (ascii "run", .run), (ascii "cd", .cd),
    (ascii "del", .del), (ascii "mkdir", .mkdir), (ascii "new", .new), (ascii "ren", .ren),
    (ascii "copy", .copy)]

def managerName (word : Bytes) : Option ManagerName :=
  (managerNames.find? fun entry => word == entry.1).map Prod.snd

/-- A command on the listed entry with a number, or the pause after `Invalid entry number.` -/
def onListed (st : ShellState) (cwd word : Bytes) (f : Nat → Option Typed) : Option Typed :=
  let entries := fsList st.table cwd fileManagerViewMax
  match shellParseIndex word entries.length with
  | none => some ⟨st, .enter cwd⟩
  | some index => (entries[index]?).bind f

/-- A call of the file system, with a pause when it fails. -/
def managerCall (st : ShellState) (cwd : Bytes) (op : FsOp) : Typed :=
  ⟨st.call op, if (fsCall st.table op).1 then .manager cwd else .enter cwd⟩

/-- A command of the file manager with its second word and those behind it. Without a new name
`ren` and `copy` end in a pause, whatever the number. -/
def managerCommand (st : ShellState) (cwd : Bytes) (word : Bytes) (args : List Bytes) :
    ManagerName → Option Typed
  | .openEntry => onListed st cwd word fun slot =>
      (shellEntryAbsolutePath st.table slot).bind fun path =>
        if (st.table.nodeAt slot).entry.type = fsTypeDir then
          some ⟨st, .manager (strcopyLimit path fsPathMax)⟩
        else (readShown st path).map fun _ => ⟨st, .enter cwd⟩
  | .edit => onListed st cwd word fun slot =>
      (shellEntryAbsolutePath st.table slot).bind fun path => openEditor st path (some cwd)
  | .run => onListed st cwd word fun slot =>
      (shellEntryAbsolutePath st.table slot).bind fun path =>
        (readShown st path).map fun _ => ⟨st, .enter cwd⟩
  | .cd => onListed st cwd word fun slot =>
      if (st.table.nodeAt slot).entry.type ≠ fsTypeDir then some ⟨st, .enter cwd⟩
      else (shellEntryAbsolutePath st.table slot).map fun path => ⟨st, .manager path⟩
  | .del => onListed st cwd word fun slot =>
      (shellEntryAbsolutePath st.table slot).map fun path => managerCall st cwd (.remove path)
  | .mkdir => some (managerCall st cwd (.mkdir (shellResolvePathFrom cwd word)))
  | .new =>
      let path := shellResolvePathFrom cwd word
      match fsWriteFile st.table path [] fsTypeText with
      | (false, table) => some ⟨{ st with table := table }, .enter cwd⟩
      | (true, table) => openEditor { st with table := table } path (some cwd)
  | .ren => match args with
      | [] => some ⟨st, .enter cwd⟩
      | name :: _ => onListed st cwd word fun slot =>
          (shellEntryAbsolutePath st.table slot).map fun source =>
            managerCall st cwd (.move source (shellSiblingPath source name))
  | .copy => match args with
      | [] => some ⟨st, .enter cwd⟩
      | name :: _ => onListed st cwd word fun slot =>
          (shellEntryAbsolutePath st.table slot).map fun source =>
            managerCall st cwd (.copy source (shellSiblingPath source name))

/-- The commands that need a second word. -/
def managerWords (st : ShellState) (cwd word : Bytes) : List Bytes → Option Typed
  | [] => some ⟨st, .enter cwd⟩
  | second :: args => match managerName word with
      | none => some ⟨st, .enter cwd⟩
      | some name => managerCommand st cwd second args name

def managerLine (st : ShellState) (cwd : Bytes) : List Bytes → Option Typed
  | [] => some ⟨st, .manager cwd⟩
  | word :: args =>
      if word = ascii "quit" ∨ word = ascii "exit" then
        some ⟨{ st with currentDirectory := strcopyLimit cwd fsPathMax }, .shell⟩
      else if word = ascii "up" then some ⟨st, .manager (shellParentDirectory cwd)⟩
      else managerWords st cwd word args

/-- What the machine does with a typed line. -/
def typedStep (fuel : Nat) (t : Typed) (line : Bytes) : Option Typed :=
  match t.reader with
  | .shell => shellLine fuel t.shell (shellTokenize shellArgMax line)
  | .calculator => calculatorLine fuel t.shell line
  | .manager cwd => managerLine t.shell cwd (shellTokenize shellArgMax line)
  | .enter cwd => some ⟨t.shell, .manager cwd⟩
  | .editor path text manager =>
      let (table, text) := editorLine t.shell.table path text line
      some ⟨{ t.shell with table := table },
        match text with
        | none => .behind manager
        | some text => .editor path text manager⟩
  | .halted => some t

/-- The shell after boot. -/
def typedStart (table : FsState) : Typed :=
  ⟨⟨table, (consoleStart table).current⟩, .shell⟩

/-- The directory of the file manager while it is open. -/
def Reader.directory : Reader → Option Bytes
  | .manager cwd | .enter cwd => some cwd
  | .editor _ _ back => back
  | .shell | .calculator | .halted => none

/-- What the console keeps of the machine. -/
def Typed.session (t : Typed) : Session FsState Bytes :=
  ⟨t.shell.table, t.shell.currentDirectory, t.reader.directory⟩

/-- At most some lines of the console lead to the session. -/
def Reached (start : Session FsState Bytes) (count : Nat) (s : Session FsState Bytes) : Prop :=
  ∃ lines : List (Line Command), lines.length ≤ count ∧
    runPartial (Session.step console) start lines = some s

/-- Before the editor is left the console stands before the command that opened it, and what has
been typed since is the beginning of its session. -/
def Tracks (start : Session FsState Bytes) (count : Nat) (t : Typed) : Prop :=
  match t.reader with
  | .editor path text manager => ∃ before s, ∃ command : List Bytes → Command, before < count ∧
      Reached start before s ∧ ∀ more, Session.step console s (.command (command more)) =
        some ⟨textEditorLoop t.shell.table path text more, t.shell.currentDirectory, manager⟩
  | _ => Reached start count t.session

section Console

variable {start s s' : Session FsState Bytes} {count fuel : Nat}

theorem Reached.mono (h : Reached start count s) : Reached start (count + 1) s := by
  obtain ⟨lines, hlength, hrun⟩ := h
  exact ⟨lines, Nat.le_succ_of_le hlength, hrun⟩

theorem Reached.step (h : Reached start count s) {line : Line Command}
    (hstep : Session.step console s line = some s') : Reached start (count + 1) s' := by
  obtain ⟨lines, hlength, hrun⟩ := h
  refine ⟨lines ++ [line], ?_, ?_⟩
  · rw [List.length_append, List.length_singleton]
    exact Nat.succ_le_succ hlength
  · rw [runPartial_append, hrun, Option.bind_some, runPartial_singleton, hstep]

/-- A command read at the prompt. -/
theorem step_prompt {table : FsState} {directory : Bytes} {command : Command}
    (hreads : Command.reads false command = true) :
    Session.step console ⟨table, directory, none⟩ (.command command) =
      (exec ⟨table, directory⟩ command).map fun st => ⟨st.table, st.currentDirectory, none⟩ := by
  have hread : console.reads
      (⟨table, directory, none⟩ : Session FsState Bytes).manager.isSome command = true := hreads
  rw [Session.step, if_pos hread, console_exec, Option.map_map]
  rfl

/-- A command read by the open file manager. -/
theorem step_managed {table : FsState} {current cwd : Bytes} {command : Command}
    (hreads : Command.reads true command = true) :
    Session.step console ⟨table, current, some cwd⟩ (.command command) =
      (exec ⟨table, cwd⟩ command).map fun st =>
        ⟨st.table, current, some st.currentDirectory⟩ := by
  have hread : console.reads
      (⟨table, current, some cwd⟩ : Session FsState Bytes).manager.isSome command = true := hreads
  rw [Session.step, if_pos hread, console_exec, Option.map_map]
  rfl

theorem Reached.command {table : FsState} {directory : Bytes}
    (h : Reached start count ⟨table, directory, none⟩) (command : Command) {st : ShellState}
    (hreads : Command.reads false command = true)
    (hexec : exec ⟨table, directory⟩ command = some st) :
    Reached start (count + 1) ⟨st.table, st.currentDirectory, none⟩ := by
  apply h.step
  rw [step_prompt hreads, hexec, Option.map_some]

theorem Reached.managed {table : FsState} {current cwd : Bytes}
    (h : Reached start count ⟨table, current, some cwd⟩) (command : Command) {st : ShellState}
    (hreads : Command.reads true command = true)
    (hexec : exec ⟨table, cwd⟩ command = some st) :
    Reached start (count + 1) ⟨st.table, current, some st.currentDirectory⟩ := by
  apply h.step
  rw [step_managed hreads, hexec, Option.map_some]

theorem textEditorLoop_cons (table : FsState) (path text line : Bytes) (more : List Bytes) :
    textEditorLoop table path text (line :: more) =
      ((editorLine table path text line).2.map fun edited =>
        textEditorLoop (editorLine table path text line).1 path edited more).getD
        (editorLine table path text line).1 := by
  rw [textEditorLoop, editorLine]
  by_cases hhelp : line = ascii ".help"
  · simp only [if_pos hhelp, Option.map_some, Option.getD_some]
  by_cases hquit : line = ascii ".quit"
  · simp only [if_neg hhelp, if_pos hquit, Option.map_none, Option.getD_none]
  by_cases hclear : line = ascii ".clear"
  · simp only [if_neg hhelp, if_neg hquit, if_pos hclear, Option.map_some, Option.getD_some]
  by_cases hshow : line = ascii ".show"
  · simp only [if_neg hhelp, if_neg hquit, if_neg hclear, if_pos hshow, Option.map_some,
      Option.getD_some]
  by_cases hsave : line = ascii ".save"
  · simp only [if_neg hhelp, if_neg hquit, if_neg hclear, if_neg hshow, if_pos hsave]
    rcases fsWriteFile table path text fsTypeText with ⟨ok, st'⟩
    cases ok <;> rfl
  · simp only [if_neg hhelp, if_neg hquit, if_neg hclear, if_neg hshow, if_neg hsave]
    split <;> rfl

theorem Tracks.reached {t : Typed} (h : Tracks start count t) : Reached start count t.session := by
  obtain ⟨st, reader⟩ := t
  cases reader with
  | editor path text manager =>
    obtain ⟨before, s, command, hlt, hreached, hsession⟩ := h
    obtain ⟨lines, hlength, hrun⟩ := hreached.step (hsession [])
    exact ⟨lines, hlength.trans hlt, hrun⟩
  | shell => exact h
  | calculator => exact h
  | manager cwd => exact h
  | enter cwd => exact h
  | halted => exact h

theorem tracks_behind {st : ShellState} {manager : Option Bytes}
    (h : Reached start count ⟨st.table, st.currentDirectory, manager⟩) :
    Tracks start count ⟨st, .behind manager⟩ := by
  cases manager with
  | none => exact h
  | some cwd => exact h

/-- A session of the editor goes on with the next line. -/
theorem tracks_editorLine {st : ShellState} {path text line : Bytes} {manager : Option Bytes}
    (h : Tracks start count ⟨st, .editor path text manager⟩) {u : Typed}
    (hstep : typedStep fuel ⟨st, .editor path text manager⟩ line = some u) :
    Tracks start (count + 1) u := by
  obtain ⟨before, s, command, hlt, hreached, hsession⟩ := h
  rw [typedStep] at hstep
  dsimp only at hstep hsession
  have hloop := textEditorLoop_cons st.table path text line
  rcases hline : editorLine st.table path text line with ⟨table, edited⟩
  rw [hline] at hstep hloop
  obtain rfl := Option.some.inj hstep
  cases edited with
  | none =>
    have hleft := hsession [line]
    rw [hloop] at hleft
    obtain ⟨lines, hlength, hrun⟩ := hreached.step hleft
    exact tracks_behind ⟨lines, by omega, hrun⟩
  | some edited =>
    refine ⟨before, s, fun more => command (line :: more), by omega, hreached, fun more => ?_⟩
    rw [hsession, hloop]
    rfl

/-- The editor that a command opens. -/
theorem tracks_openEditor {st : ShellState} {path : Bytes} {manager : Option Bytes}
    (hreached : Reached start count s) (command : List Bytes → Command)
    (hcommand : ∀ more, Session.step console s (.command (command more)) =
      (appTextEditor st.table path more).map fun table => ⟨table, st.currentDirectory, manager⟩)
    {u : Typed} (hopen : openEditor st path manager = some u) : Tracks start (count + 1) u := by
  rw [openEditor] at hopen
  cases hfind : fsFind st.table path with
  | none =>
    rw [hfind] at hopen
    obtain rfl := Option.some.inj hopen
    refine ⟨count, s, command, Nat.lt_succ_self count, hreached, fun more => ?_⟩
    rw [hcommand, appTextEditor, hfind]
    rfl
  | some slot =>
    rw [hfind] at hopen
    dsimp only at hopen
    obtain ⟨entry, hentry, rfl⟩ := Option.map_eq_some_iff.mp hopen
    have happ : ∀ more, appTextEditor st.table path more =
        some (if entry.type = fsTypeDir ∨ entry.type = fsTypeProgram ∨ fsMaxEntrySize < entry.size
          then st.table else textEditorLoop st.table path entry.data more) := by
      intro more
      rw [appTextEditor, hfind]
      dsimp only
      rw [hentry, Option.map_some]
    by_cases hrefused : entry.type = fsTypeDir ∨ entry.type = fsTypeProgram ∨
        fsMaxEntrySize < entry.size
    · rw [if_pos hrefused]
      have hrefusal := hcommand []
      rw [happ, if_pos hrefused] at hrefusal
      exact tracks_behind (hreached.step hrefusal)
    · rw [if_neg hrefused]
      refine ⟨count, s, command, Nat.lt_succ_self count, hreached, fun more => ?_⟩
      rw [hcommand, happ, if_neg hrefused]
      rfl

theorem tracks_calculate {st : ShellState}
    (h : Reached start count ⟨st.table, st.currentDirectory, none⟩) {expression : Bytes}
    {next : Reader} (hnext : Tracks start (count + 1) ⟨st, next⟩) {u : Typed}
    (hstep : calculate fuel st expression next = some u) : Tracks start (count + 1) u := by
  obtain ⟨answer, -, rfl⟩ := Option.map_eq_some_iff.mp hstep
  cases answer with
  | error fault => exact h.mono
  | ok answer => exact hnext

/-- A command of the shell is one of the console, or leaves its files and directories alone. -/
theorem tracks_shellCommand {st : ShellState}
    (h : Reached start count ⟨st.table, st.currentDirectory, none⟩) {name : ShellName}
    {args : List Bytes} {u : Typed} (hstep : shellCommand fuel st name args = some u) :
    Tracks start (count + 1) u := by
  have hstay : some (⟨st, .shell⟩ : Typed) = some u → Tracks start (count + 1) u := by
    intro hsame
    obtain rfl := Option.some.inj hsame
    exact h.mono
  have hread : ∀ {α : Type} (outcome : Option α),
      (outcome.map fun _ => (⟨st, .shell⟩ : Typed)) = some u → Tracks start (count + 1) u := by
    intro α outcome hsame
    obtain ⟨_, -, hsame⟩ := Option.map_eq_some_iff.mp hsame
    exact hstay (congrArg some hsame)
  cases name with
  | help => exact hstay hstep
  | apps => exact hstay hstep
  | clear => exact hstay hstep
  | pwd => exact hstay hstep
  | ls => exact hread _ hstep
  | tree => exact hread _ hstep
  | cd =>
    cases args with
    | nil => exact hstay hstep
    | cons path args =>
      obtain rfl := Option.some.inj hstep
      exact h.command (.cd path) rfl rfl
  | cat =>
    cases args with
    | nil => exact hstay hstep
    | cons path args => exact hread _ hstep
  | stat =>
    cases args with
    | nil => exact hstay hstep
    | cons path args => exact hread _ hstep
  | touch =>
    cases args with
    | nil => exact hstay hstep
    | cons path args =>
      obtain rfl := Option.some.inj hstep
      exact h.command (.touch path) rfl rfl
  | mkdir =>
    cases args with
    | nil => exact hstay hstep
    | cons path args =>
      obtain rfl := Option.some.inj hstep
      exact h.command (.mkdir path) rfl rfl
  | rm =>
    cases args with
    | nil => exact hstay hstep
    | cons path args =>
      obtain rfl := Option.some.inj hstep
      exact h.command (.rm path) rfl rfl
  | cp =>
    rcases args with - | ⟨source, - | ⟨destination, args⟩⟩
    · exact hstay hstep
    · exact hstay hstep
    · obtain rfl := Option.some.inj hstep
      exact h.command (.cp source destination) rfl rfl
  | mv =>
    rcases args with - | ⟨source, - | ⟨destination, args⟩⟩
    · exact hstay hstep
    · exact hstay hstep
    · obtain rfl := Option.some.inj hstep
      exact h.command (.mv source destination) rfl rfl
  | files =>
    obtain rfl := Option.some.inj hstep
    exact h.step (show Session.step console _ .openManager = _ from rfl)
  | calculator =>
    cases args with
    | nil =>
      obtain rfl := Option.some.inj hstep
      exact h.mono
    | cons word args =>
      exact tracks_calculate h (show Tracks start (count + 1) ⟨st, .shell⟩ from h.mono) hstep
  | edit =>
    cases args with
    | nil => exact hstay hstep
    | cons path args =>
      apply tracks_openEditor h (.edit path) _ hstep
      intro more
      rw [step_prompt rfl, exec, Option.map_map]
      rfl
  | run =>
    cases args with
    | nil => exact hstay hstep
    | cons path args => exact hread _ hstep
  | ps => exact hstay hstep
  | ticks => exact hstay hstep
  | ata => exact hstay hstep
  | about => exact hstay hstep
  | reboot =>
    obtain rfl := Option.some.inj hstep
    exact h.mono

theorem shellEntryAbsolutePath_length_lt {table : FsState} {slot : Nat} {path : Bytes}
    (h : shellEntryAbsolutePath table slot = some path) : path.length < fsPathMax := by
  obtain ⟨nameSlot, -, rfl⟩ := Option.map_eq_some_iff.mp h
  have hname := length_strcopyLimit_lt (table.nodeAt nameSlot).name
    (show 0 < fsPathMax - 1 by decide)
  rw [List.length_cons]
  omega

theorem tracks_onListed {st : ShellState} {cwd word : Bytes}
    (h : Reached start count ⟨st.table, st.currentDirectory, some cwd⟩)
    {f : Nat → Option Typed} {u : Typed}
    (hf : ∀ number slot, ShellState.entryAt ⟨st.table, cwd⟩ number = some slot →
      f slot = some u → Tracks start (count + 1) u)
    (hstep : onListed st cwd word f = some u) : Tracks start (count + 1) u := by
  dsimp only [onListed] at hstep
  cases hindex : shellParseIndex word (fsList st.table cwd fileManagerViewMax).length with
  | none =>
    rw [hindex] at hstep
    obtain rfl := Option.some.inj hstep
    exact h.mono
  | some index =>
    rw [hindex] at hstep
    obtain ⟨slot, hslot, hstep⟩ := Option.bind_eq_some_iff.mp hstep
    exact hf (index + 1) slot hslot hstep

/-- A call that the console makes as well. -/
theorem tracks_managerCall {st : ShellState} {cwd : Bytes}
    (h : Reached start count ⟨st.table, st.currentDirectory, some cwd⟩) (command : Command)
    (hreads : Command.reads true command = true) {op : FsOp}
    (hexec : exec ⟨st.table, cwd⟩ command = some (ShellState.call ⟨st.table, cwd⟩ op)) :
    Tracks start (count + 1) (managerCall st cwd op) := by
  have hreached := h.managed command hreads hexec
  rw [managerCall]
  split
  · exact hreached
  · exact hreached

theorem tracks_managerCommand {st : ShellState} {cwd word : Bytes} {args : List Bytes}
    (h : Reached start count ⟨st.table, st.currentDirectory, some cwd⟩) {name : ManagerName}
    {u : Typed} (hstep : managerCommand st cwd word args name = some u) :
    Tracks start (count + 1) u := by
  have hstay : some (⟨st, .enter cwd⟩ : Typed) = some u → Tracks start (count + 1) u := by
    intro hsame
    obtain rfl := Option.some.inj hsame
    exact h.mono
  have hshown : ∀ number slot path, ShellState.entryAt ⟨st.table, cwd⟩ number = some slot →
      shellEntryAbsolutePath st.table slot = some path → ∀ f : Bytes → Option ShellState,
        onShown ⟨st.table, cwd⟩ number f = f path := by
    intro number slot path hentry hpath f
    rw [onShown, hentry]
    dsimp only
    rw [hpath, Option.bind_some]
  have henter : ∀ number slot path, ShellState.entryAt ⟨st.table, cwd⟩ number = some slot →
      shellEntryAbsolutePath st.table slot = some path →
      (st.table.nodeAt slot).entry.type = fsTypeDir →
        exec ⟨st.table, cwd⟩ (.enter number) = some ⟨st.table, strcopyLimit path fsPathMax⟩ := by
    intro number slot path hentry hpath hdir
    rw [exec, hentry]
    dsimp only
    rw [if_pos hdir, hpath, Option.map_some]
  cases name with
  | openEntry =>
    apply tracks_onListed h _ hstep
    intro number slot hentry hstep
    obtain ⟨path, hpath, hstep⟩ := Option.bind_eq_some_iff.mp hstep
    split at hstep
    · rename_i hdir
      obtain rfl := Option.some.inj hstep
      exact h.managed _ rfl (henter number slot path hentry hpath hdir)
    · obtain ⟨_, -, hstep⟩ := Option.map_eq_some_iff.mp hstep
      exact hstay (congrArg some hstep)
  | edit =>
    apply tracks_onListed h _ hstep
    intro number slot hentry hstep
    obtain ⟨path, hpath, hstep⟩ := Option.bind_eq_some_iff.mp hstep
    apply tracks_openEditor h (.editEntry number) _ hstep
    intro more
    rw [step_managed rfl, exec, hshown number slot path hentry hpath, Option.map_map]
    rfl
  | run =>
    apply tracks_onListed h _ hstep
    intro number slot hentry hstep
    obtain ⟨path, hpath, hstep⟩ := Option.bind_eq_some_iff.mp hstep
    obtain ⟨_, -, hstep⟩ := Option.map_eq_some_iff.mp hstep
    exact hstay (congrArg some hstep)
  | cd =>
    apply tracks_onListed h _ hstep
    intro number slot hentry hstep
    split at hstep
    · exact hstay hstep
    · rename_i hdir
      obtain ⟨path, hpath, rfl⟩ := Option.map_eq_some_iff.mp hstep
      have hentered := henter number slot path hentry hpath (not_not.mp hdir)
      rw [strcopyLimit_of_lt (shellEntryAbsolutePath_length_lt hpath)] at hentered
      exact h.managed _ rfl hentered
  | del =>
    apply tracks_onListed h _ hstep
    intro number slot hentry hstep
    obtain ⟨path, hpath, rfl⟩ := Option.map_eq_some_iff.mp hstep
    apply tracks_managerCall h (.del number) rfl
    rw [exec, hshown number slot path hentry hpath]
  | mkdir =>
    obtain rfl := Option.some.inj hstep
    exact tracks_managerCall h (.mkdir word) rfl rfl
  | new =>
    dsimp only [managerCommand] at hstep
    rcases hwrite : fsWriteFile st.table (shellResolvePathFrom cwd word) [] fsTypeText with
      ⟨ok, table⟩
    rw [hwrite] at hstep
    have hexec : ∀ more, exec ⟨st.table, cwd⟩ (.new word more) =
        if ok then (appTextEditor table (shellResolvePathFrom cwd word) more).map fun table =>
          ⟨table, cwd⟩
        else some ⟨table, cwd⟩ := by
      intro more
      rw [exec, ShellState.resolvePath, hwrite]
      cases ok <;> rfl
    cases ok with
    | false =>
      obtain rfl := Option.some.inj hstep
      exact h.managed (.new word []) rfl (hexec [])
    | true =>
      apply tracks_openEditor h (.new word) _ hstep
      intro more
      rw [step_managed rfl, hexec, if_pos rfl, Option.map_map]
      rfl
  | ren =>
    cases args with
    | nil => exact hstay hstep
    | cons name args =>
      apply tracks_onListed h _ hstep
      intro number slot hentry hstep
      obtain ⟨path, hpath, rfl⟩ := Option.map_eq_some_iff.mp hstep
      apply tracks_managerCall h (.ren number name) rfl
      rw [exec, hshown number slot path hentry hpath]
  | copy =>
    cases args with
    | nil => exact hstay hstep
    | cons name args =>
      apply tracks_onListed h _ hstep
      intro number slot hentry hstep
      obtain ⟨path, hpath, rfl⟩ := Option.map_eq_some_iff.mp hstep
      apply tracks_managerCall h (.copy number name) rfl
      rw [exec, hshown number slot path hentry hpath]

theorem tracks_shellLine {st : ShellState}
    (h : Reached start count ⟨st.table, st.currentDirectory, none⟩) {words : List Bytes}
    {u : Typed} (hstep : shellLine fuel st words = some u) : Tracks start (count + 1) u := by
  cases words with
  | nil =>
    obtain rfl := Option.some.inj hstep
    exact h.mono
  | cons word args =>
    rw [shellLine] at hstep
    cases hname : shellName word with
    | none =>
      rw [hname] at hstep
      obtain rfl := Option.some.inj hstep
      exact h.mono
    | some name =>
      rw [hname] at hstep
      exact tracks_shellCommand h hstep

theorem tracks_managerLine {st : ShellState} {cwd : Bytes}
    (h : Reached start count ⟨st.table, st.currentDirectory, some cwd⟩) {words : List Bytes}
    {u : Typed} (hstep : managerLine st cwd words = some u) : Tracks start (count + 1) u := by
  cases words with
  | nil =>
    obtain rfl := Option.some.inj hstep
    exact h.mono
  | cons word args =>
    rw [managerLine] at hstep
    split at hstep
    · obtain rfl := Option.some.inj hstep
      exact h.step (show Session.step console _ .quitManager = _ from rfl)
    · split at hstep
      · obtain rfl := Option.some.inj hstep
        exact h.managed .up rfl rfl
      · cases args with
        | nil =>
          obtain rfl := Option.some.inj hstep
          exact h.mono
        | cons second args =>
          rw [managerWords] at hstep
          cases hname : managerName word with
          | none =>
            rw [hname] at hstep
            obtain rfl := Option.some.inj hstep
            exact h.mono
          | some name =>
            rw [hname] at hstep
            exact tracks_managerCommand h hstep

/-- A typed line is at most one line of the console. -/
theorem Tracks.step {t u : Typed} (h : Tracks start count t) {line : Bytes}
    (hstep : typedStep fuel t line = some u) : Tracks start (count + 1) u := by
  obtain ⟨st, reader⟩ := t
  cases reader with
  | shell => exact tracks_shellLine h hstep
  | calculator =>
    have hstay : ∀ reader : Reader, reader = .shell ∨ reader = .calculator →
        Tracks start (count + 1) ⟨st, reader⟩ := by
      intro reader hreader
      rcases hreader with rfl | rfl
      · exact Reached.mono h
      · exact Reached.mono h
    have hline : calculatorLine fuel st line = some u := hstep
    rw [calculatorLine] at hline
    split at hline
    · obtain rfl := Option.some.inj hline
      exact hstay _ (Or.inl rfl)
    · split at hline
      · obtain rfl := Option.some.inj hline
        exact hstay _ (Or.inr rfl)
      · exact tracks_calculate h (hstay _ (Or.inr rfl)) hline
  | manager cwd => exact tracks_managerLine h hstep
  | enter cwd =>
    obtain rfl := Option.some.inj hstep
    exact Reached.mono h
  | editor path text manager => exact tracks_editorLine h hstep
  | halted =>
    obtain rfl := Option.some.inj hstep
    exact Reached.mono h

end Console

section Calls

variable {st st' : ShellState}

theorem appTextEditor_calls {table table' : FsState} {path : Bytes} {session : List Bytes}
    (h : appTextEditor table path session = some table') :
    ∃ ops, table' = run fsStep table ops := by
  have hloop : ∀ text, ∃ ops, textEditorLoop table path text session = run fsStep table ops := by
    intro text
    rcases textEditorLoop_cases table path text session with hsame | hsaved
    · exact ⟨[], hsame⟩
    · obtain ⟨data, hsaved⟩ := hsaved
      exact ⟨[.writeFile path data fsTypeText], hsaved⟩
  rw [appTextEditor] at h
  cases hfind : fsFind table path with
  | none =>
    rw [hfind] at h
    obtain rfl := Option.some.inj h
    exact hloop []
  | some slot =>
    rw [hfind] at h
    dsimp only at h
    obtain ⟨entry, -, rfl⟩ := Option.map_eq_some_iff.mp h
    split
    · exact ⟨[], rfl⟩
    · exact hloop entry.data

theorem onShown_calls {number : Nat} {f : Bytes → Option ShellState}
    (hf : ∀ path, f path = some st' → ∃ ops, st'.table = run fsStep st.table ops)
    (h : onShown st number f = some st') : ∃ ops, st'.table = run fsStep st.table ops := by
  rw [onShown] at h
  split at h
  · obtain rfl := Option.some.inj h
    exact ⟨[], rfl⟩
  · obtain ⟨path, -, h⟩ := Option.bind_eq_some_iff.mp h
    exact hf path h

/-- A command of the console changes the table by calls of the file system. -/
theorem exec_calls {command : Command} (h : exec st command = some st') :
    ∃ ops, st'.table = run fsStep st.table ops := by
  have hedit : ∀ {path : Bytes} {session : List Bytes} {table : FsState},
      ((appTextEditor table path session).map fun table => { st with table := table }) =
        some st' → ∃ ops, st'.table = run fsStep table ops := by
    intro path session table hedit
    obtain ⟨table', happ, rfl⟩ := Option.map_eq_some_iff.mp hedit
    exact appTextEditor_calls happ
  have hcall : ∀ op, some (st.call op) = some st' → ∃ ops, st'.table = run fsStep st.table ops := by
    intro op hsome
    obtain rfl := Option.some.inj hsome
    exact ⟨[op], rfl⟩
  cases command with
  | cd dir =>
    obtain rfl := Option.some.inj h
    refine ⟨[], ?_⟩
    rw [commandCd]
    split <;> rfl
  | touch file => exact hcall _ h
  | mkdir dir => exact hcall _ h
  | rm path => exact hcall _ h
  | cp source destination => exact hcall _ h
  | mv source destination => exact hcall _ h
  | edit file session => exact hedit h
  | new file session =>
    rw [exec] at h
    have hstep : fsStep st.table (.writeFile (st.resolvePath file) [] fsTypeText) =
        (fsWriteFile st.table (st.resolvePath file) [] fsTypeText).2 := rfl
    rcases hwrite : fsWriteFile st.table (st.resolvePath file) [] fsTypeText with ⟨ok, table⟩
    rw [hwrite] at h hstep
    cases ok with
    | false =>
      obtain rfl := Option.some.inj h
      exact ⟨[_], hstep.symm⟩
    | true =>
      obtain ⟨ops, hops⟩ := hedit h
      refine ⟨.writeFile (st.resolvePath file) [] fsTypeText :: ops, ?_⟩
      rw [run_cons, hstep]
      exact hops
  | up =>
    obtain rfl := Option.some.inj h
    exact ⟨[], rfl⟩
  | enter number =>
    rw [exec] at h
    split at h
    · obtain rfl := Option.some.inj h
      exact ⟨[], rfl⟩
    · split at h
      · obtain ⟨path, -, rfl⟩ := Option.map_eq_some_iff.mp h
        exact ⟨[], rfl⟩
      · obtain rfl := Option.some.inj h
        exact ⟨[], rfl⟩
  | editEntry number session => exact onShown_calls (fun _ => hedit) h
  | del number => exact onShown_calls (fun _ => hcall _) h
  | ren number name => exact onShown_calls (fun _ => hcall _) h
  | copy number name => exact onShown_calls (fun _ => hcall _) h

theorem Reached.calls {start s : Session FsState Bytes} {count : Nat}
    (h : Reached start count s) : ∃ ops, s.files = run fsStep start.files ops := by
  obtain ⟨lines, -, hrun⟩ := h
  refine runPartial_induction (motive := fun _ t => ∃ ops, t.files = run fsStep start.files ops)
    ⟨[], rfl⟩ (fun before t line u _ ih hstep => ?_) hrun
  obtain ⟨ops, hops⟩ := ih
  have hone : ∃ more, u.files = run fsStep t.files more := by
    cases line with
    | openManager =>
      rw [Session.step] at hstep
      split at hstep <;> obtain rfl := Option.some.inj hstep <;> exact ⟨[], rfl⟩
    | quitManager =>
      rw [Session.step] at hstep
      split at hstep <;> obtain rfl := Option.some.inj hstep <;> exact ⟨[], rfl⟩
    | command command =>
      rw [Session.step] at hstep
      split at hstep
      · obtain ⟨result, hresult, rfl⟩ := Option.map_eq_some_iff.mp hstep
        rw [console_exec] at hresult
        obtain ⟨st, hexec, rfl⟩ := Option.map_eq_some_iff.mp hresult
        obtain ⟨more, hmore⟩ := exec_calls hexec
        refine ⟨more, ?_⟩
        rw [← hmore, Session.update]
        split <;> rfl
      · obtain rfl := Option.some.inj hstep
        exact ⟨[], rfl⟩
  obtain ⟨more, hmore⟩ := hone
  exact ⟨ops ++ more, by rw [hmore, hops, run_append]⟩

end Calls

section Progress

variable {st : ShellState} {t : Typed}

/-- The line asks for a tree in which a directory is shown inside itself. -/
def TreeLoops (t : Typed) (line : Bytes) : Prop :=
  t.reader = .shell ∧ ∃ args root, shellTokenize shellArgMax line = ascii "tree" :: args ∧
    treeRoot t.shell (args.headD t.shell.currentDirectory) = some root ∧
    ¬ TreeEnds t.shell.table root

theorem shellName_tree {word : Bytes} : shellName word = some .tree ↔ word = ascii "tree" := by
  constructor
  · intro h
    obtain ⟨entry, hfind, hname⟩ := Option.map_eq_some_iff.mp h
    have honly : ∀ entry ∈ shellNames, entry.2 = .tree → entry.1 = ascii "tree" := by decide
    have hword := List.find?_some hfind
    rw [beq_iff_eq.mp hword]
    exact honly entry (List.mem_of_find?_eq_some hfind) hname
  · intro h
    rw [h]
    decide

theorem FsOk.readShown (h : FsOk st.table) (path : Bytes) : readShown st path = some () := by
  rw [X86.readShown]
  cases hfind : fsFind st.table path with
  | none => rfl
  | some slot =>
    obtain ⟨entry, hentry⟩ := h.readEntry (fsFind_lt hfind)
    dsimp only
    rw [hentry]
    rfl

theorem FsOk.openEditor (h : FsOk st.table) (path : Bytes) (manager : Option Bytes) :
    ∃ u, openEditor st path manager = some u := by
  rw [X86.openEditor]
  cases hfind : fsFind st.table path with
  | none => exact ⟨_, rfl⟩
  | some slot =>
    obtain ⟨entry, hentry⟩ := h.readEntry (fsFind_lt hfind)
    dsimp only
    rw [hentry]
    exact ⟨_, rfl⟩

/-- The calculator comes back or stops the kernel. -/
theorem calculate_settles (st : ShellState) (expression : Bytes) (next : Reader) :
    ∃ u, Settles (fun fuel => calculate fuel st expression next) u := by
  by_cases hover : Editions.Overflows (.chain .sum) expression
  · obtain ⟨enough, hraises⟩ := Editions.overflows_raises hover
    refine ⟨⟨st, .halted⟩, enough, fun fuel hfuel => ?_⟩
    obtain ⟨fault, hfault⟩ := hraises fuel hfuel
    dsimp only [calculate] at hfault ⊢
    rw [Editions.x86CalcEvaluate, hfault]
    rfl
  · obtain ⟨answer, hanswer⟩ := (Editions.returnsOnX86_iff expression).mpr hover
    exact ⟨_, hanswer.map _⟩

theorem FsOk.onListed (h : FsOk st.table) {cwd word : Bytes} {f : Nat → Option Typed}
    (hf : ∀ slot path, X86.shellEntryAbsolutePath st.table slot = some path →
      ∃ u, f slot = some u) :
    ∃ u, onListed st cwd word f = some u := by
  dsimp only [X86.onListed]
  cases hindex : shellParseIndex word (fsList st.table cwd fileManagerViewMax).length with
  | none => exact ⟨_, rfl⟩
  | some index =>
    have hlt : index < (fsList st.table cwd fileManagerViewMax).length := by
      dsimp only [shellParseIndex, menuIndex] at hindex
      split at hindex
      · cases hindex
      · obtain rfl := Option.some.inj hindex
        omega
    have hslot := mem_shownList (List.getElem_mem hlt)
    dsimp only
    rw [List.getElem?_eq_getElem hlt, Option.bind_some]
    exact hf _ _ (h.shellEntryAbsolutePath hslot)

/-- A command of the shell comes back, unless it is `tree`. -/
theorem shellCommand_settles (h : FsOk st.table) {name : ShellName} (hname : name ≠ .tree)
    (args : List Bytes) : ∃ u, Settles (fun fuel => shellCommand fuel st name args) u := by
  have hread : ∀ path, (readShown st path).map (fun _ => (⟨st, .shell⟩ : Typed)) =
      some ⟨st, .shell⟩ := by
    intro path
    rw [h.readShown]
    rfl
  cases name with
  | tree => exact absurd rfl hname
  | ls =>
    obtain ⟨output, hls⟩ := h.commandLs (args.headD st.currentDirectory)
    refine ⟨⟨st, .shell⟩, 0, fun fuel _ => ?_⟩
    dsimp only [shellCommand]
    rw [hls, Option.map_some]
  | cd => cases args <;> exact ⟨_, settles_some _⟩
  | touch => cases args <;> exact ⟨_, settles_some _⟩
  | mkdir => cases args <;> exact ⟨_, settles_some _⟩
  | rm => cases args <;> exact ⟨_, settles_some _⟩
  | cp => rcases args with - | ⟨source, - | ⟨destination, args⟩⟩ <;> exact ⟨_, settles_some _⟩
  | mv => rcases args with - | ⟨source, - | ⟨destination, args⟩⟩ <;> exact ⟨_, settles_some _⟩
  | cat =>
    cases args with
    | nil => exact ⟨_, settles_some _⟩
    | cons path args => exact ⟨_, 0, fun fuel _ => hread _⟩
  | stat =>
    cases args with
    | nil => exact ⟨_, settles_some _⟩
    | cons path args => exact ⟨_, 0, fun fuel _ => hread _⟩
  | run =>
    cases args with
    | nil => exact ⟨_, settles_some _⟩
    | cons path args => exact ⟨_, 0, fun fuel _ => hread _⟩
  | calculator =>
    cases args with
    | nil => exact ⟨_, settles_some _⟩
    | cons word args => exact calculate_settles st _ .shell
  | edit =>
    cases args with
    | nil => exact ⟨_, settles_some _⟩
    | cons path args =>
      obtain ⟨u, hopen⟩ := h.openEditor (st.resolvePath path) none
      exact ⟨u, 0, fun fuel _ => hopen⟩
  | help => exact ⟨_, settles_some _⟩
  | apps => exact ⟨_, settles_some _⟩
  | clear => exact ⟨_, settles_some _⟩
  | pwd => exact ⟨_, settles_some _⟩
  | files => exact ⟨_, settles_some _⟩
  | ps => exact ⟨_, settles_some _⟩
  | ticks => exact ⟨_, settles_some _⟩
  | ata => exact ⟨_, settles_some _⟩
  | about => exact ⟨_, settles_some _⟩
  | reboot => exact ⟨_, settles_some _⟩

theorem FsOk.managerCommand (h : FsOk st.table) (cwd word : Bytes) (args : List Bytes)
    (name : ManagerName) : ∃ u, managerCommand st cwd word args name = some u := by
  cases name with
  | openEntry =>
    apply h.onListed
    intro slot path hpath
    rw [hpath, Option.bind_some, h.readShown]
    split <;> exact ⟨_, rfl⟩
  | edit =>
    apply h.onListed
    intro slot path hpath
    rw [hpath, Option.bind_some]
    exact h.openEditor path (some cwd)
  | run =>
    apply h.onListed
    intro slot path hpath
    rw [hpath, Option.bind_some, h.readShown]
    exact ⟨_, rfl⟩
  | cd =>
    apply h.onListed
    intro slot path hpath
    rw [hpath]
    split <;> exact ⟨_, rfl⟩
  | del =>
    apply h.onListed
    intro slot path hpath
    rw [hpath]
    exact ⟨_, rfl⟩
  | mkdir => exact ⟨_, rfl⟩
  | new =>
    dsimp only [X86.managerCommand]
    have hwritten := h.step (.writeFile (shellResolvePathFrom cwd word) [] fsTypeText)
    rw [fsStep, fsCall] at hwritten
    rcases hwrite : fsWriteFile st.table (shellResolvePathFrom cwd word) [] fsTypeText with
      ⟨ok, table⟩
    rw [hwrite] at hwritten
    cases ok with
    | false => exact ⟨_, rfl⟩
    | true =>
      have hopened : FsOk (ShellState.table ⟨table, st.currentDirectory⟩) := hwritten
      exact hopened.openEditor _ (some cwd)
  | ren =>
    cases args with
    | nil => exact ⟨_, rfl⟩
    | cons name args =>
      apply h.onListed
      intro slot path hpath
      rw [hpath]
      exact ⟨_, rfl⟩
  | copy =>
    cases args with
    | nil => exact ⟨_, rfl⟩
    | cons name args =>
      apply h.onListed
      intro slot path hpath
      rw [hpath]
      exact ⟨_, rfl⟩

/-- The machine is ready for the next line, unless a tree was asked for that has no end. -/
theorem typedStep_settles_iff (h : FsOk t.shell.table) (line : Bytes) :
    (∃ u, Settles (fun fuel => typedStep fuel t line) u) ↔ ¬ TreeLoops t line := by
  obtain ⟨st, reader⟩ := t
  cases reader with
  | shell =>
    cases hwords : shellTokenize shellArgMax line with
    | nil =>
      refine iff_of_true ⟨⟨st, .shell⟩, 0, fun fuel _ => ?_⟩ fun hloops => ?_
      · dsimp only [typedStep]
        rw [hwords, shellLine]
      · obtain ⟨-, args, root, hwords', -⟩ := hloops
        rw [hwords] at hwords'
        cases hwords'
    | cons word args =>
      have hstep : ∀ fuel, typedStep fuel ⟨st, .shell⟩ line = shellLine fuel st (word :: args) := by
        intro fuel
        dsimp only [typedStep]
        rw [hwords]
      simp only [hstep]
      by_cases htree : word = ascii "tree"
      · have hline : ∀ fuel, shellLine fuel st (word :: args) =
            (commandTree fuel st (args.headD st.currentDirectory)).map fun _ => ⟨st, .shell⟩ := by
          intro fuel
          rw [shellLine, shellName_tree.mpr htree]
          rfl
        simp only [hline]
        constructor
        · intro hsettles hloops
          obtain ⟨u, hsettles⟩ := hsettles
          obtain ⟨fuel, hrun⟩ := hsettles.exists_run
          obtain ⟨output, hrun, -⟩ := Option.map_eq_some_iff.mp hrun
          obtain ⟨-, args', root, hwords', hroot, hends⟩ := hloops
          obtain ⟨-, rfl⟩ := List.cons.inj (hwords.symm.trans hwords')
          exact hends (.of_commandTree h hrun hroot)
        · intro hloops
          have hends : ∀ root, treeRoot st (args.headD st.currentDirectory) = some root →
              TreeEnds st.table root := by
            intro root hroot
            by_contra hends
            exact hloops ⟨rfl, args, root, by rw [hwords, htree], hroot, hends⟩
          obtain ⟨output, hsettles⟩ := commandTree_settles h hends
          exact ⟨_, hsettles.map _⟩
      · refine iff_of_true ?_ fun hloops => ?_
        · cases hname : shellName word with
          | none =>
            refine ⟨⟨st, .shell⟩, 0, fun fuel _ => ?_⟩
            dsimp only
            rw [shellLine, hname]
          | some name =>
            obtain ⟨u, hsettles⟩ := shellCommand_settles h
              (fun (hsame : name = .tree) => htree (shellName_tree.mp (by rw [hname, hsame]))) args
            refine ⟨u, ?_⟩
            simp only [shellLine, hname]
            exact hsettles
        · obtain ⟨-, args', root, hwords', -⟩ := hloops
          exact htree (List.cons.inj (hwords.symm.trans hwords')).1
  | calculator =>
    refine iff_of_true ?_ fun hloops => by cases hloops.1
    dsimp only [typedStep, calculatorLine]
    by_cases hexit : line = ascii "exit" ∨ line = ascii "quit"
    · simp only [if_pos hexit]
      exact ⟨_, settles_some _⟩
    · by_cases hempty : line = []
      · simp only [if_neg hexit, if_pos hempty]
        exact ⟨_, settles_some _⟩
      · simp only [if_neg hexit, if_neg hempty]
        exact calculate_settles st line .calculator
  | manager cwd =>
    refine iff_of_true ?_ fun hloops => by cases hloops.1
    dsimp only [typedStep]
    have hline : ∃ u, managerLine st cwd (shellTokenize shellArgMax line) = some u := by
      cases shellTokenize shellArgMax line with
      | nil => exact ⟨_, rfl⟩
      | cons word args =>
        rw [managerLine]
        split
        · exact ⟨_, rfl⟩
        · split
          · exact ⟨_, rfl⟩
          · cases args with
            | nil => exact ⟨_, rfl⟩
            | cons second args =>
              rw [managerWords]
              split
              · exact ⟨_, rfl⟩
              · exact h.managerCommand cwd second args _
    obtain ⟨u, hline⟩ := hline
    exact ⟨u, 0, fun fuel _ => hline⟩
  | enter cwd =>
    exact iff_of_true ⟨_, settles_some _⟩ fun hloops => by cases hloops.1
  | editor path text manager =>
    exact iff_of_true ⟨_, settles_some _⟩ fun hloops => by cases hloops.1
  | halted =>
    exact iff_of_true ⟨_, settles_some _⟩ fun hloops => by cases hloops.1

end Progress

section Runs

theorem typed_touch (table : FsState) (cwd : Bytes) : ∃ t,
    runPartial (typedStep 0) ⟨⟨table, cwd⟩, .shell⟩
      [ascii "touch notes", ascii "files", ascii " quit "] = some t := by
  have htouch : shellTokenize shellArgMax (ascii "touch notes") =
      [ascii "touch", ascii "notes"] := by decide
  have hfiles : shellTokenize shellArgMax (ascii "files") = [ascii "files"] := by decide
  have hquit : shellTokenize shellArgMax (ascii " quit ") = [ascii "quit"] := by decide
  have htouchName : shellName (ascii "touch") = some .touch := by decide
  have hfilesName : shellName (ascii "files") = some .files := by decide
  simp only [runPartial_cons, runPartial_nil, typedStep, htouch, hfiles, hquit, shellLine,
    htouchName, hfilesName, shellCommand, Option.bind_some, managerLine, true_or, if_true]
  exact ⟨_, rfl⟩

end Runs

end SnsxOS.X86
