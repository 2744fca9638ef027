import SnsxOS.Arm64.Desktop
import SnsxOS.Arm64.Seed

/-!
# The code studio

The file that `g_studio` is at, the text its state is kept as, and the sample programs that
`studio_seed_workspace` puts into the projects directory.
-/

namespace SnsxOS.Arm64

open Framework

/-- The file, the language and the last action of `g_studio`. -/
structure Studio where
  activePath : Bytes
  language : Bytes
  lastAction : Bytes
  deriving DecidableEq

def studioLanguageForPath (path : Bytes) : Bytes :=
  match strrchr path 46 with
  | none => ascii "text"
  | some dot =>
      if dot = ascii ".py" then ascii "python"
      else if dot = ascii ".js" then ascii "javascript"
      else if dot = ascii ".c" then ascii "c"
      else if dot = ascii ".cpp" ∨ dot = ascii ".cc" ∨ dot = ascii ".cxx" then ascii "cpp"
      else if dot = ascii ".html" ∨ dot = ascii ".htm" then ascii "html"
      else if dot = ascii ".css" then ascii "css"
      else if dot = ascii ".snsx" then ascii "snsx"
      else ascii "text"

def studioCollectSource (fs : ArmFs) (path : Bytes) : Option Bytes :=
  match fsEntry fs path with
  | none => none
  | some entry => if entry.type = .text then some entry.bytes else none

def studioPath : Bytes := ascii "/home/.SNSX_STUDIO.TXT"

def studioDefault : Studio where
  activePath := ascii "/projects/main.snsx"
  language := ascii "snsx"
  lastAction := ascii "idle"

/-- The string that `studio_state_save` builds. -/
def studioText (studio : Studio) : Bytes := unlines newline [
  ascii "PATH=" ++ studio.activePath,
  ascii "LANG=" ++ studio.language,
  ascii "ACTION=" ++ studio.lastAction]

def studioStateSave (studio : Studio) (fs : ArmFs) : ArmFs :=
  (fsWriteIfChanged fs studioPath (studioText studio) .text).2

def studioKeys : List (Bytes × (Bytes → Studio → Studio)) := [
  (ascii "PATH=", fun text studio => { studio with activePath := strcopyLimit text fsPathMax }),
  (ascii "LANG=", fun text studio => { studio with language := strcopyLimit text 16 }),
  (ascii "ACTION=", fun text studio => { studio with lastAction := strcopyLimit text 24 })]

def studioStateLoad (fs : ArmFs) : Studio × ArmFs :=
  match stateText fs studioPath 512 with
  | none => (studioDefault, studioStateSave studioDefault fs)
  | some text => ((linesOf newline text).foldl (keyedLine studioKeys) studioDefault, fs)

/-- The sample programs. -/
def workspaceFiles : List (Bytes × Bytes) := [
  (ascii "/projects/main.snsx", textLines [
    "bring <module/std.io> as io",
    "bring <module/std.ai> as ai",
    "",
    "mind summarize",
    "    takes text: String",
    "    gives String",
    "    from \"Summarize this text\"",
    "",
    "entry",
    "    show \"hello from SNSX Code Studio\"",
    "    hold summary = \"Edit this file, then run it from the Studio app.\" |> summarize",
    "    show summary",
    "    0"]),
  (ascii "/projects/main.py", textLines ["print('hello from SNSX Python bridge')"]),
  (ascii "/projects/main.js", textLines ["console.log('hello from SNSX JavaScript bridge');"]),
  (ascii "/projects/main.c", textLines [
    "#include <stdio.h>",
    "int main(void) \x7b",
    "    puts(\"hello from SNSX C bridge\");",
    "    return 0;",
    "\x7d"]),
  (ascii "/projects/main.cpp", textLines [
    "#include <iostream>",
    "int main() \x7b",
    "    std::cout << \"hello from SNSX C++ bridge\" << std::endl;",
    "    return 0;",
    "\x7d"]),
  (ascii "/projects/index.html", textLines [
    "<!doctype html>",
    "<html><head><title>SNSX Preview</title></head><body><h1>SNSX HTML Workspace</h1><p>Edit this file in Code Studio.</p></body></html>"]),
  (ascii "/projects/style.css", textLines [
    "body \x7b font-family: sans-serif; background: #eef3f8; color: #223; \x7d",
    "h1 \x7b color: #0b5bd3; \x7d"])]

def studioSeedWorkspace (fs : ArmFs) : ArmFs :=
  let fs := (fsMkdir (fsMkdir fs (ascii "/projects")).2 (ascii "/downloads")).2
  workspaceFiles.foldl (fun fs file => (fsWriteIfChanged fs file.1 file.2 .text).2) fs

theorem workspaceFiles_fit : ∀ file ∈ workspaceFiles, file.2.length ≤ fsMaxFileSize := by
  intro file hfile
  simp only [workspaceFiles, List.mem_cons, List.not_mem_nil, or_false] at hfile
  rcases hfile with rfl | rfl | rfl | rfl | rfl | rfl | rfl
  all_goals
    repeat (apply length_textLines_cons; decide +kernel)
    exact Nat.zero_le _

def studioLanguages : List Bytes :=
  [ascii "text", ascii "python", ascii "javascript", ascii "c", ascii "cpp", ascii "html",
    ascii "css", ascii "snsx"]

theorem studioLanguageForPath_mem (path : Bytes) :
    studioLanguageForPath path ∈ studioLanguages := by
  rw [studioLanguageForPath, studioLanguages]
  cases strrchr path 46 with
  | none => simp
  | some dot =>
    dsimp only
    split_ifs <;> simp

end SnsxOS.Arm64
