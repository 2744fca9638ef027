import SnsxOS.Arm64.Console
import SnsxOS.X86.Console

/-!
# The current directory always exists

Both shells keep the current directory as a text, and no command looks at it when a directory is
removed or renamed. It exists as long as no command takes it away; the file manager of the x86
edition also enters what a view shows, which is a directory when the view is that of its own slot.
-/

namespace SnsxOS.Editions

open Framework

/-- In both editions the current directory exists as long as no command takes it away. -/
theorem currentDirectory_exists (fs : Arm64.ArmFs) (boot : X86.Multiboot) (start : X86.FsState) :
    (Arm64.FsRooted fs → Arm64.DirPresent fs (ascii "/home") →
      StaysPresent Arm64.DirPresent Arm64.console Arm64.CommandFits Arm64.CommandTakes
        (Arm64.consoleStart fs)) ∧
    (X86.FsTree (X86.fsInit boot start).table.used →
      StaysPresent X86.DirPresent X86.console X86.CommandShows X86.CommandTakes
        (X86.consoleStart (X86.fsInit boot start).table)) :=
  ⟨Arm64.consoleStart_staysPresent,
    fun htree => X86.consoleStart_staysPresent (X86.fsInit_ok boot start htree)⟩

/-- A directory is made, and the file manager leads the shell to the root. -/
theorem currentDirectory_exists_mkdir_up :
    (∃ t, runPartial (Session.step Arm64.console)
      (Arm64.consoleStart (Arm64.fsSeed Arm64.emptySession))
      [.command (.file (.mkdir ⟨ascii "work", by decide⟩)), .openManager, .command (.file .up),
        .quitManager] = some t ∧ Arm64.DirPresent t.files t.current) ∧
    ∃ t, runPartial (Session.step X86.console)
      (X86.consoleStart (X86.fsInit X86.plainBoot X86.zeroTable).table)
      [.command (.mkdir (ascii "work")), .openManager, .command .up, .quitManager] = some t ∧
        X86.DirPresent t.files t.current := by
  obtain ⟨harm, hx86⟩ :=
    currentDirectory_exists (Arm64.fsSeed Arm64.emptySession) X86.plainBoot X86.zeroTable
  constructor
  · apply (harm (Arm64.fsSeed_rooted _) (Arm64.fsSeed_home _)).current
    have hcwd : ascii "/home" ≠ [slash] := by decide
    refine ⟨⟨fun _ => ⟨fun hroot => absurd hroot hcwd, Arm64.not_commandTakes rfl⟩,
      fun _ => Arm64.not_commandTakes rfl⟩, fun _ _ => ?_⟩
    refine ⟨⟨trivial, trivial⟩, fun _ _ => ?_⟩
    refine ⟨⟨fun _ => ⟨trivial, Arm64.not_commandTakes rfl⟩,
      fun _ => Arm64.not_commandTakes rfl⟩, fun _ _ => ?_⟩
    exact ⟨⟨trivial, trivial⟩, fun _ _ => trivial⟩
  · apply (hx86 X86.fsInit_plainBoot_tree).current
    refine ⟨⟨fun _ => ⟨trivial, X86.not_commandTakes rfl⟩,
      fun _ => X86.not_commandTakes rfl⟩, fun _ _ => ?_⟩
    refine ⟨⟨trivial, trivial⟩, fun _ _ => ?_⟩
    refine ⟨⟨fun _ => ⟨trivial, X86.not_commandTakes rfl⟩,
      fun _ => X86.not_commandTakes rfl⟩, fun _ _ => ?_⟩
    exact ⟨⟨trivial, trivial⟩, fun _ _ => trivial⟩

/-- In both editions `mv /home /h` leaves the shell in a directory that is gone. -/
theorem not_currentDirectory_exists :
    (¬ ∀ fs lines t, Arm64.FsRooted fs → Arm64.DirPresent fs (ascii "/home") →
      runPartial (Session.step Arm64.console) (Arm64.consoleStart fs) lines = some t →
        Arm64.DirPresent t.files t.current) ∧
    ¬ ∀ boot start lines t, X86.FsTree (X86.fsInit boot start).table.used →
      runPartial (Session.step X86.console)
        (X86.consoleStart (X86.fsInit boot start).table) lines = some t →
          X86.DirPresent t.files t.current := by
  constructor
  · intro h
    obtain ⟨t, hstep, hgone⟩ := Arm64.consoleStart_mv_home Arm64.emptySession
    have hrun := (runPartial_singleton _ _ _).trans hstep
    exact hgone (h _ _ t (Arm64.fsSeed_rooted _) (Arm64.fsSeed_home _) hrun)
  · intro h
    obtain ⟨t, hstep, hgone⟩ := X86.consoleStart_mv_home
    have hrun := (runPartial_singleton _ _ _).trans hstep
    exact hgone (h _ _ _ t X86.fsInit_plainBoot_tree hrun)

end SnsxOS.Editions
