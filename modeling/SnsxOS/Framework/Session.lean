import SnsxOS.Framework.Transition

/-!
# A current directory and a working copy of it

A shell runs commands in its current directory, which it keeps apart from the files. A file
manager started from it works on a copy of the directory and stores the copy back when it is left.
Commands that keep the directory they work in, and do not take other ones away, keep both.
-/

namespace SnsxOS.Framework

structure Session (φ δ : Type*) where
  files : φ
  current : δ
  /-- the directory of the file manager while it is open -/
  manager : Option δ

inductive Line (ι : Type*) where
  | openManager
  | quitManager
  | command (c : ι)

variable {φ δ ι : Type*}

/-- The commands of a shell: `reads b` are those read when the file manager is open (`b = true`)
or not, and every other line is ignored. -/
structure Interpreter (φ δ ι : Type*) where
  copy : δ → δ
  reads : Bool → ι → Bool
  exec : φ → δ → ι → Option (φ × δ)

namespace Session

/-- The directory that commands work in. -/
def working (s : Session φ δ) : δ := s.manager.getD s.current

/-- The session with new files and another working directory. -/
def update (s : Session φ δ) (result : φ × δ) : Session φ δ :=
  match s.manager with
  | none => ⟨result.1, result.2, none⟩
  | some _ => ⟨result.1, s.current, some result.2⟩

def step (shell : Interpreter φ δ ι) (s : Session φ δ) : Line ι → Option (Session φ δ)
  | .openManager => match s.manager with
      | none => some { s with manager := some (shell.copy s.current) }
      | some _ => some s
  | .quitManager => match s.manager with
      | none => some s
      | some directory => some ⟨s.files, shell.copy directory, none⟩
  | .command c =>
      if shell.reads s.manager.isSome c then (shell.exec s.files s.working c).map s.update
      else some s

/-- A command read at the prompt. -/
theorem step_command {shell : Interpreter φ δ ι} {files : φ} {directory : δ} {c : ι}
    {result : φ × δ} (hreads : shell.reads false c = true)
    (hexec : shell.exec files directory c = some result) :
    step shell ⟨files, directory, none⟩ (.command c) = some ⟨result.1, result.2, none⟩ := by
  have hread : shell.reads (⟨files, directory, none⟩ : Session φ δ).manager.isSome c = true :=
    hreads
  have hrun : shell.exec files (⟨files, directory, none⟩ : Session φ δ).working c = some result :=
    hexec
  rw [step, if_pos hread, hrun]
  rfl

end Session

section Presence

variable (Ok : φ → Prop) (Present : φ → δ → Prop)

/-- Present directories stay present unless they are taken away. -/
structure Kept (takes : δ → Prop) (files files' : φ) : Prop where
  ok : Ok files'
  kept : ∀ directory, Present files directory → ¬ takes directory → Present files' directory

/-- A command keeps directories, and the one it works in leads to a present one. -/
structure Leads (takes : δ → Prop) (files : φ) (directory : δ) (result : φ × δ) : Prop where
  files : Kept Ok Present takes files result.1
  directory : ¬ takes directory → Present result.1 result.2

variable {Ok Present} {takes : δ → Prop} {files files' files'' : φ} {directory : δ}

theorem Kept.refl (h : Ok files) (takes : δ → Prop) : Kept Ok Present takes files files :=
  ⟨h, fun _ hdir _ => hdir⟩

theorem Kept.trans (h : Kept Ok Present takes files files')
    (h' : Kept Ok Present takes files' files'') : Kept Ok Present takes files files'' :=
  ⟨h'.ok, fun directory hdir hkept => h'.kept directory (h.kept directory hdir hkept) hkept⟩

theorem Leads.stay (hdir : Present files directory) (h : Kept Ok Present takes files files') :
    Leads Ok Present takes files directory (files', directory) := ⟨h, h.kept directory hdir⟩

theorem Leads.enter {entered : δ} (h : Ok files) (hdir : Present files entered) :
    Leads Ok Present takes files directory (files, entered) := ⟨.refl h takes, fun _ => hdir⟩

variable (Ok Present) (shell : Interpreter φ δ ι) (Safe : φ → δ → ι → Prop)
  (Takes : φ → δ → ι → δ → Prop)

/-- In a present directory safe commands work and keep what they do not take away. -/
structure Respects : Prop where
  copy : ∀ files directory, Ok files → Present files directory →
    Present files (shell.copy directory)
  exec : ∀ files directory c, Ok files → Present files directory → Safe files directory c →
    ∃ result, shell.exec files directory c = some result ∧
      Leads Ok Present (Takes files directory c) files directory result

/-- The command that is read is safe and does not take away the directory it works in. -/
def KeepsWorking (s : Session φ δ) : Line ι → Prop
  | .command c => shell.reads s.manager.isSome c = true →
      Safe s.files s.working c ∧ ¬ Takes s.files s.working c s.working
  | _ => True

/-- Nor does it take away the current directory behind the file manager. -/
def KeepsBoth (s : Session φ δ) (line : Line ι) : Prop :=
  KeepsWorking shell Safe Takes s line ∧ match line with
    | .command c => shell.reads s.manager.isSome c = true → ¬ Takes s.files s.working c s.current
    | _ => True

/-- The directory that commands work in is present. -/
structure Session.Working (s : Session φ δ) : Prop where
  ok : Ok s.files
  present : Present s.files s.working

/-- In runs whose commands keep the working directory it is present at every point, so that the
current directory is present at every prompt; in runs whose commands take neither directory away
the current one is present at every point. -/
structure StaysPresent (s : Session φ δ) : Prop where
  working : ∀ lines, GuardedPartial (Session.step shell) (KeepsWorking shell Safe Takes) s lines →
    ∃ t, runPartial (Session.step shell) s lines = some t ∧ Present t.files t.working
  current : ∀ lines, GuardedPartial (Session.step shell) (KeepsBoth shell Safe Takes) s lines →
    ∃ t, runPartial (Session.step shell) s lines = some t ∧ Present t.files t.current

variable {Ok Present shell Safe Takes}

theorem Session.Working.step (h : Respects Ok Present shell Safe Takes) {s : Session φ δ}
    (hs : s.Working Ok Present) (line : Line ι) (hline : KeepsWorking shell Safe Takes s line) :
    ∃ t, s.step shell line = some t ∧ t.Working Ok Present := by
  obtain ⟨files, current, manager⟩ := s
  cases line with
  | openManager =>
    cases manager with
    | none => exact ⟨_, rfl, hs.ok, h.copy _ _ hs.ok hs.present⟩
    | some directory => exact ⟨_, rfl, hs⟩
  | quitManager =>
    cases manager with
    | none => exact ⟨_, rfl, hs⟩
    | some directory => exact ⟨_, rfl, hs.ok, h.copy _ _ hs.ok hs.present⟩
  | command c =>
    rw [Session.step]
    split
    · rename_i hreads
      obtain ⟨hsafe, hkept⟩ := hline hreads
      obtain ⟨result, hresult, hleads⟩ := h.exec _ _ _ hs.ok hs.present hsafe
      rw [hresult]
      refine ⟨_, rfl, ?_⟩
      cases manager with
      | none => exact ⟨hleads.files.ok, hleads.directory hkept⟩
      | some directory => exact ⟨hleads.files.ok, hleads.directory hkept⟩
    · exact ⟨_, rfl, hs⟩

/-- A line that takes neither directory away keeps the current one as well. -/
theorem Session.Working.step_current (h : Respects Ok Present shell Safe Takes)
    {s t : Session φ δ} (hs : s.Working Ok Present) (hcurrent : Present s.files s.current)
    {line : Line ι} (hline : KeepsBoth shell Safe Takes s line)
    (hstep : s.step shell line = some t) : Present t.files t.current := by
  obtain ⟨files, current, manager⟩ := s
  cases line with
  | openManager =>
    cases manager <;> obtain rfl := Option.some.inj hstep <;> exact hcurrent
  | quitManager =>
    cases manager with
    | none =>
      obtain rfl := Option.some.inj hstep
      exact hcurrent
    | some directory =>
      obtain rfl := Option.some.inj hstep
      exact h.copy _ _ hs.ok hs.present
  | command c =>
    rw [Session.step] at hstep
    split at hstep
    · rename_i hreads
      obtain ⟨hsafe, hkept⟩ := hline.1 hreads
      obtain ⟨result, hresult, hleads⟩ := h.exec _ _ _ hs.ok hs.present hsafe
      rw [hresult] at hstep
      obtain rfl := Option.some.inj hstep
      cases manager with
      | none => exact hleads.directory hkept
      | some directory => exact hleads.files.kept _ hcurrent (hline.2 hreads)
    · obtain rfl := Option.some.inj hstep
      exact hcurrent

theorem Session.Working.staysPresent (h : Respects Ok Present shell Safe Takes) {s : Session φ δ}
    (hs : s.Working Ok Present) (hcurrent : Present s.files s.current) :
    StaysPresent Present shell Safe Takes s := by
  constructor
  · intro lines hlines
    obtain ⟨t, ht, hworking⟩ := runPartial_invariant_of_guarded (I := fun s => s.Working Ok Present)
      (fun _ line hs hline => hs.step h line hline) hs lines hlines
    exact ⟨t, ht, hworking.present⟩
  · intro lines hlines
    obtain ⟨t, ht, -, hpresent⟩ := runPartial_invariant_of_guarded
      (I := fun s => s.Working Ok Present ∧ Present s.files s.current)
      (fun s line hs hline => by
        obtain ⟨t, ht, hworking⟩ := hs.1.step h line hline.1
        exact ⟨t, ht, hworking, hs.1.step_current h hs.2 hline ht⟩)
      ⟨hs, hcurrent⟩ lines hlines
    exact ⟨t, ht, hpresent⟩

/-- What is present in a stronger sense is so in a weaker one. -/
theorem StaysPresent.mono {Present' : φ → δ → Prop}
    (himp : ∀ files directory, Present files directory → Present' files directory)
    {s : Session φ δ} (h : StaysPresent Present shell Safe Takes s) :
    StaysPresent Present' shell Safe Takes s := by
  constructor
  · intro lines hlines
    obtain ⟨t, ht, hpresent⟩ := h.working lines hlines
    exact ⟨t, ht, himp _ _ hpresent⟩
  · intro lines hlines
    obtain ⟨t, ht, hpresent⟩ := h.current lines hlines
    exact ⟨t, ht, himp _ _ hpresent⟩

end Presence

end SnsxOS.Framework
