import SnsxOS.X86.Resolve
import SnsxOS.X86.Move

/-!
# The x86 shell and its current directory

The shell resolves words against `g_current_directory`, a text that is kept apart from the table.
The file manager works on a copy of it and stores the copy back when it is left; it finds its
entries through the views that `fs_list` hands out.
-/

namespace SnsxOS.X86

open Framework

structure ShellState where
  table : FsState
  currentDirectory : Bytes

namespace ShellState

def resolvePath (st : ShellState) (path : Bytes) : Bytes :=
  shellResolvePathFrom st.currentDirectory path

end ShellState

/-- `command_cd`, with whether the directory was accepted. -/
def commandCd (st : ShellState) (path : Bytes) : Bool × ShellState :=
  let absolutePath := st.resolvePath path
  if fsIsDir st.table absolutePath then
    (true, { st with currentDirectory := strcopyLimit absolutePath fsPathMax })
  else (false, st)

section Cd

variable {st : ShellState}

/-- `cd` takes a word exactly when its resolved path is listed and is a parent of new entries. -/
structure CdAgrees (st : ShellState) (path : Bytes) : Prop where
  list : (commandCd st path).1 = true ↔ FsListable st.table (st.resolvePath path)
  parent : (commandCd st path).1 = true ↔ FsParent st.table (st.resolvePath path)

theorem commandCd_fst (st : ShellState) (path : Bytes) :
    (commandCd st path).1 = fsIsDir st.table (st.resolvePath path) := by
  cases h : fsIsDir st.table (st.resolvePath path) <;> simp [commandCd, h]

theorem cdAgrees_iff (path : Bytes) :
    CdAgrees st path ↔ DirectoryTestsAgree st.table (st.resolvePath path) := by
  constructor
  · intro h
    exact ⟨by rw [← commandCd_fst]; exact h.list, by rw [← commandCd_fst]; exact h.parent⟩
  · intro h
    exact ⟨by rw [commandCd_fst]; exact h.list, by rw [commandCd_fst]; exact h.parent⟩

/-- A canonical path other than the root has a character besides its slashes. -/
theorem CanonicalDirectory.ne_root_iff {path : Bytes} (h : CanonicalDirectory path) :
    path ≠ [slash] ↔ ∃ c ∈ path, c ≠ slash := by
  have hnames : (∃ c ∈ path, c ≠ slash) ↔ pathNames slash path ≠ [] := by
    rw [Ne, pathNames_eq_nil]
    push Not
    rfl
  rw [hnames, not_iff_not]
  constructor
  · intro hroot
    rw [hroot]
    rfl
  · intro hnil
    rw [h.normal.eq, hnil]
    rfl

/-- The tests of a directory agree on every path but the spellings of the root, and `cd` agrees
with them except where its word resolves to the root. -/
theorem directoryTests_agree_iff (table : FsState) (h : FsReachable table) :
    (∀ path, DirectoryTestsAgree table path ↔ ∃ c ∈ path, c ≠ slash) ∧
      ∀ currentDirectory path, CanonicalDirectory currentDirectory → NulFree path →
        (CdAgrees ⟨table, currentDirectory⟩ path ↔
          shellResolvePathFrom currentDirectory path ≠ [slash]) := by
  constructor
  · exact fun path => directoryTestsAgree_iff h.labelled path
  · intro currentDirectory path hcwd hpath
    rw [cdAgrees_iff, ShellState.resolvePath, directoryTestsAgree_iff h.labelled,
      (shellResolvePathFrom_canonical hcwd hpath).ne_root_iff]

/-- A machine that was booted without a module. -/
def plainBoot : Multiboot := ⟨0, 0, 0, 0, 0, fun _ => 0⟩

theorem fsReachable_plainBoot : FsReachable (fsInit plainBoot zeroTable).table :=
  ⟨plainBoot, zeroTable, [], rfl⟩

/-- The table of a machine booted without a module. -/
theorem directoryTests_agree_iff_plainBoot :
    (∀ path, DirectoryTestsAgree (fsInit plainBoot zeroTable).table path ↔
      ∃ c ∈ path, c ≠ slash) ∧
      ∀ currentDirectory path, CanonicalDirectory currentDirectory → NulFree path →
        (CdAgrees ⟨(fsInit plainBoot zeroTable).table, currentDirectory⟩ path ↔
          shellResolvePathFrom currentDirectory path ≠ [slash]) :=
  directoryTests_agree_iff _ fsReachable_plainBoot

/-- `cd /` is refused although the root is listed. -/
theorem not_directoryTests_agree : ¬ ∀ table, FsReachable table → ∀ path,
    DirectoryTestsAgree table path := by
  intro h
  have hagree := h _ fsReachable_plainBoot [slash]
  have honly : ∀ c ∈ [slash], c = slash := by simp
  obtain ⟨hlist, -, hdir⟩ := root_not_dir fsReachable_plainBoot.labelled honly
  rw [hagree.list.mpr hlist] at hdir
  cases hdir

end Cd

end SnsxOS.X86
