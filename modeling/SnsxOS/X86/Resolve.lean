import SnsxOS.X86.Directories

/-!
# The path resolver of the x86 shell

`shell_resolve_path_from` joins the word to the current directory in a buffer of 64 bytes, reads
names from it and keeps at most sixteen of them on a stack. The text is cut where the buffer ends,
but what is read from it is always written back as a canonical path.
-/

namespace SnsxOS.X86

open Framework

def dot : UInt8 := 46

def maxComponents : Nat := 16

/-- The buffer `raw` before it is split. -/
def shellResolveRaw (currentDirectory input : Bytes) : Bytes :=
  if input.head? = some slash then strcopyLimit input fsPathMax
  else if currentDirectory = [slash] then slash :: strcopyLimit input (fsPathMax - 1)
  else
    let raw := strcopyLimit currentDirectory fsPathMax
    let raw := if raw.length + 1 < fsPathMax then raw ++ [slash] else raw
    raw ++ strcopyLimit input (fsPathMax - raw.length)

/-- The tokens of `raw`. -/
def shellTokens (raw : Bytes) : List Bytes := limitedNames slash fsPathMax [] raw

/-- What a token does to the components read before it. -/
def shellPushComponent (components : List Bytes) (token : Bytes) : List Bytes :=
  if token = [dot] then components
  else if token = [dot, dot] then components.dropLast
  else if components.length < maxComponents then components ++ [strcopyLimit token fsPathMax]
  else components

/-- The output loop stops for good once the buffer is full. -/
def shellJoinComponents (components : List Bytes) : Bytes :=
  strcopyLimit (slash :: joinNames slash components) fsPathMax

def shellResolvePathFrom (currentDirectory input : Bytes) : Bytes :=
  if input = [] then strcopyLimit currentDirectory fsPathMax
  else shellJoinComponents
    ((shellTokens (shellResolveRaw currentDirectory input)).foldl shellPushComponent [])

example : shellResolvePathFrom (ascii "/home") (ascii "../docs/./A") = ascii "/docs/A" := by
  decide

/-- A canonical directory: absolute, within the buffer, and the root or without empty, `.` and
`..` components, which leaves no trailing slash either. -/
structure CanonicalDirectory (path : Bytes) : Prop where
  absolute : path.head? = some slash
  names : path = [slash] ∨ ∀ component ∈ path.tail.splitOn slash,
    component ≠ [] ∧ component ≠ [dot] ∧ component ≠ [dot, dot]
  nulFree : NulFree path
  fits : path.length < fsPathMax

theorem canonicalDirectory_iff {path : Bytes} : CanonicalDirectory path ↔
    NormalPath slash dot path ∧ NulFree path ∧ path.length < fsPathMax := by
  rw [normalPath_iff]
  constructor
  · intro h
    exact ⟨⟨h.absolute, h.names⟩, h.nulFree, h.fits⟩
  · intro h
    obtain ⟨⟨habs, hnames⟩, hnul, hfit⟩ := h
    exact ⟨habs, hnames, hnul, hfit⟩

theorem CanonicalDirectory.normal {path : Bytes} (h : CanonicalDirectory path) :
    NormalPath slash dot path := (canonicalDirectory_iff.mp h).1

section Resolve

variable {currentDirectory input raw : Bytes}

/-- The text that is split is absolute and stays within its buffer. -/
theorem shellResolveRaw_absolute (hcwd : currentDirectory.head? = some slash) (input : Bytes) :
    (shellResolveRaw currentDirectory input).head? = some slash ∧
      (shellResolveRaw currentDirectory input).length < fsPathMax := by
  rw [shellResolveRaw]
  split
  · rename_i habs
    refine ⟨?_, length_strcopyLimit_lt input (by decide)⟩
    cases input with
    | nil => exact absurd habs (by simp)
    | cons c input => simpa [strcopyLimit, fsPathMax] using habs
  · split
    · have hlen := length_strcopyLimit_lt input (show 0 < fsPathMax - 1 by decide)
      refine ⟨rfl, ?_⟩
      rw [List.length_cons]
      omega
    · have hhead : (strcopyLimit currentDirectory fsPathMax).head? = some slash := by
        cases currentDirectory with
        | nil => exact absurd hcwd (by simp)
        | cons c rest => simpa [strcopyLimit, fsPathMax] using hcwd
      have hcwdlen := length_strcopyLimit_lt currentDirectory (show 0 < fsPathMax by decide)
      generalize strcopyLimit currentDirectory fsPathMax = raw at *
      dsimp only
      split
      · have hlen := length_strcopyLimit_lt input
          (show 0 < fsPathMax - (raw ++ [slash]).length by simp; omega)
        refine ⟨by simp [hhead], ?_⟩
        rw [List.length_append]
        omega
      · have hlen := length_strcopyLimit_lt input (show 0 < fsPathMax - raw.length by omega)
        refine ⟨by simp [hhead], ?_⟩
        rw [List.length_append]
        omega

/-- It has no terminator inside. -/
theorem shellResolveRaw_nulFree (hnul : NulFree currentDirectory) (hinput : NulFree input) :
    NulFree (shellResolveRaw currentDirectory input) := by
  rw [shellResolveRaw]
  split
  · exact hinput.take _
  · split
    · exact NulFree.append (s := [slash]) (by decide) (hinput.take _)
    · have hcopy : NulFree (strcopyLimit currentDirectory fsPathMax) := hnul.take _
      dsimp only
      split
      · exact (hcopy.append (by decide)).append (hinput.take _)
      · exact hcopy.append (hinput.take _)

/-- Tokens are short enough to be copied whole, so the stack is the capped one. -/
theorem foldl_shellPushComponent {tokens : List Bytes}
    (h : ∀ token ∈ tokens, token.length < fsPathMax) :
    tokens.foldl shellPushComponent [] = cappedNames dot maxComponents tokens := by
  have hstep : ∀ components token, token.length < fsPathMax →
      shellPushComponent components token = cappedStep dot maxComponents components token := by
    intro components token hlen
    rw [shellPushComponent, strcopyLimit_of_lt hlen]
    rfl
  rw [cappedNames]
  generalize ([] : List Bytes) = components
  induction tokens generalizing components with
  | nil => rfl
  | cons token tokens ih =>
    rw [List.foldl_cons, List.foldl_cons, hstep components token (h token (by simp)),
      ih (fun t ht => h t (by simp [ht]))]

theorem shellTokens_eq (hfit : raw.length < fsPathMax) : shellTokens raw = pathNames slash raw := by
  rw [shellTokens, limitedNames_eq [] raw List.not_mem_nil (by simpa using hfit), List.nil_append]

/-- What the resolver makes of the text that is split. -/
theorem shellJoinComponents_eq (habs : raw.head? = some slash) (hfit : raw.length < fsPathMax) :
    shellJoinComponents ((shellTokens raw).foldl shellPushComponent []) =
      slash :: joinNames slash (cappedNames dot maxComponents (pathNames slash raw)) := by
  have hshort : ∀ token ∈ pathNames slash raw, token.length < fsPathMax := by
    intro token ht
    exact lt_of_le_of_lt (length_le_of_mem_pathNames ht) hfit
  rw [shellTokens_eq hfit, foldl_shellPushComponent hshort, shellJoinComponents,
    strcopyLimit_of_lt (lt_of_le_of_lt (length_cappedPath_le maxComponents habs) hfit)]

/-- What the resolver writes from an absolute text is canonical. -/
theorem canonicalDirectory_capped (habs : raw.head? = some slash) (hnul : NulFree raw)
    (hfit : raw.length < fsPathMax) : CanonicalDirectory
      (slash :: joinNames slash (cappedNames dot maxComponents (pathNames slash raw))) := by
  apply canonicalDirectory_iff.mpr
  exact ⟨normalPath_capped slash dot maxComponents raw,
    hnul.mono (cappedPath_subset maxComponents habs),
    lt_of_le_of_lt (length_cappedPath_le maxComponents habs) hfit⟩

/-- The resolver as lexical normalisation with a capped stack. -/
theorem shellResolvePathFrom_eq (hcwd : currentDirectory.head? = some slash) (hne : input ≠ []) :
    shellResolvePathFrom currentDirectory input =
      slash :: joinNames slash (cappedNames dot maxComponents
        (pathNames slash (shellResolveRaw currentDirectory input))) := by
  obtain ⟨habs, hfit⟩ := shellResolveRaw_absolute hcwd input
  rw [shellResolvePathFrom, if_neg hne, shellJoinComponents_eq habs hfit]

/-- Whatever is resolved in a canonical directory is canonical. -/
theorem shellResolvePathFrom_canonical (hcwd : CanonicalDirectory currentDirectory)
    (hinput : NulFree input) :
    CanonicalDirectory (shellResolvePathFrom currentDirectory input) := by
  by_cases hne : input = []
  · rw [shellResolvePathFrom, if_pos hne, strcopyLimit_of_lt hcwd.fits]
    exact hcwd
  · obtain ⟨habs, hfit⟩ := shellResolveRaw_absolute hcwd.absolute input
    rw [shellResolvePathFrom_eq hcwd.absolute hne]
    exact canonicalDirectory_capped habs (shellResolveRaw_nulFree hcwd.nulFree hinput) hfit

/-- An absolute canonical path is resolved to its first sixteen components in any directory. -/
theorem shellResolvePathFrom_absolute {path : Bytes} (hpath : CanonicalDirectory path)
    (directory : Bytes) : shellResolvePathFrom directory path =
      slash :: joinNames slash ((pathNames slash path).take maxComponents) := by
  have hne : path ≠ [] := by
    intro hnil
    have habs := hpath.absolute
    rw [hnil] at habs
    cases habs
  have hraw : shellResolveRaw directory path = path := by
    rw [shellResolveRaw, if_pos hpath.absolute, strcopyLimit_of_lt hpath.fits]
  rw [shellResolvePathFrom, if_neg hne, hraw, shellJoinComponents_eq hpath.absolute hpath.fits,
    cappedNames_of_proper hpath.normal.proper]

/-- A canonical path is a fixed point of the resolver exactly when the stack holds it. -/
theorem shellResolvePathFrom_fixed_iff {path : Bytes} (hpath : CanonicalDirectory path) :
    (∀ directory, shellResolvePathFrom directory path = path) ↔
      (pathNames slash path).length ≤ maxComponents := by
  have hnormal := hpath.normal
  constructor
  · intro hfix
    have hsame := hfix []
    rw [shellResolvePathFrom_absolute hpath] at hsame
    have hnames := congrArg (pathNames slash) hsame
    rw [pathNames_of_proper fun name hn => hnormal.proper name (List.mem_of_mem_take hn)] at hnames
    rw [← hnames, List.length_take]
    omega
  · intro hlen directory
    rw [shellResolvePathFrom_absolute hpath, List.take_of_length_le hlen, ← hnormal.eq]

/-- Resolution in a directory yields a canonical path that every later resolution keeps. -/
structure ResolvesStably (currentDirectory input : Bytes) : Prop where
  canonical : CanonicalDirectory (shellResolvePathFrom currentDirectory input)
  stable : ∀ directory, shellResolvePathFrom directory
      (shellResolvePathFrom currentDirectory input) =
    shellResolvePathFrom currentDirectory input

/-- Resolution is stable except for the empty word in a directory of more than sixteen
components, which is copied whole. -/
theorem shellResolvePathFrom_stable_iff (currentDirectory input : Bytes)
    (hcwd : CanonicalDirectory currentDirectory) (hinput : NulFree input) :
    ResolvesStably currentDirectory input ↔
      (input ≠ [] ∨ (pathNames slash currentDirectory).length ≤ maxComponents) := by
  have hcanonical := shellResolvePathFrom_canonical hcwd hinput
  have hstable : ResolvesStably currentDirectory input ↔
      (pathNames slash (shellResolvePathFrom currentDirectory input)).length ≤ maxComponents := by
    rw [← shellResolvePathFrom_fixed_iff hcanonical]
    exact ⟨fun h => h.stable, fun h => ⟨hcanonical, h⟩⟩
  rw [hstable]
  by_cases hne : input = []
  · rw [shellResolvePathFrom, if_pos hne, strcopyLimit_of_lt hcwd.fits]
    simp [hne]
  · rw [shellResolvePathFrom_eq hcwd.absolute hne,
      pathNames_of_proper (proper_cappedNames slash dot _ _)]
    simp [hne, length_cappedNames_le]

/-- A relative word in the initial directory. -/
theorem shellResolvePathFrom_stable_iff_home :
    CanonicalDirectory (ascii "/home") ∧
      (ResolvesStably (ascii "/home") (ascii "../docs") ↔ (ascii "../docs" ≠ [] ∨
        (pathNames slash (ascii "/home")).length ≤ maxComponents)) := by
  have hcwd : CanonicalDirectory (ascii "/home") :=
    ⟨rfl, Or.inr (by decide), by decide, by decide⟩
  exact ⟨hcwd, shellResolvePathFrom_stable_iff _ _ hcwd (by decide)⟩

/-- A directory of seventeen components is the result of the empty word, and resolving it again
drops the last one. -/
theorem not_shellResolvePathFrom_stable : ¬ ∀ currentDirectory input,
    CanonicalDirectory currentDirectory → NulFree input →
      ResolvesStably currentDirectory input := by
  intro h
  have hcwd : CanonicalDirectory (List.replicate 17 [slash, 97]).flatten :=
    ⟨rfl, Or.inr (by decide +kernel), by decide +kernel, by decide +kernel⟩
  have hstable := (h _ [] hcwd (by decide)).stable []
  revert hstable
  decide +kernel

end Resolve

end SnsxOS.X86
