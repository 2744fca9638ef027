import SnsxOS.Arm64.FileSystem
import SnsxOS.Framework.PathNames

/-!
# Canonical paths and the path resolver

A canonical path is absolute and has no empty, `.` or `..` components. Whatever
`resolve_path_from` makes of a word in a canonical directory is the root or a canonical path that
fits, unless a long word at the root runs over the local buffer `raw`.
-/

namespace SnsxOS.Arm64

open Framework

def dot : UInt8 := 46

/-- A component that stands for a name of its own. -/
def NameComponent (component : Bytes) : Prop :=
  component ≠ [] ∧ component ≠ [dot] ∧ component ≠ [dot, dot]

instance : DecidablePred NameComponent := fun component =>
  inferInstanceAs (Decidable (component ≠ [] ∧ component ≠ [dot] ∧ component ≠ [dot, dot]))

/-- The components of an absolute path. -/
def components (path : Bytes) : List Bytes := path.tail.splitOn slash

structure CanonicalPath (path : Bytes) : Prop where
  absolute : path.head? = some slash
  nulFree : NulFree path
  names : ∀ component ∈ components path, NameComponent component

instance : DecidablePred CanonicalPath := fun path =>
  decidable_of_iff (path.head? = some slash ∧ NulFree path ∧
      ∀ component ∈ components path, NameComponent component)
    ⟨fun h => ⟨h.1, h.2.1, h.2.2⟩, fun h => ⟨h.absolute, h.nulFree, h.names⟩⟩

example : CanonicalPath (ascii "/home/NOTES.TXT") ∧ ¬ CanonicalPath (ascii "/home/../tmp") ∧
    ¬ CanonicalPath (ascii "/home/") ∧ ¬ CanonicalPath (ascii "/") := by decide

/-- The tokens of `raw` from the token read so far on. -/
def resolveTokens : Bytes → Bytes → List Bytes
  | token, [] => if token = [] then [] else [token]
  | token, c :: raw =>
      if c = slash then
        if token = [] then resolveTokens [] raw else token :: resolveTokens [] raw
      else if token.length + 1 < fsPathMax then resolveTokens (token ++ [c]) raw
      else token :: resolveTokens [c] raw

def maxComponents : Nat := 16

/-- What a token does to the components read before it. -/
def pushComponent (names : List Bytes) (token : Bytes) : List Bytes :=
  if token = [dot] then names
  else if token = [dot, dot] then names.dropLast
  else if names.length < maxComponents then names ++ [token]
  else names

/-- The buffer `raw` before it is split; `none` when the word runs past its end. -/
def resolveRaw (cwd input : Bytes) : Option Bytes :=
  if input.head? = some slash then some (strcopyLimit input fsPathMax)
  else if cwd = [slash] then
    if fsPathMax < input.length + 2 then none else some (slash :: input)
  else
    let raw := strcopyLimit cwd fsPathMax
    let raw := if raw.length + 1 < fsPathMax then raw ++ [slash] else raw
    some (if raw.length + input.length + 1 < fsPathMax then raw ++ input else raw)

/-- The output loop stops for good once the buffer is full. -/
def joinComponents (names : List Bytes) : Bytes :=
  strcopyLimit (slash :: [slash].intercalate names) fsPathMax

def resolvePathFrom (cwd input : Bytes) : Option Bytes :=
  if input = [] then some (strcopyLimit cwd fsPathMax)
  else (resolveRaw cwd input).map fun raw =>
    joinComponents ((resolveTokens [] raw).foldl pushComponent [])

example : resolvePathFrom (ascii "/home") (ascii "../docs/./A") = some (ascii "/docs/A") := by
  decide

section Canonical

variable {path a b : Bytes}

theorem CanonicalPath.ne_nil (h : CanonicalPath path) : path ≠ [] := by
  rintro rfl
  exact absurd h.absolute (by simp)

theorem not_canonicalPath_root : ¬ CanonicalPath [slash] := by decide

theorem CanonicalPath.ne_root (h : CanonicalPath path) : path ≠ [slash] := by
  rintro rfl
  exact not_canonicalPath_root h

theorem components_append (ha : a ≠ []) (b : Bytes) :
    components (a ++ slash :: b) = components a ++ components (slash :: b) := by
  rw [components, List.tail_append_of_ne_nil ha, List.splitOn_append_cons_self]
  rfl

theorem canonicalPath_append (ha : a.head? = some slash) :
    CanonicalPath (a ++ slash :: b) ↔ CanonicalPath a ∧ CanonicalPath (slash :: b) := by
  have hne : a ≠ [] := by
    rintro rfl
    exact absurd ha (by simp)
  constructor
  · intro h
    have hnames := h.names
    rw [components_append hne] at hnames
    refine ⟨⟨ha, h.nulFree.mono (List.subset_append_left _ _), fun c hc =>
      hnames c (List.mem_append_left _ hc)⟩, ⟨rfl, h.nulFree.mono (List.subset_append_right _ _),
      fun c hc => hnames c (List.mem_append_right _ hc)⟩⟩
  · intro h
    refine ⟨?_, h.1.nulFree.append h.2.nulFree, ?_⟩
    · rw [List.head?_append, ha, Option.some_or]
    · rw [components_append hne]
      intro c hc
      rcases List.mem_append.mp hc with hc | hc
      · exact h.1.names c hc
      · exact h.2.names c hc

theorem parentDirectory_append (hb : slash ∉ b) (hne : a ++ slash :: b ≠ [slash]) :
    parentDirectory (a ++ slash :: b) = if a = [] then [slash] else a := parentOf_append hb hne

theorem CanonicalPath.split (h : CanonicalPath path) :
    ∃ a b, path = a ++ slash :: b ∧ slash ∉ b ∧ (a = [] ∨ CanonicalPath a) ∧
      parentDirectory path = if a = [] then [slash] else a := by
  obtain ⟨rest, rfl⟩ : ∃ rest, path = slash :: rest := by
    cases path with
    | nil => exact absurd h.absolute (by simp)
    | cons c rest =>
      obtain rfl : c = slash := by simpa using h.absolute
      exact ⟨rest, rfl⟩
  cases hlast : lastIndex? slash (slash :: rest) with
  | none => exact absurd (lastIndex?_eq_none.mp hlast) (by simp)
  | some i =>
    obtain ⟨a, b, hsplit, -, hb⟩ := lastIndex?_eq_some hlast
    have hparent := parentDirectory_append hb (hsplit ▸ h.ne_root)
    refine ⟨a, b, hsplit, hb, ?_, hsplit ▸ hparent⟩
    cases a with
    | nil => exact Or.inl rfl
    | cons x a =>
      obtain ⟨rfl, -⟩ := List.cons.inj hsplit
      rw [hsplit] at h
      exact Or.inr ((canonicalPath_append rfl).mp h).1

/-- Exchanging a canonical prefix for another one keeps a path canonical. -/
theorem CanonicalPath.rebase {source destination : Bytes} (h : CanonicalPath path)
    (hsource : CanonicalPath source) (hdest : CanonicalPath destination)
    (hin : InSubtree slash source path) : CanonicalPath (rebase source destination path) := by
  rcases hin with rfl | ⟨rest, rfl⟩
  · rw [rebase_self]
    exact hdest
  · rw [rebase_append]
    exact (canonicalPath_append hdest.absolute).mpr
      ⟨hdest, ((canonicalPath_append hsource.absolute).mp h).2⟩

end Canonical

section Resolve

/-- The root or a canonical path, within the path buffer. -/
structure ResolvedPath (path : Bytes) : Prop where
  root_or_canonical : path = [slash] ∨ CanonicalPath path
  fits : path.length < fsPathMax

theorem ResolvedPath.absolute {path : Bytes} (h : ResolvedPath path) :
    path.head? = some slash := by
  rcases h.root_or_canonical with rfl | h
  · rfl
  · exact h.absolute

theorem ResolvedPath.nulFree {path : Bytes} (h : ResolvedPath path) : NulFree path := by
  rcases h.root_or_canonical with rfl | h
  · decide
  · exact h.nulFree

theorem ResolvedPath.canonical {path : Bytes} (h : ResolvedPath path) (hne : path ≠ [slash]) :
    CanonicalPath path := h.root_or_canonical.resolve_left hne

theorem resolvedPath_root : ResolvedPath [slash] := ⟨Or.inl rfl, by decide⟩

theorem resolvedPath_iff {path : Bytes} : ResolvedPath path ↔
    NormalPath slash dot path ∧ NulFree path ∧ path.length < fsPathMax := by
  rw [normalPath_iff]
  constructor
  · intro h
    refine ⟨⟨h.absolute, ?_⟩, h.nulFree, h.fits⟩
    exact h.root_or_canonical.imp_right fun hc => hc.names
  · intro h
    obtain ⟨⟨habs, hnames⟩, hnul, hfit⟩ := h
    exact ⟨hnames.imp_right fun hn => ⟨habs, hnul, hn⟩, hfit⟩

theorem resolveTokens_eq (token raw : Bytes) :
    resolveTokens token raw = limitedNames slash fsPathMax token raw := by
  induction raw generalizing token with
  | nil => rfl
  | cons c raw ih => simp only [resolveTokens, limitedNames, ih]

theorem resolveTokens_of_lt {raw : Bytes} (hfit : raw.length < fsPathMax) :
    resolveTokens [] raw = pathNames slash raw := by
  rw [resolveTokens_eq, limitedNames_eq [] raw List.not_mem_nil (by simpa using hfit),
    List.nil_append]

theorem foldl_pushComponent_eq (tokens : List Bytes) :
    tokens.foldl pushComponent [] = cappedNames dot maxComponents tokens := rfl

/-- What the resolver writes from an absolute text that fits. -/
theorem joinComponents_eq {raw : Bytes} (habs : raw.head? = some slash)
    (hfit : raw.length < fsPathMax) :
    joinComponents ((resolveTokens [] raw).foldl pushComponent []) =
      slash :: joinNames slash (cappedNames dot maxComponents (pathNames slash raw)) := by
  rw [resolveTokens_of_lt hfit, foldl_pushComponent_eq, joinComponents]
  exact strcopyLimit_of_lt (lt_of_le_of_lt (length_cappedPath_le _ habs) hfit)

theorem resolvedPath_join {raw : Bytes} (habs : raw.head? = some slash) (hnul : NulFree raw)
    (hfit : raw.length < fsPathMax) :
    ResolvedPath (joinComponents ((resolveTokens [] raw).foldl pushComponent [])) := by
  rw [joinComponents_eq habs hfit]
  apply resolvedPath_iff.mpr
  exact ⟨normalPath_capped slash dot maxComponents raw,
    hnul.mono (cappedPath_subset maxComponents habs),
    lt_of_le_of_lt (length_cappedPath_le maxComponents habs) hfit⟩

/-- An absolute directory within the path buffer; its names may be any. -/
structure AbsolutePath (path : Bytes) : Prop where
  absolute : path.head? = some slash
  nulFree : NulFree path
  fits : path.length < fsPathMax

theorem ResolvedPath.absolutePath {path : Bytes} (h : ResolvedPath path) : AbsolutePath path :=
  ⟨h.absolute, h.nulFree, h.fits⟩

theorem resolveRaw_absolute {cwd input raw : Bytes} (hcwd : AbsolutePath cwd)
    (hinput : NulFree input) (h : resolveRaw cwd input = some raw) : AbsolutePath raw := by
  rw [resolveRaw] at h
  split at h
  · rename_i habs
    obtain rfl := Option.some.inj h
    refine ⟨?_, hinput.take _, length_strcopyLimit_lt input (by decide)⟩
    cases input with
    | nil => exact absurd habs (by simp)
    | cons c input => simpa [strcopyLimit, fsPathMax] using habs
  · split at h
    · split at h
      · cases h
      · rename_i hfit
        obtain rfl := Option.some.inj h
        refine ⟨rfl, NulFree.append (s := [slash]) (by decide) hinput, ?_⟩
        rw [List.length_cons]
        omega
    · rw [strcopyLimit_of_lt hcwd.fits] at h
      obtain rfl := Option.some.inj h
      have habs := hcwd.absolute
      have hnul := hcwd.nulFree
      have hslash : NulFree (cwd ++ [slash]) := hnul.append (by decide)
      have hlen : (cwd ++ [slash]).length = cwd.length + 1 := List.length_append
      split
      · split
        · rename_i hfit
          refine ⟨by simp [habs], hslash.append hinput, ?_⟩
          rw [List.length_append]
          omega
        · exact ⟨by simp [habs], hslash, by omega⟩
      · split
        · rename_i hfit
          refine ⟨by simp [habs], hnul.append hinput, ?_⟩
          rw [List.length_append]
          omega
        · exact hcwd

/-- The resolver copies the directory for an empty word and otherwise yields the root or a
canonical path that fits. -/
theorem resolvePathFrom_cases {cwd input path : Bytes} (hcwd : AbsolutePath cwd)
    (hinput : NulFree input) (h : resolvePathFrom cwd input = some path) :
    path = cwd ∨ ResolvedPath path := by
  rw [resolvePathFrom] at h
  split at h
  · obtain rfl := Option.some.inj h
    exact Or.inl (strcopyLimit_of_lt hcwd.fits)
  · obtain ⟨raw, hraw, rfl⟩ := Option.map_eq_some_iff.mp h
    have habs := resolveRaw_absolute hcwd hinput hraw
    exact Or.inr (resolvedPath_join habs.absolute habs.nulFree habs.fits)

/-- The resolver yields the root or a canonical path that fits. -/
theorem resolvePathFrom_resolved {cwd input path : Bytes} (hcwd : ResolvedPath cwd)
    (hinput : NulFree input) (h : resolvePathFrom cwd input = some path) :
    ResolvedPath path := by
  rcases resolvePathFrom_cases hcwd.absolutePath hinput h with rfl | hpath
  · exact hcwd
  · exact hpath

/-- Only a long relative word at the root runs over the buffer. -/
theorem resolvePathFrom_isSome {cwd input : Bytes}
    (h : cwd = [slash] → input.head? = some slash ∨ input.length + 2 ≤ fsPathMax) :
    ∃ path, resolvePathFrom cwd input = some path := by
  rw [resolvePathFrom]
  split
  · exact ⟨_, rfl⟩
  · rw [resolveRaw]
    split
    · exact ⟨_, rfl⟩
    · rename_i hrel
      split
      · rename_i hroot
        rw [if_neg (not_lt.mpr ((h hroot).resolve_left hrel))]
        exact ⟨_, rfl⟩
      · exact ⟨_, rfl⟩

end Resolve

end SnsxOS.Arm64
