import SnsxOS.Arm64.Paths
import SnsxOS.X86.Resolve

/-!
# Path resolution in both shells

Both resolvers join the word to the current directory, read names from the joined text and keep
them on a stack of sixteen. Against lexical normalisation of the joined text the ARM64 resolver
falls short in three places and the x86 resolver in one: a long word at the ARM64 root runs over
the buffer, an ARM64 word that fills the buffer to its last character is dropped, and either stack
loses the names past the sixteenth.
-/

namespace SnsxOS.Editions

open Framework

/-- The text that a word stands for in a directory. -/
def joinedPath (cwd input : Bytes) : Bytes :=
  if input.head? = some slash then input
  else if cwd = [slash] then slash :: input
  else cwd ++ slash :: input

/-- All writes of a resolver with buffers of one size and a stack of one height land inside. -/
structure WritesInside (size height : Nat) (push : List Bytes → Bytes → List Bytes)
    (raw : Bytes) (tokens : List Bytes) (output : Bytes) : Prop where
  raw : raw.length < size
  token : ∀ token ∈ tokens, token.length < size
  stack : ∀ front rest, tokens = front ++ rest → (front.foldl push []).length ≤ height
  output : output.length < size

section Joined

variable {cwd input : Bytes}

theorem joinedPath_absolute (hcwd : cwd.head? = some slash) :
    (joinedPath cwd input).head? = some slash := by
  rw [joinedPath]
  split
  · assumption
  split
  · rfl
  · rw [List.head?_append, hcwd, Option.some_or]

/-- The empty word stands for the directory itself. -/
theorem lexicalPath_joinedPath_nil {dot : UInt8} (hcwd : NormalPath slash dot cwd) :
    lexicalPath slash dot (joinedPath cwd []) = cwd := by
  have hnames : pathNames slash (joinedPath cwd []) = pathNames slash cwd := by
    rw [joinedPath, if_neg (by simp)]
    split
    · rename_i hroot
      rw [hroot]
    · rw [pathNames_append_sep, pathNames_nil, List.append_nil]
  rw [lexicalPath, hnames, lexicalNames_of_proper hcwd.proper, ← hcwd.eq]

end Joined

section Arm

open Arm64

variable {cwd input raw : Bytes}

/-- In this directory the word is resolved within the buffers and to the lexical normal form. -/
structure ArmResolves (cwd input : Bytes) : Prop where
  inside : ∃ path, resolvePathFrom cwd input = some path ∧ path.length < fsPathMax ∧
    (input ≠ [] → ∃ raw, resolveRaw cwd input = some raw ∧
      WritesInside fsPathMax Arm64.maxComponents pushComponent raw (resolveTokens [] raw) path)
  output : (joinedPath cwd input).length < fsPathMax →
    (lexicalPath slash dot (joinedPath cwd input)).length < fsPathMax →
    resolvePathFrom cwd input = some (lexicalPath slash dot (joinedPath cwd input))

/-- The word is relative, not at the root, and its joined text fills the buffer to the end. -/
def LastCharacter (cwd input : Bytes) : Prop :=
  input.head? ≠ some slash ∧ cwd ≠ [slash] ∧ (joinedPath cwd input).length + 1 = fsPathMax

instance (cwd input : Bytes) : Decidable (LastCharacter cwd input) :=
  inferInstanceAs (Decidable (_ ∧ _ ∧ _))

/-- Where the ARM64 resolver is lexical: no overrun at the root; the normal form is what is left
of the directory alone where the word is dropped, and elsewhere the stack loses nothing. -/
def ArmCondition (cwd input : Bytes) : Prop :=
  input = [] ∨
    ((cwd = [slash] → input.head? = some slash ∨ input.length + 2 ≤ fsPathMax) ∧
      ((joinedPath cwd input).length < fsPathMax →
        (LastCharacter cwd input → lexicalNames dot (pathNames slash (joinedPath cwd input)) =
          (pathNames slash cwd).take Arm64.maxComponents) ∧
        (¬ LastCharacter cwd input →
          ClimbsBack dot Arm64.maxComponents (pathNames slash (joinedPath cwd input)))))

theorem arm_writesInside (hfit : raw.length < fsPathMax) :
    WritesInside fsPathMax Arm64.maxComponents pushComponent raw (resolveTokens [] raw)
      (joinComponents ((resolveTokens [] raw).foldl pushComponent [])) := by
  constructor
  · exact hfit
  · intro token ht
    rw [resolveTokens_of_lt hfit] at ht
    exact lt_of_le_of_lt (length_le_of_mem_pathNames ht) hfit
  · intro front rest _
    rw [foldl_pushComponent_eq]
    exact length_cappedNames_le _ _
  · exact length_strcopyLimit_lt _ (by decide)

/-- The buffer `raw` of a nonempty word: the joined text if it fits, without the last character
to spare. -/
theorem resolveRaw_fits (hcwd : ResolvedPath cwd) (hne : input ≠ [])
    (hjoin : (joinedPath cwd input).length < fsPathMax) : resolveRaw cwd input =
      some (if LastCharacter cwd input then cwd ++ [slash] else joinedPath cwd input) := by
  have hcopy := strcopyLimit_of_lt hcwd.fits
  rw [resolveRaw]
  by_cases habs : input.head? = some slash
  · have hjoined : joinedPath cwd input = input := if_pos habs
    have hlast : ¬ LastCharacter cwd input := fun h => h.1 habs
    rw [hjoined] at hjoin
    rw [if_pos habs, if_neg hlast, hjoined, strcopyLimit_of_lt hjoin]
  rw [if_neg habs]
  by_cases hroot : cwd = [slash]
  · have hjoined : joinedPath cwd input = slash :: input := by
      rw [joinedPath, if_neg habs, if_pos hroot]
    have hlast : ¬ LastCharacter cwd input := fun h => h.2.1 hroot
    rw [hjoined, List.length_cons] at hjoin
    rw [if_pos hroot, if_neg (by omega), if_neg hlast, hjoined]
  · have hjoined : joinedPath cwd input = cwd ++ slash :: input := by
      rw [joinedPath, if_neg habs, if_neg hroot]
    have hpos := List.length_pos_of_ne_nil hne
    have hlast : LastCharacter cwd input ↔
        (cwd ++ [slash]).length + input.length + 1 = fsPathMax := by
      rw [LastCharacter, hjoined]
      simp only [List.length_append, List.length_cons, List.length_nil]
      constructor
      · intro h
        omega
      · intro h
        exact ⟨habs, hroot, by omega⟩
    rw [hjoined, List.length_append, List.length_cons] at hjoin
    have hroom : cwd.length + 1 < fsPathMax := by omega
    rw [if_neg hroot, hcopy]
    simp only [if_pos hroom]
    congr 1
    by_cases hfull : LastCharacter cwd input
    · have hlen := hlast.mp hfull
      rw [if_pos hfull, if_neg (by omega)]
    · have hlen := mt hlast.mpr hfull
      rw [List.length_append, List.length_singleton] at hlen
      rw [if_neg hfull, if_pos (by rw [List.length_append, List.length_singleton]; omega), hjoined]
      simp

/-- A nonempty word that does not run over the buffer is resolved inside the buffers. -/
theorem arm_inside (hcwd : ResolvedPath cwd) (hinput : NulFree input) (hne : input ≠ [])
    (hroot : cwd = [slash] → input.head? = some slash ∨ input.length + 2 ≤ fsPathMax) :
    ∃ raw, resolveRaw cwd input = some raw ∧ raw.head? = some slash ∧ raw.length < fsPathMax ∧
      resolvePathFrom cwd input =
        some (joinComponents ((resolveTokens [] raw).foldl pushComponent [])) := by
  obtain ⟨path, hpath⟩ := resolvePathFrom_isSome hroot
  have hmap := hpath
  rw [resolvePathFrom, if_neg hne] at hmap
  obtain ⟨raw, hraw, rfl⟩ := Option.map_eq_some_iff.mp hmap
  obtain ⟨habs, -, hfit⟩ := resolveRaw_absolute hcwd.absolutePath hinput hraw
  exact ⟨raw, hraw, habs, hfit, hpath⟩

/-- Only a long relative word at the root has no outcome. -/
theorem arm_overrun (hne : input ≠ []) (hcwd : cwd = [slash]) (habs : input.head? ≠ some slash)
    (hlong : fsPathMax < input.length + 2) : resolvePathFrom cwd input = none := by
  rw [resolvePathFrom, if_neg hne, resolveRaw, if_neg habs, if_pos hcwd, if_pos hlong]
  rfl

theorem armResolves_iff (hcwd : ResolvedPath cwd) (hinput : NulFree input) :
    ArmResolves cwd input ↔ ArmCondition cwd input := by
  have hnormal := (resolvedPath_iff.mp hcwd).1
  by_cases hne : input = []
  · have hpath : resolvePathFrom cwd [] = some cwd := by
      rw [resolvePathFrom, if_pos rfl, strcopyLimit_of_lt hcwd.fits]
    subst hne
    apply iff_of_true _ (Or.inl rfl)
    constructor
    · exact ⟨cwd, hpath, hcwd.fits, fun h => absurd rfl h⟩
    · intro _ _
      rw [hpath, lexicalPath_joinedPath_nil hnormal]
  rw [ArmCondition, or_iff_right hne]
  by_cases hroot : cwd = [slash] → input.head? = some slash ∨ input.length + 2 ≤ fsPathMax
  · rw [and_iff_right hroot]
    obtain ⟨raw, hraw, habs, hfit, hpath⟩ := arm_inside hcwd hinput hne hroot
    have hinside : ∃ path, resolvePathFrom cwd input = some path ∧ path.length < fsPathMax ∧
        (input ≠ [] → ∃ raw, resolveRaw cwd input = some raw ∧ WritesInside fsPathMax
          Arm64.maxComponents pushComponent raw (resolveTokens [] raw) path) :=
      ⟨_, hpath, (arm_writesInside hfit).output, fun _ => ⟨raw, hraw, arm_writesInside hfit⟩⟩
    have hlexical : (joinedPath cwd input).length < fsPathMax →
        (lexicalPath slash dot (joinedPath cwd input)).length < fsPathMax :=
      lt_of_le_of_lt (length_lexicalPath_le (joinedPath_absolute hcwd.absolute))
    have hiff : ArmResolves cwd input ↔ ((joinedPath cwd input).length < fsPathMax →
        cappedNames dot Arm64.maxComponents (pathNames slash raw) =
          lexicalNames dot (pathNames slash (joinedPath cwd input))) := by
      rw [joinComponents_eq habs hfit] at hpath
      constructor
      · intro h hjoin
        have hout := h.output hjoin (hlexical hjoin)
        rw [hpath, Option.some.injEq, lexicalPath,
          joinNames_inj (proper_cappedNames _ _ _ raw) (proper_lexicalNames _)] at hout
        exact hout
      · intro h
        refine ⟨hinside, fun hjoin _ => ?_⟩
        rw [hpath, h hjoin, lexicalPath]
    rw [hiff]
    apply imp_congr_right
    intro hjoin
    have hfits := resolveRaw_fits hcwd hne hjoin
    rw [hraw, Option.some.injEq] at hfits
    by_cases hlast : LastCharacter cwd input
    · rw [if_pos hlast] at hfits
      have hnames : pathNames slash raw = pathNames slash cwd := by
        rw [hfits, pathNames_append_sep, pathNames_nil, List.append_nil]
      rw [hnames, cappedNames_of_proper hnormal.proper]
      simp [hlast, eq_comm]
    · rw [if_neg hlast] at hfits
      rw [hfits, cappedNames_eq_iff]
      simp [hlast]
  · have hnone : resolvePathFrom cwd input = none := by
      push Not at hroot
      exact arm_overrun hne hroot.1 hroot.2.1 hroot.2.2
    apply iff_of_false
    · intro h
      obtain ⟨path, hpath, -⟩ := h.inside
      rw [hnone] at hpath
      cases hpath
    · exact fun h => hroot h.1

end Arm

section X86

open X86

variable {cwd input raw : Bytes}

/-- In this directory the word is resolved within the buffers and to the lexical normal form. -/
structure X86Resolves (cwd input : Bytes) : Prop where
  inside : input = [] ∨ WritesInside fsPathMax X86.maxComponents shellPushComponent
    (shellResolveRaw cwd input) (shellTokens (shellResolveRaw cwd input))
    (shellResolvePathFrom cwd input)
  fits : (shellResolvePathFrom cwd input).length < fsPathMax
  output : (joinedPath cwd input).length < fsPathMax →
    (lexicalPath slash dot (joinedPath cwd input)).length < fsPathMax →
    shellResolvePathFrom cwd input = lexicalPath slash dot (joinedPath cwd input)

/-- Where the x86 resolver is lexical: the stack loses nothing of a text that fits. -/
def X86Condition (cwd input : Bytes) : Prop :=
  input = [] ∨ ((joinedPath cwd input).length < fsPathMax →
    ClimbsBack dot X86.maxComponents (pathNames slash (joinedPath cwd input)))

theorem x86_writesInside (hfit : raw.length < fsPathMax) :
    WritesInside fsPathMax X86.maxComponents shellPushComponent raw (shellTokens raw)
      (shellJoinComponents ((shellTokens raw).foldl shellPushComponent [])) := by
  have htoken : ∀ token ∈ shellTokens raw, token.length < fsPathMax := by
    intro token ht
    rw [shellTokens_eq hfit] at ht
    exact lt_of_le_of_lt (length_le_of_mem_pathNames ht) hfit
  constructor
  · exact hfit
  · exact htoken
  · intro front rest htokens
    rw [foldl_shellPushComponent fun token ht => htoken token (by simp [htokens, ht])]
    exact length_cappedNames_le _ _
  · exact length_strcopyLimit_lt _ (by decide)

/-- The buffer `raw` of a word whose joined text fits. -/
theorem shellResolveRaw_fits (hcwd : CanonicalDirectory cwd)
    (hjoin : (joinedPath cwd input).length < fsPathMax) :
    shellResolveRaw cwd input = joinedPath cwd input := by
  rw [joinedPath] at hjoin ⊢
  rw [shellResolveRaw]
  split at hjoin
  · rename_i habs
    rw [if_pos habs, if_pos habs, strcopyLimit_of_lt hjoin]
  rename_i habs
  rw [if_neg habs, if_neg habs]
  split at hjoin
  · rename_i hroot
    rw [List.length_cons] at hjoin
    rw [if_pos hroot, if_pos hroot, strcopyLimit_of_lt (by omega)]
  · rename_i hroot
    rw [List.length_append, List.length_cons] at hjoin
    have hroom : cwd.length + 1 < fsPathMax := by omega
    rw [if_neg hroot, if_neg hroot, strcopyLimit_of_lt hcwd.fits]
    simp only [if_pos hroom]
    rw [strcopyLimit_of_lt (by rw [List.length_append, List.length_singleton]; omega)]
    simp

theorem x86Resolves_iff (hcwd : CanonicalDirectory cwd) (hinput : NulFree input) :
    X86Resolves cwd input ↔ X86Condition cwd input := by
  have hfits := (shellResolvePathFrom_canonical hcwd hinput).fits
  by_cases hne : input = []
  · subst hne
    apply iff_of_true _ (Or.inl rfl)
    refine ⟨Or.inl rfl, hfits, fun _ _ => ?_⟩
    rw [shellResolvePathFrom, if_pos rfl, strcopyLimit_of_lt hcwd.fits,
      lexicalPath_joinedPath_nil hcwd.normal]
  rw [X86Condition, or_iff_right hne]
  obtain ⟨habs, hfit⟩ := shellResolveRaw_absolute hcwd.absolute input
  have hinside := x86_writesInside hfit
  have hout := shellResolvePathFrom_eq hcwd.absolute hne
  have hlexical : (joinedPath cwd input).length < fsPathMax →
      (lexicalPath slash dot (joinedPath cwd input)).length < fsPathMax :=
    lt_of_le_of_lt (length_lexicalPath_le (joinedPath_absolute hcwd.absolute))
  constructor
  · intro h hjoin
    have hsame := h.output hjoin (hlexical hjoin)
    rw [hout, shellResolveRaw_fits hcwd hjoin, lexicalPath,
      joinNames_inj (proper_cappedNames _ _ _ _) (proper_lexicalNames _),
      cappedNames_eq_iff] at hsame
    exact hsame
  · intro h
    refine ⟨Or.inr ?_, hfits, fun hjoin _ => ?_⟩
    · rw [shellResolvePathFrom, if_neg hne]
      exact hinside
    · rw [hout, shellResolveRaw_fits hcwd hjoin, (cappedNames_eq_iff _ _).mpr (h hjoin),
        lexicalPath]

end X86

/-- Exactly under these conditions the resolvers stay in their buffers and normalise lexically. -/
theorem resolvers_lexical_iff (input : Bytes) (hinput : NulFree input) :
    (∀ cwd, Arm64.ResolvedPath cwd → (ArmResolves cwd input ↔ ArmCondition cwd input)) ∧
      ∀ cwd, X86.CanonicalDirectory cwd → (X86Resolves cwd input ↔ X86Condition cwd input) :=
  ⟨fun _ hcwd => armResolves_iff hcwd hinput, fun _ hcwd => x86Resolves_iff hcwd hinput⟩

/-- A word of two components, one of which climbs. -/
theorem resolvers_lexical_iff_climb :
    (∀ cwd, Arm64.ResolvedPath cwd →
      (ArmResolves cwd (ascii "../tmp") ↔ ArmCondition cwd (ascii "../tmp"))) ∧
      ∀ cwd, X86.CanonicalDirectory cwd →
        (X86Resolves cwd (ascii "../tmp") ↔ X86Condition cwd (ascii "../tmp")) :=
  resolvers_lexical_iff _ (by decide)

/-- At the ARM64 root a relative word of 95 characters is copied past the end of `raw`, and on
x86 the seventeenth component of a path is lost. -/
theorem not_resolvers_lexical :
    (¬ ∀ cwd input, Arm64.ResolvedPath cwd → NulFree input → input.length ≤ 255 →
      ArmResolves cwd input) ∧
    ¬ ∀ cwd input, X86.CanonicalDirectory cwd → NulFree input → input.length ≤ 255 →
      X86Resolves cwd input := by
  constructor
  · intro h
    obtain ⟨path, hpath, -⟩ := (h [slash] (List.replicate 95 97) Arm64.resolvedPath_root
      (by decide +kernel) (by decide)).inside
    have hnone : Arm64.resolvePathFrom [slash] (List.replicate 95 97) = none := by decide +kernel
    rw [hnone] at hpath
    cases hpath
  · intro h
    have hcwd : X86.CanonicalDirectory [slash] := ⟨rfl, Or.inl rfl, by decide, by decide⟩
    have hout := (h [slash] (List.replicate 17 [slash, 97]).flatten hcwd (by decide +kernel)
      (by decide)).output (by decide +kernel) (by decide +kernel)
    revert hout
    decide +kernel

end SnsxOS.Editions
