import SnsxOS.X86.Refinement
import SnsxOS.Framework.PathNames

/-!
# Normal forms of x86 paths

`fs_normalize_path` writes a separator before it knows whether another name follows and trims it
afterwards. What it writes is the join of the names and, behind a trailing slash, one separator
more, and it is this text that has to fit the buffer.
-/

namespace SnsxOS.X86

open Framework

/-- The slash-normal form of a path. -/
def normalForm (path : Bytes) : Bytes := joinNames slash (pathNames slash path)

def EndsInSlash (path : Bytes) : Prop := path.getLast? = some slash

instance (path : Bytes) : Decidable (EndsInSlash path) :=
  inferInstanceAs (Decidable (_ = _))

/-- What the loop of `fs_normalize_path` appends; the flag says that a separator would be
doubled or leading. -/
def normalizeFill : Bool → Bytes → Bytes
  | _, [] => []
  | true, ch :: input =>
      if ch = slash then normalizeFill true input else ch :: normalizeFill false input
  | false, ch :: input =>
      if ch = slash then slash :: normalizeFill true input else ch :: normalizeFill false input

/-- The bound is met at every step exactly when it is met at the end. -/
theorem fsNormalizeLoop_eq (input output : Bytes) (last : Bool)
    (hfit : output.length < fsPathMax) :
    fsNormalizeLoop input output last =
      (let whole := output ++ normalizeFill (decide (output = []) || last) input
      if whole.length < fsPathMax then some whole else none) := by
  induction input generalizing output last with
  | nil => simp [fsNormalizeLoop, normalizeFill, hfit]
  | cons ch input ih =>
    rw [fsNormalizeLoop]
    by_cases hskip : output.length = 0 ∨ last = true
    · have hflag : (decide (output = []) || last) = true := by
        simpa [List.length_eq_zero_iff] using hskip
      rw [hflag]
      by_cases hch : ch = slash
      · rw [if_pos hch, if_pos hskip, ih output true hfit]
        simp [normalizeFill, hch]
      · simp only [if_neg hch, normalizeFill]
        by_cases hfull : fsPathMax ≤ output.length + 1
        · have hlong : ¬ (output ++ ch :: normalizeFill false input).length < fsPathMax := by
            simp only [List.length_append, List.length_cons]
            omega
          rw [if_pos hfull, if_neg hlong]
        · rw [if_neg hfull, ih (output ++ [ch]) false (by simp; omega)]
          simp
    · have hflag : (decide (output = []) || last) = false := by
        simpa [List.length_eq_zero_iff] using hskip
      rw [hflag]
      by_cases hch : ch = slash
      · simp only [if_pos hch, if_neg hskip, normalizeFill]
        by_cases hfull : fsPathMax ≤ output.length + 1
        · have hlong : ¬ (output ++ slash :: normalizeFill true input).length < fsPathMax := by
            simp only [List.length_append, List.length_cons]
            omega
          rw [if_pos hfull, if_neg hlong]
        · rw [if_neg hfull, ih (output ++ [slash]) true (by simp; omega)]
          simp
      · simp only [if_neg hch, normalizeFill]
        by_cases hfull : fsPathMax ≤ output.length + 1
        · have hlong : ¬ (output ++ ch :: normalizeFill false input).length < fsPathMax := by
            simp only [List.length_append, List.length_cons]
            omega
          rw [if_pos hfull, if_neg hlong]
        · rw [if_neg hfull, ih (output ++ [ch]) false (by simp; omega)]
          simp

/-- The separator that is left behind the names of a path with a trailing slash. -/
def trailing (path : Bytes) : Bytes :=
  if pathNames slash path ≠ [] ∧ EndsInSlash path then [slash] else []

theorem normalizeFill_mid {name : Bytes} (h : slash ∉ name) (input : Bytes) :
    normalizeFill false (name ++ input) = name ++ normalizeFill false input := by
  induction name with
  | nil => rfl
  | cons c name ih =>
    have hc : c ≠ slash := fun hc => h (by simp [hc])
    rw [List.cons_append, normalizeFill, if_neg hc, ih fun hn => h (List.mem_cons_of_mem _ hn)]
    rfl

theorem normalizeFill_name {name : Bytes} (h : slash ∉ name) (hne : name ≠ []) (input : Bytes) :
    normalizeFill true (name ++ input) = name ++ normalizeFill false input := by
  cases name with
  | nil => exact absurd rfl hne
  | cons c name =>
    have hc : c ≠ slash := fun hc => h (by simp [hc])
    rw [List.cons_append, normalizeFill, if_neg hc,
      normalizeFill_mid fun hn => h (List.mem_cons_of_mem _ hn)]
    rfl

/-- A path without names is empty or ends in a slash. -/
theorem endsInSlash_of_no_names {path : Bytes} (h : pathNames slash path = []) (hne : path ≠ []) :
    EndsInSlash path := by
  rw [EndsInSlash, List.getLast?_eq_getLast_of_ne_nil hne,
    pathNames_eq_nil.mp h _ (List.getLast_mem hne)]

/-- What the loop writes for a whole path. -/
theorem normalizeFill_eq (path : Bytes) :
    normalizeFill true path = normalForm path ++ trailing path := by
  induction hl : path.length using Nat.strong_induction_on generalizing path with
  | _ n ih =>
    rcases exists_name_split slash path with hout | hsplit
    · by_cases hnil : path = []
      · rw [hnil]
        rfl
      · have hlast : ¬ EndsInSlash path := fun hs => hout (List.mem_of_getLast? hs)
        have hfill := normalizeFill_name hout hnil []
        rw [List.append_nil] at hfill
        rw [hfill, normalForm, pathNames_of_not_mem hnil hout, joinNames_singleton, trailing,
          if_neg fun h => hlast h.2]
        rfl
    · obtain ⟨name, rest, rfl, hname⟩ := hsplit
      rw [List.length_append, List.length_cons] at hl
      have hrest := ih rest.length (by omega) rest rfl
      have hlast : EndsInSlash (name ++ slash :: rest) ↔ rest = [] ∨ EndsInSlash rest := by
        cases rest with
        | nil => simp [EndsInSlash]
        | cons c rest => simp [EndsInSlash, List.getLast?_cons_cons]
      by_cases hnil : name = []
      · subst hnil
        have hnames : pathNames slash ([] ++ slash :: rest) = pathNames slash rest :=
          pathNames_sep_cons slash rest
        have htrail : trailing ([] ++ slash :: rest) = trailing rest := by
          by_cases hempty : rest = []
          · rw [hempty]
            rfl
          · simp only [trailing, hnames, hlast, hempty, false_or]
        rw [List.nil_append, normalizeFill, if_pos rfl, hrest, normalForm, normalForm,
          ← List.nil_append (slash :: rest), hnames, htrail]
      · have hnames := pathNames_name_sep hnil hname rest
        rw [normalizeFill_name hname hnil, normalizeFill, if_pos rfl, hrest, normalForm, normalForm,
          hnames]
        by_cases hnone : pathNames slash rest = []
        · -- the separator written behind the name is the trailing one
          have hend : EndsInSlash (name ++ slash :: rest) := by
            by_cases hempty : rest = []
            · exact hlast.mpr (Or.inl hempty)
            · exact hlast.mpr (Or.inr (endsInSlash_of_no_names hnone hempty))
          simp [trailing, hnames, hnone, hend]
        · have htrail : trailing (name ++ slash :: rest) = trailing rest := by
            have hempty : rest ≠ [] := by
              intro hempty
              exact hnone (by rw [hempty, pathNames_nil])
            simp [trailing, hnames, hnone, hlast, hempty]
          rw [htrail, joinNames_cons slash name hnone]
          simp

/-- The names of a path, joined, do not end in a slash. -/
theorem rdropWhile_normalForm (path : Bytes) :
    (normalForm path).rdropWhile (· == slash) = normalForm path := by
  apply List.rdropWhile_eq_self_iff.mpr
  intro hne hlast
  apply getLast?_joinNames slash (pathNames slash path)
  · intro name hn
    obtain ⟨hnil, hslash, -⟩ := mem_pathNames hn
    exact ⟨hnil, hslash⟩
  · rw [← normalForm, List.getLast?_eq_getLast_of_ne_nil hne]
    simpa using hlast

/-- `fs_normalize_path` accepts a path when its normal form and a trailing slash fit. -/
theorem fsNormalizePath_eq (path : Bytes) : fsNormalizePath path =
    if (normalForm path).length + (trailing path).length < fsPathMax then some (normalForm path)
    else none := by
  rw [fsNormalizePath]
  split
  · rename_i hnil
    rw [hnil]
    rfl
  · rw [fsNormalizeLoop_eq _ _ _ (by decide)]
    simp only [List.nil_append, decide_true, Bool.true_or, normalizeFill_eq, List.length_append]
    split
    · rw [Option.map_some]
      congr 1
      rw [trailing]
      split
      · rw [List.rdropWhile_concat_pos _ _ _ (by simp), rdropWhile_normalForm]
      · rw [List.append_nil, rdropWhile_normalForm]
    · rfl

/-- Joining the names of a path does not change its names. -/
theorem pathNames_normalForm (path : Bytes) :
    pathNames slash (normalForm path) = pathNames slash path := by
  apply pathNames_joinNames
  intro name hn
  obtain ⟨hnil, hslash, -⟩ := mem_pathNames hn
  exact ⟨hnil, hslash⟩

theorem normalForm_normalForm (path : Bytes) : normalForm (normalForm path) = normalForm path := by
  rw [normalForm, pathNames_normalForm, normalForm]

theorem trailing_normalForm (path : Bytes) : trailing (normalForm path) = [] := by
  apply if_neg
  intro h
  apply getLast?_joinNames slash (pathNames slash path) _ h.2
  intro name hn
  obtain ⟨hnil, hslash, -⟩ := mem_pathNames hn
  exact ⟨hnil, hslash⟩

/-- The path whose normal form fills the buffer and which has a slash behind it. -/
def OverTrimmed (path : Bytes) : Prop :=
  (normalForm path).length + 1 = fsPathMax ∧ EndsInSlash path

/-- What normalisation is for, at one path. -/
structure Normalises (path : Bytes) : Prop where
  exact : fsNormalizePath path =
    if (normalForm path).length < fsPathMax then some (normalForm path) else none
  idempotent : ∀ p, fsNormalizePath path = some p → fsNormalizePath p = some p
  node : ∀ st, fsFind st path = fsFind st (normalForm path)

theorem fsNormalizePath_normalForm (path : Bytes) : fsNormalizePath (normalForm path) =
    if (normalForm path).length < fsPathMax then some (normalForm path) else none := by
  rw [fsNormalizePath_eq, normalForm_normalForm, trailing_normalForm, List.length_nil,
    Nat.add_zero]

/-- The trailing slash counts only where the normal form fills the buffer without it. -/
theorem fsNormalizePath_exact {path : Bytes} (h : ¬ OverTrimmed path) : fsNormalizePath path =
    if (normalForm path).length < fsPathMax then some (normalForm path) else none := by
  rw [fsNormalizePath_eq]
  by_cases hend : EndsInSlash path
  · have hlen : (normalForm path).length + 1 ≠ fsPathMax := fun hl => h ⟨hl, hend⟩
    have htrail : (trailing path).length ≤ 1 := by
      rw [trailing]
      split <;> simp
    by_cases hfit : (normalForm path).length < fsPathMax
    · rw [if_pos hfit, if_pos (by omega)]
    · rw [if_neg hfit, if_neg (by omega)]
  · have htrail : trailing path = [] := if_neg fun ht => hend ht.2
    rw [htrail, List.length_nil, Nat.add_zero]

theorem fsNormalizePath_overTrimmed {path : Bytes} (h : OverTrimmed path) :
    fsNormalizePath path = none := by
  obtain ⟨hlen, hend⟩ := h
  have hnames : pathNames slash path ≠ [] := by
    intro hnil
    rw [normalForm, hnil] at hlen
    cases hlen
  have htrail : trailing path = [slash] := if_pos ⟨hnames, hend⟩
  rw [fsNormalizePath_eq, htrail, List.length_singleton, if_neg (by omega)]

/-- `fs_normalize_path` computes the normal form except where only the trailing slash does not
fit; away from these paths, the names of a path decide which node it names. -/
theorem fsNormalizePath_exact_iff (path : Bytes) :
    (Normalises path ↔ ¬ OverTrimmed path) ∧
      ∀ (st : FsState) (path' : Bytes), ¬ OverTrimmed path → ¬ OverTrimmed path' →
        pathNames slash path = pathNames slash path' → fsFind st path = fsFind st path' := by
  constructor
  · constructor
    · intro h hover
      have hexact := h.exact
      rw [fsNormalizePath_overTrimmed hover, if_pos (by have := hover.1; omega)] at hexact
      cases hexact
    · intro h
      constructor
      · exact fsNormalizePath_exact h
      · intro p hp
        rw [fsNormalizePath_exact h] at hp
        split at hp
        · rename_i hfit
          obtain rfl := Option.some.inj hp
          rw [fsNormalizePath_normalForm, if_pos hfit]
        · cases hp
      · intro st
        rw [fsFind, fsFind, fsNormalizePath_normalForm, fsNormalizePath_exact h]
  · intro st path' h h' hnames
    rw [fsFind, fsFind, fsNormalizePath_exact h, fsNormalizePath_exact h', normalForm, normalForm,
      hnames]

/-- A name of 63 characters with a slash behind it is refused. -/
theorem not_fsNormalizePath_exact : ¬ ∀ path, Normalises path := by
  intro h
  have hexact := (h (List.replicate 63 97 ++ [slash])).exact
  revert hexact
  decide +kernel

end SnsxOS.X86
