import Mathlib.Data.List.Basic
import Mathlib.Tactic

/-!
# Names between separators

A path is read as the list of its nonempty stretches between separators. Joining such names
and reading them again gives the names back. Lexical normalisation runs over the names with a
stack, where one dot is skipped and two dots drop the last name; with a stack of bounded height
it gives the same result exactly when it climbs back to the root after every overflow.
-/

namespace SnsxOS.Framework

variable {α : Type*} [DecidableEq α]

/-- The nonempty stretches between separators. -/
def pathNames (sep : α) (path : List α) : List (List α) :=
  (path.splitOn sep).filter fun name => name ≠ []

def joinNames (sep : α) (names : List (List α)) : List α := [sep].intercalate names

section Names

variable {sep : α} {name path a b : List α} {names : List (List α)}

@[simp] theorem pathNames_nil (sep : α) : pathNames sep [] = [] := rfl

theorem pathNames_append_sep (sep : α) (a b : List α) :
    pathNames sep (a ++ sep :: b) = pathNames sep a ++ pathNames sep b := by
  rw [pathNames, List.splitOn_append_cons_self, List.filter_append]
  rfl

@[simp] theorem pathNames_sep_cons (sep : α) (path : List α) :
    pathNames sep (sep :: path) = pathNames sep path := by
  simpa using pathNames_append_sep sep [] path

/-- A name and nothing else. -/
theorem pathNames_of_not_mem (hne : name ≠ []) (h : sep ∉ name) :
    pathNames sep name = [name] := by
  have hsplit : ([sep].intercalate [name]).splitOn sep = [name] :=
    List.splitOn_intercalate sep (by simpa using h) (by simp)
  rw [List.intercalate_singleton] at hsplit
  simp [pathNames, hsplit, hne]

theorem pathNames_name_sep (hne : name ≠ []) (h : sep ∉ name) (path : List α) :
    pathNames sep (name ++ sep :: path) = name :: pathNames sep path := by
  rw [pathNames_append_sep, pathNames_of_not_mem hne h, List.singleton_append]

omit [DecidableEq α] in
@[simp] theorem joinNames_nil (sep : α) : joinNames sep ([] : List (List α)) = [] := rfl

omit [DecidableEq α] in
@[simp] theorem joinNames_singleton (sep : α) (name : List α) : joinNames sep [name] = name :=
  List.intercalate_singleton

omit [DecidableEq α] in
theorem joinNames_cons (sep : α) (name : List α) (hne : names ≠ []) :
    joinNames sep (name :: names) = name ++ sep :: joinNames sep names := by
  simp [joinNames, List.intercalate_cons_of_ne_nil hne]

/-- Joined names are read back. -/
theorem pathNames_joinNames (h : ∀ name ∈ names, name ≠ [] ∧ sep ∉ name) :
    pathNames sep (joinNames sep names) = names := by
  by_cases hne : names = []
  · rw [hne]
    rfl
  · rw [pathNames, joinNames, List.splitOn_intercalate sep (fun name hn => (h name hn).2) hne]
    exact List.filter_eq_self.mpr fun name hn => by simpa using (h name hn).1

/-- The character after which a list of characters goes on with the rest of a path. -/
theorem exists_name_split (sep : α) (path : List α) :
    sep ∉ path ∨ ∃ name rest, path = name ++ sep :: rest ∧ sep ∉ name := by
  induction path with
  | nil => exact Or.inl List.not_mem_nil
  | cons c path ih =>
    by_cases hc : c = sep
    · exact Or.inr ⟨[], path, by simp [hc], List.not_mem_nil⟩
    · rcases ih with hout | hsplit
      · exact Or.inl (by simp [Ne.symm hc, hout])
      · obtain ⟨name, rest, rfl, hname⟩ := hsplit
        exact Or.inr ⟨c :: name, rest, rfl, by simp [Ne.symm hc, hname]⟩

/-- Only separators leave no name. -/
theorem pathNames_eq_nil : pathNames sep path = [] ↔ ∀ c ∈ path, c = sep := by
  induction path with
  | nil => simp
  | cons c path ih =>
    by_cases hc : c = sep
    · rw [hc, pathNames_sep_cons, ih]
      simp
    · have hne : pathNames sep (c :: path) ≠ [] := by
        rcases exists_name_split sep (c :: path) with hout | hsplit
        · rw [pathNames_of_not_mem (by simp) hout]
          simp
        · obtain ⟨name, rest, hpath, hname⟩ := hsplit
          have hnil : name ≠ [] := by
            intro hnil
            rw [hnil] at hpath
            exact hc (List.cons.inj hpath).1
          rw [hpath, pathNames_name_sep hnil hname]
          simp
      simp [hne, hc]

/-- The names are nonempty and hold no separator. -/
theorem mem_pathNames (h : name ∈ pathNames sep path) : name ≠ [] ∧ sep ∉ name ∧ name ⊆ path := by
  induction hl : path.length using Nat.strong_induction_on generalizing path with
  | _ n ih =>
    rcases exists_name_split sep path with hout | hsplit
    · by_cases hnil : path = []
      · rw [hnil] at h
        exact absurd h List.not_mem_nil
      · rw [pathNames_of_not_mem hnil hout, List.mem_singleton] at h
        subst h
        exact ⟨hnil, hout, List.Subset.refl _⟩
    · obtain ⟨first, rest, rfl, hfirst⟩ := hsplit
      rw [List.length_append, List.length_cons] at hl
      rw [pathNames_append_sep] at h
      rcases List.mem_append.mp h with h | h
      · by_cases hnil : first = []
        · rw [hnil] at h
          exact absurd h List.not_mem_nil
        · rw [pathNames_of_not_mem hnil hfirst, List.mem_singleton] at h
          subst h
          exact ⟨hnil, hfirst, List.subset_append_left _ _⟩
      · obtain ⟨hne, hsep, hsub⟩ := ih rest.length (by omega) h rfl
        exact ⟨hne, hsep, fun c hc => by simp [hsub hc]⟩

/-- A join ends in the last character of its last name. -/
theorem getLast?_joinNames (sep : α) (names : List (List α))
    (h : ∀ name ∈ names, name ≠ [] ∧ sep ∉ name) :
    (joinNames sep names).getLast? ≠ some sep := by
  induction names with
  | nil => simp
  | cons name names ih =>
    obtain ⟨hne, hname⟩ := h name (by simp)
    by_cases hnil : names = []
    · rw [hnil, joinNames_singleton]
      exact fun hlast => hname (List.mem_of_getLast? hlast)
    · have hrest := ih fun n hn => h n (by simp [hn])
      have hjoin : joinNames sep names ≠ [] := by
        intro hempty
        have hback := pathNames_joinNames fun n hn => h n (List.mem_cons_of_mem name hn)
        rw [hempty, pathNames_nil] at hback
        exact hnil hback.symm
      rw [joinNames_cons sep name hnil, List.getLast?_append_cons]
      cases hj : joinNames sep names with
      | nil => exact absurd hj hjoin
      | cons c rest =>
        rw [List.getLast?_cons_cons, ← hj]
        exact hrest

omit [DecidableEq α] in
theorem mem_joinNames {c : α} (h : c ∈ joinNames sep names) :
    c = sep ∨ ∃ name ∈ names, c ∈ name := by
  induction names with
  | nil => exact absurd h List.not_mem_nil
  | cons name names ih =>
    by_cases hnil : names = []
    · rw [hnil, joinNames_singleton] at h
      exact Or.inr ⟨name, by simp, h⟩
    · rw [joinNames_cons sep name hnil] at h
      rcases List.mem_append.mp h with h | h
      · exact Or.inr ⟨name, by simp, h⟩
      · rcases List.mem_cons.mp h with h | h
        · exact Or.inl h
        · rcases ih h with hc | hc
          · exact Or.inl hc
          · obtain ⟨n, hn, hcn⟩ := hc
            exact Or.inr ⟨n, by simp [hn], hcn⟩

end Names

section Length

variable {sep : α} {names : List (List α)}

/-- The characters the names take, each with the separator before it. -/
def pathLength (names : List (List α)) : Nat := (names.map fun name => name.length + 1).sum

omit [DecidableEq α] in
@[simp] theorem pathLength_nil : pathLength ([] : List (List α)) = 0 := rfl

omit [DecidableEq α] in
@[simp] theorem pathLength_cons (name : List α) (names : List (List α)) :
    pathLength (name :: names) = name.length + 1 + pathLength names := by
  simp [pathLength]

omit [DecidableEq α] in
@[simp] theorem pathLength_append (names names' : List (List α)) :
    pathLength (names ++ names') = pathLength names + pathLength names' := by
  simp [pathLength]

omit [DecidableEq α] in
theorem length_joinNames (sep : α) (hne : names ≠ []) :
    (joinNames sep names).length + 1 = pathLength names := by
  induction names with
  | nil => exact absurd rfl hne
  | cons name names ih =>
    by_cases hnil : names = []
    · simp [hnil]
    · have hrest := ih hnil
      rw [joinNames_cons sep name hnil, pathLength_cons, ← hrest]
      simp only [List.length_append, List.length_cons]
      omega

/-- Reading the names of a path drops characters, never adds any. -/
theorem pathLength_pathNames (sep : α) (path : List α) :
    pathLength (pathNames sep path) ≤ path.length + 1 := by
  induction hl : path.length using Nat.strong_induction_on generalizing path with
  | _ n ih =>
    rcases exists_name_split sep path with hout | hsplit
    · by_cases hnil : path = []
      · simp [hnil]
      · simp [pathNames_of_not_mem hnil hout, hl]
    · obtain ⟨name, rest, rfl, hname⟩ := hsplit
      rw [List.length_append, List.length_cons] at hl
      have hrest := ih rest.length (by omega) rest rfl
      rw [pathNames_append_sep, pathLength_append]
      by_cases hnil : name = []
      · simp only [hnil, pathNames_nil, pathLength_nil, List.length_nil] at hl ⊢
        omega
      · simp only [pathNames_of_not_mem hnil hname, pathLength_cons, pathLength_nil]
        omega

/-- A name is no longer than the path it is read from. -/
theorem length_le_of_mem_pathNames {name path : List α} (h : name ∈ pathNames sep path) :
    name.length ≤ path.length := by
  have hsum : name.length + 1 ≤ pathLength (pathNames sep path) :=
    List.single_le_sum (by simp) _ (List.mem_map_of_mem h)
  have hread := pathLength_pathNames sep path
  omega

end Length

section Lexical

variable (dot : α)

/-- What a name does to the names before it. -/
def lexicalStep (stack : List (List α)) (name : List α) : List (List α) :=
  if name = [dot] then stack
  else if name = [dot, dot] then stack.dropLast
  else stack ++ [name]

def lexicalNames (names : List (List α)) : List (List α) := names.foldl (lexicalStep dot) []

/-- The same with a stack that drops what no longer fits. -/
def cappedStep (height : Nat) (stack : List (List α)) (name : List α) : List (List α) :=
  if name = [dot] then stack
  else if name = [dot, dot] then stack.dropLast
  else if stack.length < height then stack ++ [name]
  else stack

def cappedNames (height : Nat) (names : List (List α)) : List (List α) :=
  names.foldl (cappedStep dot height) []

/-- Whenever the stack has passed the height, it is empty at some later point. -/
def ClimbsBack (height : Nat) (names : List (List α)) : Prop :=
  ∀ front rest, names = front ++ rest → height < (lexicalNames dot front).length →
    ∃ climb, climb <+: rest ∧ lexicalNames dot (front ++ climb) = []

/-- A name that stands for itself. -/
structure ProperName (sep dot : α) (name : List α) : Prop where
  ne_nil : name ≠ []
  sepFree : sep ∉ name
  ne_dot : name ≠ [dot]
  ne_dots : name ≠ [dot, dot]

variable {dot} {sep : α} {height : Nat} {names stack : List (List α)} {name : List α}

theorem lexicalNames_concat (names : List (List α)) (name : List α) :
    lexicalNames dot (names ++ [name]) = lexicalStep dot (lexicalNames dot names) name := by
  simp [lexicalNames]

theorem cappedNames_concat (names : List (List α)) (name : List α) :
    cappedNames dot height (names ++ [name]) =
      cappedStep dot height (cappedNames dot height names) name := by
  simp [cappedNames]

/-- Proper names stay as they are. -/
theorem lexicalNames_of_proper (h : ∀ name ∈ names, ProperName sep dot name) :
    lexicalNames dot names = names := by
  induction names using List.reverseRecOn with
  | nil => rfl
  | append_singleton names name ih =>
    have hname := h name (by simp)
    rw [lexicalNames_concat, ih fun n hn => h n (by simp [hn]), lexicalStep,
      if_neg hname.ne_dot, if_neg hname.ne_dots]

/-- A capped stack keeps the first proper names. -/
theorem cappedNames_of_proper (h : ∀ name ∈ names, ProperName sep dot name) :
    cappedNames dot height names = names.take height := by
  induction names using List.reverseRecOn with
  | nil => simp [cappedNames]
  | append_singleton names name ih =>
    have hname := h name (by simp)
    rw [cappedNames_concat, ih fun n hn => h n (by simp [hn]), cappedStep,
      if_neg hname.ne_dot, if_neg hname.ne_dots, List.length_take]
    split
    · rename_i hroom
      rw [List.take_of_length_le (by omega), List.take_of_length_le (by simp; omega)]
    · rename_i hfull
      rw [List.take_append_of_le_length (by omega)]

theorem length_cappedNames_le (height : Nat) (names : List (List α)) :
    (cappedNames dot height names).length ≤ height := by
  induction names using List.reverseRecOn with
  | nil => simp [cappedNames]
  | append_singleton names name ih =>
    rw [cappedNames_concat, cappedStep]
    split
    · exact ih
    split
    · rw [List.length_dropLast]
      omega
    split
    · rw [List.length_append, List.length_singleton]
      omega
    · exact ih

/-- What remains on a capped stack was read, stands for itself and takes no more room. -/
theorem cappedNames_spec (dot : α) (height : Nat) (names : List (List α)) :
    (∀ name ∈ cappedNames dot height names, name ∈ names ∧ name ≠ [dot] ∧ name ≠ [dot, dot]) ∧
      pathLength (cappedNames dot height names) ≤ pathLength names := by
  induction names using List.reverseRecOn with
  | nil => simp [cappedNames]
  | append_singleton names name ih =>
    obtain ⟨hmem, hlen⟩ := ih
    have hkeep : ∀ n ∈ cappedNames dot height names,
        n ∈ names ++ [name] ∧ n ≠ [dot] ∧ n ≠ [dot, dot] := by
      intro n hn
      exact ⟨List.mem_append_left _ (hmem n hn).1, (hmem n hn).2⟩
    have hlen' : pathLength (cappedNames dot height names) ≤ pathLength (names ++ [name]) := by
      rw [pathLength_append]
      omega
    rw [cappedNames_concat, cappedStep]
    split
    · exact ⟨hkeep, hlen'⟩
    rename_i hdot
    split
    · constructor
      · intro n hn
        exact hkeep n (List.dropLast_subset _ hn)
      · apply le_trans _ hlen'
        exact ((List.dropLast_sublist _).map _).sum_le_sum (by simp)
    rename_i hdots
    split
    · constructor
      · intro n hn
        rcases List.mem_append.mp hn with hn | hn
        · exact hkeep n hn
        · rw [List.mem_singleton.mp hn]
          exact ⟨by simp, hdot, hdots⟩
      · rw [pathLength_append, pathLength_append]
        omega
    · exact ⟨hkeep, hlen'⟩

/-- The capped stack is never higher than the free one, and it is the free one when their
heights agree. -/
theorem length_cappedNames_le_lexicalNames (dot : α) (height : Nat) (names : List (List α)) :
    (cappedNames dot height names).length ≤ (lexicalNames dot names).length ∧
      ((cappedNames dot height names).length = (lexicalNames dot names).length →
        cappedNames dot height names = lexicalNames dot names) := by
  induction names using List.reverseRecOn with
  | nil => simp [cappedNames, lexicalNames]
  | append_singleton names name ih =>
    obtain ⟨hle, heq⟩ := ih
    rw [cappedNames_concat, lexicalNames_concat, cappedStep, lexicalStep]
    split
    · exact ⟨hle, heq⟩
    split
    · simp only [List.length_dropLast]
      constructor
      · omega
      · intro hlen
        by_cases hcap : (cappedNames dot height names).length = (lexicalNames dot names).length
        · rw [heq hcap]
        · have hzero : (cappedNames dot height names).length = 0 := by omega
          have hone : (lexicalNames dot names).dropLast.length = 0 := by
            rw [List.length_dropLast]
            omega
          rw [List.length_eq_zero_iff.mp hzero, List.length_eq_zero_iff.mp hone]
          rfl
    split
    · simp only [List.length_append, List.length_singleton]
      constructor
      · omega
      · intro hlen
        rw [heq (by omega)]
    · simp only [List.length_append, List.length_singleton]
      constructor
      · omega
      · intro hlen
        omega

/-- As long as the free stack does not run empty, what the capped stack has lost stays lost. -/
theorem cappedNames_short (front rest : List (List α))
    (hover : height < (lexicalNames dot front).length)
    (hstay : ∀ climb, climb <+: rest → lexicalNames dot (front ++ climb) ≠ []) :
    (cappedNames dot height (front ++ rest)).length < (lexicalNames dot (front ++ rest)).length := by
  induction rest using List.reverseRecOn with
  | nil =>
    rw [List.append_nil]
    exact lt_of_le_of_lt (length_cappedNames_le height front) hover
  | append_singleton rest name ih =>
    have hrest := ih fun climb hc => hstay climb (hc.trans (List.prefix_append _ _))
    have hlast := List.length_pos_of_ne_nil (hstay (rest ++ [name]) (List.prefix_refl _))
    rw [← List.append_assoc, lexicalNames_concat] at hlast
    rw [← List.append_assoc, cappedNames_concat, lexicalNames_concat]
    rw [lexicalStep] at hlast ⊢
    rw [cappedStep]
    split
    · exact hrest
    rename_i hdot
    rw [if_neg hdot] at hlast
    split
    · rename_i hdots
      rw [if_pos hdots, List.length_dropLast] at hlast
      simp only [List.length_dropLast]
      omega
    split
    · simpa using hrest
    · simp only [List.length_append, List.length_singleton]
      omega

/-- The stacks agree, or there is an overflow from which the path never climbs back. -/
theorem cappedNames_eq_or (dot : α) (height : Nat) (names : List (List α)) :
    cappedNames dot height names = lexicalNames dot names ∨ ¬ ClimbsBack dot height names := by
  induction names using List.reverseRecOn with
  | nil => exact Or.inl rfl
  | append_singleton names name ih =>
    by_cases hempty : lexicalNames dot (names ++ [name]) = []
    · left
      obtain ⟨hle, heq⟩ :=
        length_cappedNames_le_lexicalNames dot height (names ++ [name])
      apply heq
      rw [hempty] at hle ⊢
      simpa using hle
    rcases ih with hsame | hlost
    · -- an agreeing stack goes wrong only by passing the height
      by_cases hover : height < (lexicalNames dot (names ++ [name])).length
      · right
        intro hclimb
        obtain ⟨climb, hc, hroot⟩ := hclimb (names ++ [name]) [] (by simp) hover
        rw [List.prefix_nil.mp hc, List.append_nil] at hroot
        exact hempty hroot
      · left
        rw [lexicalNames_concat, lexicalStep] at hover
        rw [cappedNames_concat, lexicalNames_concat, hsame, cappedStep, lexicalStep]
        split
        · rfl
        rename_i hdot
        split
        · rfl
        rename_i hdots
        rw [if_neg hdot, if_neg hdots, List.length_append, List.length_singleton] at hover
        rw [if_pos (by omega)]
    · right
      intro hclimb
      apply hlost
      intro front rest hnames hover
      obtain ⟨climb, hc, hroot⟩ := hclimb front (rest ++ [name]) (by simp [hnames]) hover
      rcases List.prefix_concat_iff.mp hc with hwhole | hshort
      · rw [hwhole, ← List.append_assoc, ← hnames] at hroot
        exact absurd hroot hempty
      · exact ⟨climb, hshort, hroot⟩

/-- A capped stack normalises a path exactly when the path climbs back after every overflow. -/
theorem cappedNames_eq_iff (height : Nat) (names : List (List α)) :
    cappedNames dot height names = lexicalNames dot names ↔ ClimbsBack dot height names := by
  constructor
  · intro hsame front rest hnames hover
    by_contra hstay
    push Not at hstay
    have hshort := cappedNames_short front rest hover hstay
    rw [← hnames, hsame] at hshort
    exact lt_irrefl _ hshort
  · intro hclimb
    rcases cappedNames_eq_or dot height names with hsame | hlost
    · exact hsame
    · exact absurd hclimb hlost

end Lexical

section Resolve

/-! A resolver reads the names of an absolute text and writes what is left of them. -/

/-- The names of a text when a name ends at the latest where its buffer is full. -/
def limitedNames (sep : α) (size : Nat) : List α → List α → List (List α)
  | name, [] => if name = [] then [] else [name]
  | name, c :: text =>
      if c = sep then
        if name = [] then limitedNames sep size [] text
        else name :: limitedNames sep size [] text
      else if name.length + 1 < size then limitedNames sep size (name ++ [c]) text
      else name :: limitedNames sep size [c] text

/-- A text that fits one buffer is read exactly. -/
theorem limitedNames_eq {sep : α} {size : Nat} (name text : List α) (hname : sep ∉ name)
    (hfit : name.length + text.length < size) :
    limitedNames sep size name text = pathNames sep (name ++ text) := by
  induction text generalizing name with
  | nil =>
    rw [limitedNames, List.append_nil]
    split
    · rename_i hnil
      rw [hnil, pathNames_nil]
    · rename_i hne
      rw [pathNames_of_not_mem hne hname]
  | cons c text ih =>
    rw [List.length_cons] at hfit
    rw [limitedNames]
    split
    · rename_i hc
      have hrest := ih [] List.not_mem_nil (by simp only [List.length_nil]; omega)
      rw [List.nil_append] at hrest
      split
      · rename_i hnil
        rw [hnil, hc, List.nil_append, pathNames_sep_cons, hrest]
      · rename_i hne
        rw [hc, pathNames_name_sep hne hname, hrest]
    · rename_i hc
      rw [if_pos (by omega), ih (name ++ [c]) (by simp [hname, Ne.symm hc]) (by simp; omega),
        List.append_assoc, List.singleton_append]

variable (sep dot : α)

/-- The absolute path that is left of a text by lexical normalisation. -/
def lexicalPath (path : List α) : List α :=
  sep :: joinNames sep (lexicalNames dot (pathNames sep path))

/-- An absolute path of proper names. -/
def NormalPath (path : List α) : Prop :=
  ∃ names, (∀ name ∈ names, ProperName sep dot name) ∧ path = sep :: joinNames sep names

variable {sep dot} {path : List α}

theorem pathNames_of_proper {names : List (List α)}
    (h : ∀ name ∈ names, ProperName sep dot name) :
    pathNames sep (sep :: joinNames sep names) = names := by
  rw [pathNames_sep_cons]
  apply pathNames_joinNames
  intro name hn
  exact ⟨(h name hn).ne_nil, (h name hn).sepFree⟩

/-- A normal path is its names. -/
theorem NormalPath.eq (h : NormalPath sep dot path) :
    path = sep :: joinNames sep (pathNames sep path) := by
  obtain ⟨names, hnames, rfl⟩ := h
  rw [pathNames_of_proper hnames]

theorem NormalPath.proper (h : NormalPath sep dot path) :
    ∀ name ∈ pathNames sep path, ProperName sep dot name := by
  obtain ⟨names, hnames, rfl⟩ := h
  rwa [pathNames_of_proper hnames]

/-- Names that remain on a stack are proper. -/
theorem proper_cappedNames (sep dot : α) (height : Nat) (path : List α) :
    ∀ name ∈ cappedNames dot height (pathNames sep path), ProperName sep dot name := by
  intro name hn
  obtain ⟨hmem, hdot, hdots⟩ := (cappedNames_spec dot height _).1 name hn
  obtain ⟨hne, hsep, -⟩ := mem_pathNames hmem
  exact ⟨hne, hsep, hdot, hdots⟩

omit [DecidableEq α] in
theorem normalPath_root : NormalPath sep dot [sep] := ⟨[], by simp, rfl⟩

/-- Said on the text: absolute, and the root or without empty, one-dot and two-dot parts. -/
theorem normalPath_iff : NormalPath sep dot path ↔ path.head? = some sep ∧ (path = [sep] ∨
    ∀ name ∈ path.tail.splitOn sep, name ≠ [] ∧ name ≠ [dot] ∧ name ≠ [dot, dot]) := by
  constructor
  · intro h
    obtain ⟨names, hnames, rfl⟩ := h
    refine ⟨rfl, ?_⟩
    by_cases hnil : names = []
    · exact Or.inl (by rw [hnil]; rfl)
    · right
      rw [List.tail_cons, joinNames,
        List.splitOn_intercalate sep (fun name hn => (hnames name hn).sepFree) hnil]
      intro name hn
      exact ⟨(hnames name hn).ne_nil, (hnames name hn).ne_dot, (hnames name hn).ne_dots⟩
  · intro h
    obtain ⟨habs, hnames⟩ := h
    rcases hnames with hroot | hnames
    · exact ⟨[], by simp, hroot⟩
    · cases path with
      | nil => cases habs
      | cons c rest =>
        obtain rfl : c = sep := by simpa using habs
        rw [List.tail_cons] at hnames
        have hsplit : pathNames c rest = rest.splitOn c :=
          List.filter_eq_self.mpr fun name hn => by simpa using (hnames name hn).1
        refine ⟨rest.splitOn c, fun name hn => ?_, ?_⟩
        · have hmem := hn
          rw [← hsplit] at hmem
          obtain ⟨hne, hdot, hdots⟩ := hnames name hn
          exact ⟨hne, (mem_pathNames hmem).2.1, hdot, hdots⟩
        · rw [joinNames, List.intercalate_splitOn]

/-- A stack as high as there are names never overflows. -/
theorem cappedNames_of_length_le {height : Nat} {names : List (List α)}
    (h : names.length ≤ height) : cappedNames dot height names = lexicalNames dot names := by
  apply (cappedNames_eq_iff height names).mpr
  intro front rest hnames hover
  exfalso
  have hfront : ∀ front : List (List α), (lexicalNames dot front).length ≤ front.length := by
    intro front
    induction front using List.reverseRecOn with
    | nil => simp [lexicalNames]
    | append_singleton front name ih =>
      rw [lexicalNames_concat, lexicalStep, List.length_append, List.length_singleton]
      split
      · omega
      split
      · rw [List.length_dropLast]
        omega
      · rw [List.length_append, List.length_singleton]
        omega
  have hle := hfront front
  rw [hnames, List.length_append] at h
  omega

theorem proper_lexicalNames (path : List α) :
    ∀ name ∈ lexicalNames dot (pathNames sep path), ProperName sep dot name := by
  rw [← cappedNames_of_length_le le_rfl]
  exact proper_cappedNames sep dot _ path

/-- Normal paths are equal when their names are. -/
theorem joinNames_inj {names names' : List (List α)} (h : ∀ name ∈ names, ProperName sep dot name)
    (h' : ∀ name ∈ names', ProperName sep dot name) :
    sep :: joinNames sep names = sep :: joinNames sep names' ↔ names = names' := by
  constructor
  · intro hjoin
    rw [← pathNames_of_proper h, hjoin, pathNames_of_proper h']
  · exact congrArg fun names => sep :: joinNames sep names

/-- What a capped stack leaves of an absolute text is no longer than the text. -/
theorem length_cappedPath_le (height : Nat) {text : List α} (habs : text.head? = some sep) :
    (sep :: joinNames sep (cappedNames dot height (pathNames sep text))).length ≤ text.length := by
  cases text with
  | nil => cases habs
  | cons c rest =>
    obtain rfl : c = sep := by simpa using habs
    rw [pathNames_sep_cons]
    by_cases hnil : cappedNames dot height (pathNames c rest) = []
    · rw [hnil]
      simp
    · have hjoin := length_joinNames c hnil
      have hstack := (cappedNames_spec dot height (pathNames c rest)).2
      have hread := pathLength_pathNames c rest
      simp only [List.length_cons]
      omega

/-- What a capped stack leaves of a text is a normal path. -/
theorem normalPath_capped (sep dot : α) (height : Nat) (text : List α) :
    NormalPath sep dot (sep :: joinNames sep (cappedNames dot height (pathNames sep text))) :=
  ⟨_, proper_cappedNames sep dot height text, rfl⟩

theorem cappedPath_subset (height : Nat) {text : List α} (habs : text.head? = some sep) :
    sep :: joinNames sep (cappedNames dot height (pathNames sep text)) ⊆ text := by
  have hsep : sep ∈ text := List.mem_of_mem_head? habs
  intro c hc
  rcases List.mem_cons.mp hc with rfl | hc
  · exact hsep
  · rcases mem_joinNames hc with rfl | hc
    · exact hsep
    · obtain ⟨name, hn, hmem⟩ := hc
      have hread := ((cappedNames_spec dot height _).1 name hn).1
      exact (mem_pathNames hread).2.2 hmem

theorem length_lexicalPath_le {text : List α} (habs : text.head? = some sep) :
    (lexicalPath sep dot text).length ≤ text.length := by
  rw [lexicalPath, ← cappedNames_of_length_le le_rfl]
  exact length_cappedPath_le _ habs

end Resolve

end SnsxOS.Framework
