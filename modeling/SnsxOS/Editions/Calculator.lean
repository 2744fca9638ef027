import SnsxOS.Editions.Expression
import SnsxOS.Framework.Fuel
import Mathlib.Data.List.DropRight

/-!
# The calculators

The recursive descent of `calc_eval` on ARM64 and `calc_evaluate` on x86. The functions are the
same in both editions; that of x86 also marks a zero divisor in a field nothing reads. They
accept exactly the expressions that have a value.
-/

namespace SnsxOS.Editions

open Framework

structure CalcState where
  cursor : Bytes
  ok : Bool
  deriving DecidableEq

def CalcState.fail (state : CalcState) : CalcState := { state with ok := false }

/-- `calc_skip` and `calc_skip_spaces`. -/
def calcSkip (state : CalcState) : CalcState :=
  { state with cursor := state.cursor.dropWhile isspace }

/-- The loop over the signs in `calc_parse_factor`. -/
def calcSigns : Nat → Bool → CalcState → Option (Bool × CalcState)
  | 0, _, _ => none
  | fuel + 1, negative, state =>
      match state.cursor with
      | [] => some (negative, state)
      | ch :: rest =>
          if ch = 43 then calcSigns fuel negative (calcSkip { state with cursor := rest })
          else if ch = 45 then calcSigns fuel (!negative) (calcSkip { state with cursor := rest })
          else some (negative, state)

/-- What `calc_parse_factor` does behind the expression in parentheses. -/
def calcClose (negative : Bool) (value : Int32) (state : CalcState) : Int32 × CalcState :=
  match (calcSkip state).cursor with
  | [] => (0, (calcSkip state).fail)
  | ch :: rest =>
      if ch = 41 then (if negative then -value else value, { state with cursor := rest })
      else (0, (calcSkip state).fail)

/-- `calc_parse_factor` behind the signs. -/
def calcUnsigned (parseExpr : CalcState → Option (Int32 × CalcState)) (negative : Bool)
    (state : CalcState) : Option (Int32 × CalcState) :=
  match state.cursor with
  | [] => some (0, state.fail)
  | ch :: rest =>
      if ch = 40 then
        (parseExpr { state with cursor := rest }).bind fun (value, state) =>
          some (calcClose negative value state)
      else if isdigit ch then
        let value := atoiDigits 0 state.cursor
        some (if negative then -value else value,
          { state with cursor := state.cursor.dropWhile isdigit })
      else some (0, state.fail)

/-- The operators the loop of `calc_parse_term` or `calc_parse_expr` looks for. -/
def Chain.operator : Chain → UInt8 → Option CalcOp
  | .product, ch => if ch = 42 then some .mul else if ch = 47 then some .div else none
  | .sum, ch => if ch = 43 then some .add else if ch = 45 then some .sub else none

/-- What a loop does with the operand it has read. -/
def calcCombine (loop : Int32 → CalcState → Option (Int32 × CalcState)) (op : CalcOp)
    (value rhs : Int32) (state : CalcState) : Option (Int32 × CalcState) :=
  if !state.ok then some (0, state)
  else match op.apply value rhs with
    | none => some (0, state.fail)
    | some value => loop value state

mutual

/-- The parser of each level; `calc_parse_term` and `calc_parse_expr` read an operand and then
run their loop. -/
def calcParse : Nat → Level → CalcState → Option (Int32 × CalcState)
  | 0, _, _ => none
  | fuel + 1, .factor, state =>
      (calcSigns fuel false (calcSkip state)).bind fun (negative, state) =>
        calcUnsigned (calcParse fuel (.chain .sum)) negative state
  | fuel + 1, .chain kind, state =>
      (calcParse fuel kind.operand state).bind fun (value, state) =>
        calcLoop fuel kind value state

/-- The loop over the operators of a chain. -/
def calcLoop : Nat → Chain → Int32 → CalcState → Option (Int32 × CalcState)
  | 0, _, _, _ => none
  | fuel + 1, kind, value, state =>
      if !state.ok then some (value, state)
      else
        match (calcSkip state).cursor with
        | [] => some (value, calcSkip state)
        | ch :: rest =>
            match kind.operator ch with
            | none => some (value, calcSkip state)
            | some op =>
                (calcParse fuel kind.operand { state with cursor := rest }).bind
                  fun (rhs, state) => calcCombine (calcLoop fuel kind) op value rhs state

end

def calcParseFactor (fuel : Nat) : CalcState → Option (Int32 × CalcState) := calcParse fuel .factor

def calcParseTerm (fuel : Nat) : CalcState → Option (Int32 × CalcState) :=
  calcParse fuel (.chain .product)

def calcParseExpr (fuel : Nat) : CalcState → Option (Int32 × CalcState) :=
  calcParse fuel (.chain .sum)

/-- `calc_eval` of ARM64: the answer and the result; no outcome when the fuel is used up. -/
def calcEval (fuel : Nat) (expr : Bytes) : Option (Bool × Int32) :=
  (calcParseExpr fuel ⟨expr, true⟩).map fun (result, state) =>
    (state.ok && (calcSkip state).cursor == [], result)

/-- `calc_evaluate` of x86. -/
def calcEvaluate (fuel : Nat) (expression : Bytes) : Option (Bool × Int32) :=
  (calcParseExpr fuel ⟨expression, true⟩).map fun (result, state) =>
    if !state.ok ∨ (calcSkip state).cursor ≠ [] then (false, result) else (true, result)

section Tokens

theorem Chain.operator_eq_some {kind : Chain} {ch : UInt8} {op : CalcOp} :
    kind.operator ch = some op ↔ op.chain = kind ∧ op.symbol = ch := by
  cases kind <;> cases op <;> grind [Chain.operator, CalcOp.chain, CalcOp.symbol]

/-- The text does not start with such a character. -/
def NotNext (kind : UInt8 → Bool) (text : Bytes) : Prop := ∀ ch ∈ text.head?, kind ch = false

/-- The chains that end with an operand of the level. -/
def Level.chains : Level → List Chain
  | .factor => []
  | .chain .product => [.product]
  | .chain .sum => [.product, .sum]

/-- Text behind an operand of the level that does not continue it. -/
structure Stops (level : Level) (rest : Bytes) : Prop where
  digits : NotNext isdigit rest
  operators : ∀ kind ∈ level.chains,
    NotNext (fun ch => (kind.operator ch).isSome) (rest.dropWhile isspace)

theorem Stops.operand {kind : Chain} {rest : Bytes} (h : Stops (.chain kind) rest) :
    Stops kind.operand rest := by
  refine ⟨h.digits, fun other hother => h.operators other ?_⟩
  cases kind with
  | product => cases hother
  | sum => exact List.mem_append_left [.sum] hother

theorem Stops.operator {kind : Chain} {rest : Bytes} (h : Stops (.chain kind) rest) :
    NotNext (fun ch => (kind.operator ch).isSome) (rest.dropWhile isspace) := by
  apply h.operators
  cases kind <;> decide

theorem notNext_blank {kind : UInt8 → Bool} {ch : UInt8} (blank : Blank) (rest : Bytes)
    (hspace : ∀ ch, isspace ch = true → kind ch = false) (hch : kind ch = false) :
    NotNext kind (blank.val ++ ch :: rest) := by
  obtain ⟨text, htext⟩ := blank
  cases text with
  | nil =>
    intro c hc
    cases hc
    exact hch
  | cons c text =>
    intro d hd
    cases hd
    exact hspace c (htext c (by simp))

theorem dropWhile_token {ch : UInt8} (blank : Blank) (rest : Bytes) (hch : isspace ch = false) :
    (blank.val ++ ch :: rest).dropWhile isspace = ch :: rest := by
  rw [dropWhile_blank, List.dropWhile_cons_of_neg (by rw [hch]; exact Bool.false_ne_true)]

theorem notNext_dropWhile (kind : UInt8 → Bool) (text : Bytes) :
    NotNext kind (text.dropWhile kind) := by
  intro ch hch
  have h := List.head?_dropWhile_not kind text
  rw [Option.mem_def.mp hch] at h
  exact h

/-- The digit loop reads exactly the digits. -/
theorem atoiDigits_text {text rest : Bytes} (htext : ∀ ch ∈ text, isdigit ch = true)
    (hrest : NotNext isdigit rest) :
    atoiDigits 0 (text ++ rest) = Int32.ofNat (decimalValue text) := by
  have hstop : ∀ value, atoiDigits value rest = value := by
    intro value
    cases rest with
    | nil => rfl
    | cons ch rest =>
      rw [atoiDigits, hrest ch rfl]
      rfl
  rw [atoiDigits_append htext, hstop]
  exact atoiDigits_decimal htext 0

theorem dropWhile_text {kind : UInt8 → Bool} {text rest : Bytes}
    (htext : ∀ ch ∈ text, kind ch = true) (hrest : NotNext kind rest) :
    (text ++ rest).dropWhile kind = rest := by
  rw [List.dropWhile_append_of_pos htext]
  cases rest with
  | nil => rfl
  | cons ch rest => rw [List.dropWhile_cons_of_neg (by rw [hrest ch rfl]; exact Bool.false_ne_true)]

/-- In front of an operator of the chain its operand ends. -/
theorem stops_operator {kind : Chain} {op : CalcOp} (hop : op.chain = kind) (blank : Blank)
    (rest : Bytes) : Stops kind.operand (blank.val ++ op.symbol :: rest) := by
  refine ⟨notNext_blank blank rest (fun _ => isdigit_of_isspace) op.symbol_not_digit, ?_⟩
  intro other hother
  rw [dropWhile_token blank rest op.symbol_not_blank]
  intro ch hch
  cases hch
  subst hop
  cases op <;> revert hother <;> cases other <;> decide

/-- In front of a closing parenthesis everything ends. -/
theorem stops_closing (level : Level) (blank : Blank) (rest : Bytes) :
    Stops level (blank.val ++ 41 :: rest) := by
  refine ⟨notNext_blank blank rest (fun _ => isdigit_of_isspace) (by decide), ?_⟩
  intro other hother
  rw [dropWhile_token blank rest (by decide)]
  intro ch hch
  cases hch
  cases other <;> decide

end Tokens

section Cursor

theorem calcSkip_suffix (state : CalcState) : (calcSkip state).cursor <:+ state.cursor :=
  List.dropWhile_suffix _

theorem calcSigns_cons (fuel : Nat) (negative : Bool) (ch : UInt8) (rest : Bytes) (ok : Bool) :
    calcSigns (fuel + 1) negative ⟨ch :: rest, ok⟩ =
      if ch = 43 then calcSigns fuel negative (calcSkip ⟨rest, ok⟩)
      else if ch = 45 then calcSigns fuel (!negative) (calcSkip ⟨rest, ok⟩)
      else some (negative, ⟨ch :: rest, ok⟩) := by
  rw [calcSigns]

theorem calcSigns_cursor {fuel : Nat} {negative : Bool} {state : CalcState}
    {result : Bool × CalcState} (h : calcSigns fuel negative state = some result) :
    result.2.cursor <:+ state.cursor ∧ result.2.ok = state.ok := by
  induction fuel generalizing negative state with
  | zero => cases h
  | succ fuel ih =>
    rw [calcSigns] at h
    split at h
    · cases h
      exact ⟨List.suffix_rfl, rfl⟩
    · rename_i ch rest hcursor
      have hrest : ∀ negative, calcSigns fuel negative (calcSkip ⟨rest, state.ok⟩) = some result →
          result.2.cursor <:+ state.cursor ∧ result.2.ok = state.ok := by
        intro negative hsigns
        obtain ⟨hsuffix, hok⟩ := ih hsigns
        rw [hcursor]
        exact ⟨(hsuffix.trans (calcSkip_suffix _)).trans (List.suffix_cons ch rest), hok⟩
      split at h
      · exact hrest negative h
      · split at h
        · exact hrest (!negative) h
        · cases h
          exact ⟨List.suffix_rfl, rfl⟩

/-- The cursor moves forward and an error stays. -/
structure Advances (before after : CalcState) : Prop where
  cursor : after.cursor <:+ before.cursor
  ok : after.ok = true → before.ok = true

theorem Advances.refl (state : CalcState) : Advances state state := ⟨List.suffix_rfl, id⟩

theorem Advances.trans {a b c : CalcState} (hab : Advances a b) (hbc : Advances b c) :
    Advances a c :=
  ⟨hbc.cursor.trans hab.cursor, fun h => hab.ok (hbc.ok h)⟩

theorem advances_skip (state : CalcState) : Advances state (calcSkip state) :=
  ⟨calcSkip_suffix state, id⟩

theorem advances_fail (state : CalcState) : Advances state state.fail :=
  ⟨List.suffix_rfl, fun h => by cases h⟩

theorem advances_rest {state : CalcState} {ch : UInt8} {rest : Bytes}
    (h : state.cursor = ch :: rest) : Advances state { state with cursor := rest } :=
  ⟨by rw [h]; exact List.suffix_cons ch rest, id⟩

theorem calcClose_advances (negative : Bool) (value : Int32) (state : CalcState) :
    Advances state (calcClose negative value state).2 := by
  rw [calcClose]
  split
  · exact (advances_skip state).trans (advances_fail _)
  · rename_i ch rest hcursor
    split
    · exact (advances_skip state).trans (advances_rest hcursor)
    · exact (advances_skip state).trans (advances_fail _)

theorem calcUnsigned_advances {parseExpr : CalcState → Option (Int32 × CalcState)}
    (hparse : ∀ state result, parseExpr state = some result → Advances state result.2)
    {negative : Bool} {state : CalcState} {result : Int32 × CalcState}
    (h : calcUnsigned parseExpr negative state = some result) : Advances state result.2 := by
  rw [calcUnsigned] at h
  split at h
  · cases h
    exact advances_fail state
  · rename_i ch rest hcursor
    split at h
    · obtain ⟨body, hbody, hclose⟩ := Option.bind_eq_some_iff.mp h
      cases hclose
      exact ((advances_rest hcursor).trans (hparse _ body hbody)).trans
        (calcClose_advances negative body.1 body.2)
    · split at h
      · cases h
        exact ⟨List.dropWhile_suffix _, id⟩
      · cases h
        exact advances_fail state

theorem calcCombine_advances {loop : Int32 → CalcState → Option (Int32 × CalcState)}
    (hloop : ∀ value state result, loop value state = some result → Advances state result.2)
    {op : CalcOp} {value rhs : Int32} {state : CalcState} {result : Int32 × CalcState}
    (h : calcCombine loop op value rhs state = some result) : Advances state result.2 := by
  rw [calcCombine] at h
  split at h
  · cases h
    exact Advances.refl state
  · split at h
    · cases h
      exact advances_fail state
    · exact hloop _ state result h

theorem calcParse_advances (fuel : Nat) :
    (∀ level state result, calcParse fuel level state = some result → Advances state result.2) ∧
    (∀ kind value state result, calcLoop fuel kind value state = some result →
      Advances state result.2) := by
  induction fuel with
  | zero =>
    constructor
    · intro level state result h
      rw [calcParse] at h
      cases h
    · intro kind value state result h
      rw [calcLoop] at h
      cases h
  | succ fuel ih =>
    obtain ⟨ihparse, ihloop⟩ := ih
    constructor
    · intro level state result h
      cases level with
      | factor =>
        rw [calcParse] at h
        obtain ⟨signs, hsigns, h⟩ := Option.bind_eq_some_iff.mp h
        obtain ⟨hcursor, hok⟩ := calcSigns_cursor hsigns
        have hfirst : Advances state signs.2 :=
          ⟨hcursor.trans (calcSkip_suffix state), fun h => hok ▸ h⟩
        exact hfirst.trans (calcUnsigned_advances (ihparse (.chain .sum)) h)
      | chain kind =>
        rw [calcParse] at h
        obtain ⟨operand, hoperand, h⟩ := Option.bind_eq_some_iff.mp h
        exact (ihparse kind.operand state operand hoperand).trans (ihloop kind _ _ result h)
    · intro kind value state result h
      rw [calcLoop] at h
      split at h
      · cases h
        exact Advances.refl state
      · split at h
        · cases h
          exact advances_skip state
        · rename_i ch rest hcursor
          split at h
          · cases h
            exact advances_skip state
          · rename_i op hop
            obtain ⟨⟨rhs, operand⟩, hoperand, h⟩ := Option.bind_eq_some_iff.mp h
            have hstep : Advances state operand := ((advances_skip state).trans
              (advances_rest hcursor)).trans (ihparse kind.operand _ _ hoperand)
            exact hstep.trans (calcCombine_advances (ihloop kind) h)

end Cursor

section Equations

variable {state : CalcState} {result : Int32 × CalcState}

theorem settles_factor {negative : Bool} {signless : CalcState}
    (hsigns : Settles (fun fuel => calcSigns fuel false (calcSkip state)) (negative, signless))
    (h : Settles (fun fuel => calcUnsigned (calcParse fuel (.chain .sum)) negative signless)
      result) : Settles (fun fuel => calcParse fuel .factor state) result :=
  Settles.succ (fun _ => by rw [calcParse]) (hsigns.bind
    (fun fuel signs => calcUnsigned (calcParse fuel (.chain .sum)) signs.1 signs.2) h)

theorem settles_chain {kind : Chain} {value : Int32} {next : CalcState}
    (hoperand : Settles (fun fuel => calcParse fuel kind.operand state) (value, next))
    (h : Settles (fun fuel => calcLoop fuel kind value next) result) :
    Settles (fun fuel => calcParse fuel (.chain kind) state) result :=
  Settles.succ (fun _ => by rw [calcParse]) (hoperand.bind
    (fun fuel operand => calcLoop fuel kind operand.1 operand.2) h)

theorem settles_loop_failed {kind : Chain} {value : Int32} (hok : state.ok = false) :
    Settles (fun fuel => calcLoop fuel kind value state) (value, state) := by
  refine Settles.succ (fun fuel => ?_) (settles_some (value, state))
  rw [calcLoop, hok]
  rfl

/-- The loop ends where no operator of the chain follows. -/
theorem settles_loop_end {kind : Chain} {value : Int32} (hok : state.ok = true)
    (h : NotNext (fun ch => (kind.operator ch).isSome) (calcSkip state).cursor) :
    Settles (fun fuel => calcLoop fuel kind value state) (value, calcSkip state) := by
  refine Settles.succ (fun fuel => ?_) (settles_some (value, calcSkip state))
  rw [calcLoop, hok]
  simp only [Bool.not_true, Bool.false_eq_true, if_false]
  split
  · rfl
  · rename_i ch rest hcursor
    have hch := h ch (by rw [hcursor]; rfl)
    rw [Option.isSome_eq_false_iff, Option.isNone_iff_eq_none] at hch
    rw [hch]

/-- One turn of the loop. -/
theorem settles_loop_turn {kind : Chain} {value rhs : Int32} {next : CalcState} {op : CalcOp}
    {rest : Bytes} (hop : op.chain = kind) (hok : state.ok = true)
    (hcursor : (calcSkip state).cursor = op.symbol :: rest)
    (hoperand : Settles (fun fuel => calcParse fuel kind.operand ⟨rest, true⟩) (rhs, next))
    (h : Settles (fun fuel => calcCombine (calcLoop fuel kind) op value rhs next) result) :
    Settles (fun fuel => calcLoop fuel kind value state) result := by
  have hoperator := Chain.operator_eq_some.mpr ⟨hop, rfl⟩
  refine Settles.succ (fun fuel => ?_) (hoperand.bind
    (fun fuel operand => calcCombine (calcLoop fuel kind) op value operand.1 operand.2) h)
  rw [calcLoop, hok, hcursor]
  simp only [Bool.not_true, Bool.false_eq_true, if_false]
  rw [hoperator]

end Equations

section Termination

theorem calcSigns_settles (negative : Bool) (state : CalcState) :
    ∃ result, Settles (fun fuel => calcSigns fuel negative state) result := by
  obtain ⟨cursor, ok⟩ := state
  induction hlen : cursor.length using Nat.strong_induction_on generalizing cursor negative with
  | _ n ih =>
    cases cursor with
    | nil =>
      exact ⟨(negative, ⟨[], ok⟩), Settles.succ (fun _ => by rw [calcSigns]) (settles_some _)⟩
    | cons ch rest =>
      have hshort : (rest.dropWhile isspace).length < n := by
        have hle := (List.dropWhile_suffix (p := isspace) (l := rest)).length_le
        rw [List.length_cons] at hlen
        omega
      by_cases hplus : ch = 43
      · obtain ⟨result, h⟩ := ih _ hshort negative _ rfl
        refine ⟨result, Settles.succ (fun fuel => ?_) h⟩
        rw [calcSigns_cons, if_pos hplus, calcSkip]
      · by_cases hminus : ch = 45
        · obtain ⟨result, h⟩ := ih _ hshort (!negative) _ rfl
          refine ⟨result, Settles.succ (fun fuel => ?_) h⟩
          rw [calcSigns_cons, if_neg hplus, if_pos hminus, calcSkip]
        · refine ⟨_, Settles.succ (fun fuel => ?_) (settles_some (negative, ⟨ch :: rest, ok⟩))⟩
          rw [calcSigns_cons, if_neg hplus, if_neg hminus]

/-- Parsing from every cursor of this length comes to an end. -/
structure Ends (n : Nat) : Prop where
  parse : ∀ level state, state.cursor.length = n →
    ∃ result, Settles (fun fuel => calcParse fuel level state) result
  loop : ∀ kind value state, state.cursor.length = n →
    ∃ result, Settles (fun fuel => calcLoop fuel kind value state) result

theorem settles_advances {level : Level} {state : CalcState} {result : Int32 × CalcState}
    (h : Settles (fun fuel => calcParse fuel level state) result) : Advances state result.2 := by
  obtain ⟨fuel, hrun⟩ := h.exists_run
  exact (calcParse_advances fuel).1 level state result hrun

theorem calcLoop_settles {n : Nat} (ih : ∀ m < n, Ends m) (kind : Chain) (value : Int32)
    (state : CalcState) (hlen : state.cursor.length = n) :
    ∃ result, Settles (fun fuel => calcLoop fuel kind value state) result := by
  by_cases hok : state.ok = true
  · by_cases hend : NotNext (fun ch => (kind.operator ch).isSome) (calcSkip state).cursor
    · exact ⟨_, settles_loop_end hok hend⟩
    · rw [NotNext] at hend
      push Not at hend
      obtain ⟨ch, hch, hop⟩ := hend
      rw [ne_eq, Bool.not_eq_false, Option.isSome_iff_exists] at hop
      obtain ⟨op, hop⟩ := hop
      obtain ⟨hkind, rfl⟩ := Chain.operator_eq_some.mp hop
      obtain ⟨rest, hcursor⟩ := List.head?_eq_some_iff.mp (Option.mem_def.mp hch)
      have hshort : rest.length < n := by
        have hle := (calcSkip_suffix state).length_le
        rw [hcursor, List.length_cons] at hle
        omega
      obtain ⟨⟨rhs, next⟩, hoperand⟩ := (ih _ hshort).parse kind.operand ⟨rest, true⟩ rfl
      have hnext := (settles_advances hoperand).cursor.length_le
      have hcombine : ∃ result, Settles (fun fuel =>
          calcCombine (calcLoop fuel kind) op value rhs next) result := by
        simp only [calcCombine]
        split
        · exact ⟨_, settles_some _⟩
        · cases op.apply value rhs with
          | none => exact ⟨_, settles_some _⟩
          | some value => exact (ih _ (lt_of_le_of_lt hnext hshort)).loop kind value next rfl
      obtain ⟨result, hresult⟩ := hcombine
      exact ⟨result, settles_loop_turn hkind hok hcursor hoperand hresult⟩
  · exact ⟨_, settles_loop_failed (Bool.eq_false_iff.mpr hok)⟩

theorem calcFactor_settles {n : Nat} (ih : ∀ m < n, Ends m) (state : CalcState)
    (hlen : state.cursor.length = n) :
    ∃ result, Settles (fun fuel => calcParse fuel .factor state) result := by
  obtain ⟨⟨negative, signless⟩, hsigns⟩ := calcSigns_settles false (calcSkip state)
  obtain ⟨fuel, hrun⟩ := hsigns.exists_run
  have hle := ((calcSigns_cursor hrun).1.trans (calcSkip_suffix state)).length_le
  have hrest : ∃ result, Settles (fun fuel =>
      calcUnsigned (calcParse fuel (.chain .sum)) negative signless) result := by
    simp only [calcUnsigned]
    split
    · exact ⟨_, settles_some _⟩
    · rename_i ch rest hcursor
      split
      · have hshort : rest.length < n := by
          rw [hcursor, List.length_cons] at hle
          omega
        obtain ⟨body, hbody⟩ := (ih _ hshort).parse (.chain .sum) ⟨rest, signless.ok⟩ rfl
        exact ⟨_, hbody.bind (fun _ body => some (calcClose negative body.1 body.2))
          (settles_some _)⟩
      · split
        · exact ⟨_, settles_some _⟩
        · exact ⟨_, settles_some _⟩
  obtain ⟨result, hresult⟩ := hrest
  exact ⟨result, settles_factor hsigns hresult⟩

/-- Parsing comes to an end from every state. -/
theorem calcParse_ends (n : Nat) : Ends n := by
  induction n using Nat.strong_induction_on with
  | _ n ih =>
    have hloop := calcLoop_settles ih
    -- an operand may stop anywhere, so its loop may start at this or a shorter cursor
    have hchain : ∀ kind state, state.cursor.length = n →
        (∃ result, Settles (fun fuel => calcParse fuel kind.operand state) result) →
        ∃ result, Settles (fun fuel => calcParse fuel (.chain kind) state) result := by
      intro kind state hlen hoperand
      obtain ⟨⟨value, next⟩, hoperand⟩ := hoperand
      have hle : next.cursor.length ≤ state.cursor.length :=
        (settles_advances hoperand).cursor.length_le
      have hnext : ∃ result, Settles (fun fuel => calcLoop fuel kind value next) result := by
        rcases Nat.lt_or_eq_of_le hle with hlt | heq
        · exact (ih _ (by omega)).loop kind value next rfl
        · exact hloop kind value next (by omega)
      obtain ⟨result, hresult⟩ := hnext
      exact ⟨result, settles_chain hoperand hresult⟩
    have hterm : ∀ state : CalcState, state.cursor.length = n →
        ∃ result, Settles (fun fuel => calcParse fuel (.chain .product) state) result :=
      fun state hlen => hchain .product state hlen (calcFactor_settles ih state hlen)
    refine ⟨fun level state hlen => ?_, hloop⟩
    cases level with
    | factor => exact calcFactor_settles ih state hlen
    | chain kind =>
      cases kind with
      | product => exact hterm state hlen
      | sum => exact hchain .sum state hlen (hterm state hlen)

end Termination

section Soundness

/-- What stands between the cursors of the two states is a tree with this value, up to white
space behind it. -/
def Reads (level : Level) (before after : Bytes) (value : Int32) : Prop :=
  ∃ (tree : ExprTree level) (blank : Blank),
    before = tree.text ++ (blank.val ++ after) ∧ tree.value = some value

theorem calcSigns_sound {fuel : Nat} {negative : Bool} {state next : CalcState}
    {result : Bool} (h : calcSigns fuel negative (calcSkip state) = some (result, next)) :
    next.ok = state.ok ∧ ∃ (signs : List Sign) (blank : Blank),
      state.cursor = signs.flatMap Sign.text ++ (blank.val ++ next.cursor) ∧
      ∀ value : Int32, (if result then -value else value) =
        if negative then -signed signs value else signed signs value := by
  induction fuel generalizing negative state with
  | zero => cases h
  | succ fuel ih =>
    have hblank := leadingBlank_append state.cursor
    rw [calcSkip] at h
    cases hcursor : state.cursor.dropWhile isspace with
    | nil =>
      rw [hcursor] at h hblank
      cases h
      exact ⟨rfl, [], leadingBlank state.cursor, hblank.symm, fun value => rfl⟩
    | cons ch rest =>
      rw [hcursor, calcSigns_cons] at h
      rw [hcursor] at hblank
      split at h
      · rename_i hplus
        obtain ⟨hok, signs, blank, htext, hvalue⟩ := ih h
        refine ⟨hok, ⟨leadingBlank state.cursor, false⟩ :: signs, blank, ?_, hvalue⟩
        have hrest : rest = signs.flatMap Sign.text ++ (blank.val ++ next.cursor) := htext
        refine hblank.symm.trans ?_
        rw [hplus, hrest]
        simp [Sign.text]
      · split at h
        · rename_i hminus
          obtain ⟨hok, signs, blank, htext, hvalue⟩ := ih h
          refine ⟨hok, ⟨leadingBlank state.cursor, true⟩ :: signs, blank, ?_, ?_⟩
          · have hrest : rest = signs.flatMap Sign.text ++ (blank.val ++ next.cursor) := htext
            refine hblank.symm.trans ?_
            rw [hminus, hrest]
            simp [Sign.text]
          · intro value
            rw [hvalue value]
            cases negative with
            | false => rfl
            | true => exact Int32.neg_neg.symm
        · cases h
          exact ⟨rfl, [], leadingBlank state.cursor, hblank.symm, fun value => rfl⟩

theorem calcClose_sound {negative : Bool} {value result : Int32} {state next : CalcState}
    (h : calcClose negative value state = (result, next)) (hok : next.ok = true) :
    result = (if negative then -value else value) ∧
      ∃ blank : Blank, state.cursor = blank.val ++ 41 :: next.cursor := by
  have hblank := leadingBlank_append state.cursor
  rw [calcClose] at h
  split at h
  · cases h
    cases hok
  · rename_i ch rest hcursor
    have hskipped : state.cursor.dropWhile isspace = ch :: rest := hcursor
    split at h
    · rename_i hclosing
      cases h
      refine ⟨rfl, leadingBlank state.cursor, hblank.symm.trans ?_⟩
      rw [hskipped, hclosing]
    · cases h
      cases hok

/-- A number at the end of the text does not go on behind it. -/
def WholeNumber (text rest : Bytes) : Prop :=
  (∃ ch ∈ text.getLast?, isdigit ch = true) → NotNext isdigit rest

/-- What the parser of a factor reads is a tree with this value. -/
theorem calcUnsigned_sound {parseExpr : CalcState → Option (Int32 × CalcState)}
    (hparse : ∀ state value next, parseExpr state = some (value, next) → next.ok = true →
      Reads (.chain .sum) state.cursor next.cursor value)
    {negative : Bool} {state next : CalcState} {value : Int32}
    (h : calcUnsigned parseExpr negative state = some (value, next)) (hok : next.ok = true)
    {before : Bytes} {signs : List Sign} {blank : Blank}
    (hbefore : before = signs.flatMap Sign.text ++ (blank.val ++ state.cursor))
    (hsigned : ∀ value : Int32, (if negative then -value else value) = signed signs value) :
    ∃ tree : ExprTree .factor, before = tree.text ++ next.cursor ∧ tree.value = some value ∧
      WholeNumber tree.text next.cursor := by
  rw [calcUnsigned] at h
  split at h
  · cases h
    cases hok
  · rename_i ch rest hcursor
    split at h
    · rename_i hopening
      obtain ⟨⟨inner, closing⟩, hbody, hclose⟩ := Option.bind_eq_some_iff.mp h
      have hclose := Option.some.inj hclose
      have hadvances := calcClose_advances negative inner closing
      rw [hclose] at hadvances
      obtain ⟨hvalue, gap, hclosing⟩ := calcClose_sound hclose hok
      obtain ⟨body, trailing, htext, hinner⟩ := hparse _ inner closing hbody (hadvances.ok hok)
      have hrest : rest = body.text ++ (trailing.val ++ closing.cursor) := htext
      refine ⟨.group signs blank body (trailing.append gap), ?_, ?_, ?_⟩
      · rw [hbefore, hcursor, hopening, hrest, hclosing]
        simp [ExprTree.text, Blank.append]
      · rw [ExprTree.value, hinner, Option.map_some, hvalue, hsigned]
      · -- the text ends in the closing parenthesis
        intro hlast
        obtain ⟨ch, hch, hdigit⟩ := hlast
        have hend : (ExprTree.group signs blank body (trailing.append gap)).text =
            signs.flatMap Sign.text ++ (blank.val ++ 40 ::
              (body.text ++ (trailing.append gap).val)) ++ [41] := by
          simp [ExprTree.text]
        rw [hend, List.getLast?_concat] at hch
        cases hch
        cases hdigit
    · split at h
      · rename_i hdigit
        cases h
        have hdigits : state.cursor.takeWhile isdigit ≠ [] ∧
            ∀ ch ∈ state.cursor.takeWhile isdigit, isdigit ch = true := by
          refine ⟨?_, fun _ hch => List.mem_takeWhile_imp hch⟩
          rw [hcursor, List.takeWhile_cons_of_pos hdigit]
          exact List.cons_ne_nil _ _
        refine ⟨.number signs blank ⟨_, hdigits⟩, ?_, ?_, fun _ => notNext_dropWhile isdigit _⟩
        · rw [hbefore]
          simp [ExprTree.text, List.takeWhile_append_dropWhile]
        · have hnumber := atoiDigits_text hdigits.2 (notNext_dropWhile isdigit state.cursor)
          rw [List.takeWhile_append_dropWhile] at hnumber
          rw [ExprTree.value, ← hsigned, hnumber]
      · cases h
        cases hok

theorem calcCombine_sound {loop : Int32 → CalcState → Option (Int32 × CalcState)} {op : CalcOp}
    {first rhs value : Int32} {operand next : CalcState}
    (h : calcCombine loop op first rhs operand = some (value, next)) (hok : next.ok = true) :
    operand.ok = true ∧
      ∃ total, op.apply first rhs = some total ∧ loop total operand = some (value, next) := by
  rw [calcCombine] at h
  split at h
  · rename_i hfailed
    cases h
    rw [hok] at hfailed
    cases hfailed
  · rename_i hfine
    split at h
    · cases h
      cases hok
    · rename_i total htotal
      exact ⟨by simpa using hfine, total, htotal, h⟩

theorem calcParse_sound (fuel : Nat) :
    (∀ level state value next, calcParse fuel level state = some (value, next) → next.ok = true →
      Reads level state.cursor next.cursor value) ∧
    (∀ kind first state value next, calcLoop fuel kind first state = some (value, next) →
      next.ok = true → ∀ (left : ExprTree (.chain kind)) (blank : Blank), left.value = some first →
      Reads (.chain kind) (left.text ++ (blank.val ++ state.cursor)) next.cursor value) := by
  induction fuel with
  | zero =>
    constructor
    · intro level state value next h
      rw [calcParse] at h
      cases h
    · intro kind first state value next h
      rw [calcLoop] at h
      cases h
  | succ fuel ih =>
    obtain ⟨ihparse, ihloop⟩ := ih
    constructor
    · intro level state value next h hok
      cases level with
      | factor =>
        rw [calcParse] at h
        obtain ⟨⟨negative, signless⟩, hsigns, h⟩ := Option.bind_eq_some_iff.mp h
        obtain ⟨-, signs, blank, htext, hsigned⟩ := calcSigns_sound hsigns
        obtain ⟨tree, htree, hvalue, -⟩ :=
          calcUnsigned_sound (ihparse (.chain .sum)) h hok htext hsigned
        exact ⟨tree, noBlank, htree, hvalue⟩
      | chain kind =>
        rw [calcParse] at h
        obtain ⟨⟨first, operand⟩, hoperand, h⟩ := Option.bind_eq_some_iff.mp h
        have hadvances : Advances operand next := (calcParse_advances fuel).2 kind first operand _ h
        obtain ⟨tree, blank, htext, hvalue⟩ :=
          ihparse kind.operand state first operand hoperand (hadvances.ok hok)
        rw [htext]
        exact ihloop kind first operand value next h hok (.single tree) blank hvalue
    · intro kind first state value next h hok left blank hleft
      have hblank := leadingBlank_append state.cursor
      have hend : next = calcSkip state → value = first →
          Reads (.chain kind) (left.text ++ (blank.val ++ state.cursor)) next.cursor value := by
        rintro rfl rfl
        refine ⟨left, blank.append (leadingBlank state.cursor), ?_, hleft⟩
        rw [Blank.append, List.append_assoc]
        simp only [calcSkip, hblank]
      rw [calcLoop] at h
      split at h
      · rename_i hfailed
        cases h
        rw [hok] at hfailed
        cases hfailed
      · split at h
        · cases h
          exact hend rfl rfl
        · rename_i ch rest hcursor
          split at h
          · cases h
            exact hend rfl rfl
          · rename_i op hop
            obtain ⟨hkind, hsymbol⟩ := Chain.operator_eq_some.mp hop
            obtain ⟨⟨rhs, operand⟩, hoperand, h⟩ := Option.bind_eq_some_iff.mp h
            obtain ⟨hfine, total, htotal, hloop⟩ := calcCombine_sound h hok
            obtain ⟨right, gap, htext, hright⟩ := ihparse kind.operand _ rhs operand hoperand hfine
            have hrest : rest = right.text ++ (gap.val ++ operand.cursor) := htext
            have hskipped : state.cursor.dropWhile isspace = ch :: rest := hcursor
            have hreads := ihloop kind total operand value next hloop hok
              (.extend left (blank.append (leadingBlank state.cursor)) op hkind right) gap
              (by rw [ExprTree.value, hleft, hright, Option.bind_some, Option.bind_some, htotal])
            rw [hskipped, hrest, ← hsymbol] at hblank
            rw [← hblank]
            simpa [ExprTree.text, Blank.append] using hreads

/-- A factor is read up to the end of its last token. -/
theorem calcFactor_sound {fuel : Nat} {state next : CalcState} {value : Int32}
    (h : calcParse fuel .factor state = some (value, next)) (hok : next.ok = true) :
    ∃ tree : ExprTree .factor, state.cursor = tree.text ++ next.cursor ∧
      tree.value = some value ∧ WholeNumber tree.text next.cursor := by
  cases fuel with
  | zero =>
    rw [calcParse] at h
    cases h
  | succ fuel =>
    rw [calcParse] at h
    obtain ⟨⟨negative, signless⟩, hsigns, h⟩ := Option.bind_eq_some_iff.mp h
    obtain ⟨-, signs, blank, htext, hsigned⟩ := calcSigns_sound hsigns
    exact calcUnsigned_sound ((calcParse_sound fuel).1 (.chain .sum)) h hok htext hsigned

end Soundness

section Completeness

theorem calcSkip_token {ch : UInt8} (blank : Blank) (rest : Bytes) (hch : isspace ch = false) :
    calcSkip ⟨blank.val ++ ch :: rest, true⟩ = ⟨ch :: rest, true⟩ := by
  rw [calcSkip, dropWhile_token blank rest hch]

theorem calcSkip_sign (sign : Sign) (signs : List Sign) (rest : Bytes) :
    calcSkip ⟨(sign :: signs).flatMap Sign.text ++ rest, true⟩ =
      ⟨(if sign.negative then 45 else 43) :: (signs.flatMap Sign.text ++ rest), true⟩ := by
  rw [List.flatMap_cons, Sign.text, List.append_assoc, List.append_assoc, List.singleton_append,
    calcSkip_token]
  cases sign.negative <;> decide

theorem calcSigns_text {ch : UInt8} (hspace : isspace ch = false) (hplus : ch ≠ 43)
    (hminus : ch ≠ 45) (rest : Bytes) (signs : List Sign) (blank : Blank) (negative : Bool) :
    ∃ result, Settles (fun fuel => calcSigns fuel negative
        (calcSkip ⟨signs.flatMap Sign.text ++ (blank.val ++ ch :: rest), true⟩))
        (result, ⟨ch :: rest, true⟩) ∧
      ∀ value : Int32, (if result then -value else value) =
        if negative then -signed signs value else signed signs value := by
  induction signs generalizing negative with
  | nil =>
    rw [List.flatMap_nil, List.nil_append, calcSkip_token blank rest hspace]
    refine ⟨negative, Settles.succ (fun fuel => ?_) (settles_some _), fun value => rfl⟩
    rw [calcSigns_cons, if_neg hplus, if_neg hminus]
  | cons sign signs ih =>
    rw [calcSkip_sign]
    obtain ⟨gap, minus⟩ := sign
    cases minus with
    | false =>
      obtain ⟨result, hsettles, hvalue⟩ := ih negative
      refine ⟨result, Settles.succ (fun fuel => ?_) hsettles, hvalue⟩
      rw [if_neg Bool.false_ne_true, calcSigns_cons, if_pos rfl]
    | true =>
      obtain ⟨result, hsettles, hvalue⟩ := ih (!negative)
      refine ⟨result, Settles.succ (fun fuel => ?_) hsettles, ?_⟩
      · rw [if_pos rfl, calcSigns_cons, if_neg (by decide), if_pos rfl]
      · intro value
        rw [hvalue value]
        cases negative with
        | false => rfl
        | true => exact Int32.neg_neg.symm

theorem calcLoop_skip (fuel : Nat) (kind : Chain) (value : Int32) (cursor : Bytes) :
    calcLoop fuel kind value ⟨cursor, true⟩ =
      calcLoop fuel kind value ⟨cursor.dropWhile isspace, true⟩ := by
  cases fuel with
  | zero => rw [calcLoop, calcLoop]
  | succ fuel =>
    rw [calcLoop, calcLoop]
    simp only [calcSkip, List.dropWhile_idempotent, Bool.not_true, Bool.false_eq_true, if_false]

/-- The run ends with the error flag set. -/
def Fails (run : Nat → Option (Int32 × CalcState)) : Prop :=
  ∃ result, Settles run result ∧ result.2.ok = false

/-- Parsing the text of a tree gives its value, or an error when it has none. -/
structure Parses {level : Level} (tree : ExprTree level) : Prop where
  value : ∀ rest v, Stops level rest → tree.value = some v →
    ∃ after, after.dropWhile isspace = rest.dropWhile isspace ∧
      Settles (fun fuel => calcParse fuel level ⟨tree.text ++ rest, true⟩) (v, ⟨after, true⟩)
  fails : ∀ rest, Stops level rest → tree.value = none →
    Fails fun fuel => calcParse fuel level ⟨tree.text ++ rest, true⟩

/-- Parsing the text of a chain leaves its loop with the value so far. -/
structure Continues {kind : Chain} (tree : ExprTree (.chain kind)) : Prop where
  value : ∀ rest v result, Stops kind.operand rest → tree.value = some v →
    Settles (fun fuel => calcLoop fuel kind v ⟨rest.dropWhile isspace, true⟩) result →
    Settles (fun fuel => calcParse fuel (.chain kind) ⟨tree.text ++ rest, true⟩) result
  fails : ∀ rest, Stops kind.operand rest → tree.value = none →
    Fails fun fuel => calcParse fuel (.chain kind) ⟨tree.text ++ rest, true⟩

def Complete : {level : Level} → ExprTree level → Prop
  | .factor, tree => Parses tree
  | .chain _, tree => Continues tree

theorem Complete.parses {level : Level} {tree : ExprTree level} (h : Complete tree) :
    Parses tree := by
  cases level with
  | factor => exact h
  | chain kind =>
    have hcontinues : Continues tree := h
    constructor
    · intro rest v hstops hvalue
      refine ⟨rest.dropWhile isspace, List.dropWhile_idempotent _ _, ?_⟩
      apply hcontinues.value rest v _ hstops.operand hvalue
      have hskip : calcSkip ⟨rest.dropWhile isspace, true⟩ = ⟨rest.dropWhile isspace, true⟩ := by
        rw [calcSkip, List.dropWhile_idempotent]
      have hend := @settles_loop_end ⟨rest.dropWhile isspace, true⟩ kind v rfl
        (by rw [hskip]; exact hstops.operator)
      rw [hskip] at hend
      exact hend
    · intro rest hstops hvalue
      exact hcontinues.fails rest hstops.operand hvalue

/-- A number is read whole. -/
theorem number_parses (signs : List Sign) (blank : Blank) (digits : Digits) :
    Parses (.number signs blank digits) := by
  constructor
  · intro rest v hstops hvalue
    obtain ⟨text, hne, hdigits⟩ := digits
    obtain ⟨ch, more, rfl⟩ := List.exists_cons_of_ne_nil hne
    have hdigit := hdigits ch (by simp)
    obtain ⟨negative, hsigns, hsigned⟩ := calcSigns_text
      (Bool.eq_false_iff.mpr (isspace_of_isdigit hdigit))
      (fun h => by rw [h] at hdigit; cases hdigit) (fun h => by rw [h] at hdigit; cases hdigit)
      (more ++ rest) signs blank false
    refine ⟨rest, rfl, ?_⟩
    have htext : (ExprTree.number signs blank ⟨ch :: more, hne, hdigits⟩).text ++ rest =
        signs.flatMap Sign.text ++ (blank.val ++ ch :: (more ++ rest)) := by
      simp [ExprTree.text]
    rw [htext]
    apply settles_factor hsigns
    have hopening : ¬ ch = 40 := by
      intro h
      rw [h] at hdigit
      cases hdigit
    have hnumber := atoiDigits_text hdigits hstops.digits
    have hdrop := dropWhile_text hdigits hstops.digits
    rw [List.cons_append] at hnumber hdrop
    simp only [calcUnsigned, hopening, hdigit, if_true, if_false, hnumber, hdrop, hsigned]
    rw [← Option.some.inj hvalue]
    exact settles_some _
  · intro rest _ hvalue
    cases hvalue

theorem single_continues {kind : Chain} {operand : ExprTree kind.operand} (h : Parses operand) :
    Continues (.single operand) := by
  constructor
  · intro rest v result hstops hvalue hloop
    obtain ⟨after, hafter, hoperand⟩ := h.value rest v hstops hvalue
    apply settles_chain hoperand
    simp only [calcLoop_skip _ kind v after, hafter]
    exact hloop
  · intro rest hstops hvalue
    obtain ⟨⟨v, next⟩, hoperand, hok⟩ := h.fails rest hstops hvalue
    exact ⟨(v, next), settles_chain hoperand (settles_loop_failed hok), hok⟩

theorem extend_continues {kind : Chain} {left : ExprTree (.chain kind)} (blank : Blank)
    {op : CalcOp} (hop : op.chain = kind) {right : ExprTree kind.operand} (hleft : Continues left)
    (hright : Parses right) : Continues (.extend left blank op hop right) := by
  have htext : ∀ rest, (ExprTree.extend left blank op hop right).text ++ rest =
      left.text ++ (blank.val ++ op.symbol :: (right.text ++ rest)) := by
    intro rest
    simp [ExprTree.text]
  have hcursor : ∀ rest,
      (blank.val ++ op.symbol :: rest).dropWhile isspace = op.symbol :: rest :=
    fun rest => dropWhile_token blank rest op.symbol_not_blank
  have hskip : ∀ rest, (calcSkip ⟨op.symbol :: rest, true⟩).cursor = op.symbol :: rest := by
    intro rest
    have h := calcSkip_token noBlank rest op.symbol_not_blank
    exact congrArg CalcState.cursor h
  constructor
  · intro rest v result hstops hvalue hloop
    obtain ⟨first, hfirst, hvalue⟩ := Option.bind_eq_some_iff.mp hvalue
    obtain ⟨second, hsecond, happly⟩ := Option.bind_eq_some_iff.mp hvalue
    obtain ⟨after, hafter, hoperand⟩ := hright.value rest second hstops hsecond
    rw [htext]
    apply hleft.value _ first result (stops_operator hop blank _) hfirst
    rw [hcursor]
    apply settles_loop_turn hop rfl (hskip _) hoperand
    simp only [calcCombine, happly, Bool.not_true, Bool.false_eq_true, if_false]
    simp only [calcLoop_skip _ kind v after, hafter]
    exact hloop
  · intro rest hstops hvalue
    rw [htext]
    cases hfirst : left.value with
    | none => exact hleft.fails _ (stops_operator hop blank _) hfirst
    | some first =>
      have hturn : ∀ result, Settles (fun fuel =>
          calcLoop fuel kind first ⟨op.symbol :: (right.text ++ rest), true⟩) result →
          Settles (fun fuel => calcParse fuel (.chain kind)
            ⟨left.text ++ (blank.val ++ op.symbol :: (right.text ++ rest)), true⟩) result := by
        intro result hloop
        apply hleft.value _ first result (stops_operator hop blank _) hfirst
        rw [hcursor]
        exact hloop
      cases hsecond : right.value with
      | none =>
        obtain ⟨⟨second, next⟩, hoperand, hok⟩ := hright.fails rest hstops hsecond
        refine ⟨(0, next), hturn _ (settles_loop_turn hop rfl (hskip _) hoperand ?_), hok⟩
        have hfailed : next.ok = false := hok
        simp only [calcCombine, hfailed, Bool.not_false, if_true]
        exact settles_some _
      | some second =>
        obtain ⟨after, -, hoperand⟩ := hright.value rest second hstops hsecond
        rw [ExprTree.value, hfirst, hsecond] at hvalue
        have happly : op.apply first second = none := hvalue
        refine ⟨(0, CalcState.fail ⟨after, true⟩),
          hturn _ (settles_loop_turn hop rfl (hskip _) hoperand ?_), rfl⟩
        simp only [calcCombine, happly, Bool.not_true, Bool.false_eq_true, if_false]
        exact settles_some _

theorem settles_group {negative : Bool} {more : Bytes} {body : Int32 × CalcState}
    (h : Settles (fun fuel => calcParse fuel (.chain .sum) ⟨more, true⟩) body) :
    Settles (fun fuel => calcUnsigned (calcParse fuel (.chain .sum)) negative ⟨40 :: more, true⟩)
      (calcClose negative body.1 body.2) :=
  h.bind (fun _ body => some (calcClose negative body.1 body.2)) (settles_some _)

theorem group_text (signs : List Sign) (opening : Blank) (body : ExprTree (.chain .sum))
    (closing : Blank) (rest : Bytes) : (ExprTree.group signs opening body closing).text ++ rest =
      signs.flatMap Sign.text ++
        (opening.val ++ 40 :: (body.text ++ (closing.val ++ 41 :: rest))) := by
  simp [ExprTree.text]

/-- A group with a value is read up to its closing parenthesis, whatever follows. -/
theorem group_value (signs : List Sign) (opening : Blank) {body : ExprTree (.chain .sum)}
    (closing : Blank) (hbody : Continues body) (rest : Bytes) {v : Int32}
    (hvalue : (ExprTree.group signs opening body closing).value = some v) :
    Settles (fun fuel => calcParse fuel .factor
      ⟨(ExprTree.group signs opening body closing).text ++ rest, true⟩) (v, ⟨rest, true⟩) := by
  obtain ⟨inner, hinner, rfl⟩ := Option.map_eq_some_iff.mp hvalue
  obtain ⟨negative, hsigns, hsigned⟩ := @calcSigns_text 40 (by decide) (by decide)
    (by decide) (body.text ++ (closing.val ++ 41 :: rest)) signs opening false
  have hend : Settles (fun fuel => calcLoop fuel .sum inner
      ⟨(closing.val ++ 41 :: rest).dropWhile isspace, true⟩) (inner, ⟨41 :: rest, true⟩) := by
    rw [dropWhile_token closing rest (by decide)]
    apply settles_loop_end rfl
    intro ch hch
    cases hch
    rfl
  have hinside := hbody.value _ inner _ (stops_closing _ closing rest) hinner hend
  rw [group_text]
  apply settles_factor hsigns
  have hclose : calcClose negative inner ⟨41 :: rest, true⟩ =
      (signed signs inner, ⟨rest, true⟩) := by
    have hvalue : (if negative then -inner else inner) = signed signs inner := hsigned inner
    rw [← hvalue]
    rfl
  have hgroup := @settles_group negative _ _ hinside
  rw [hclose] at hgroup
  exact hgroup

theorem group_parses (signs : List Sign) (opening : Blank) {body : ExprTree (.chain .sum)}
    (closing : Blank) (hbody : Continues body) : Parses (.group signs opening body closing) := by
  constructor
  · intro rest v _ hvalue
    exact ⟨rest, rfl, group_value signs opening closing hbody rest hvalue⟩
  · intro rest _ hvalue
    have hinner : body.value = none := Option.map_eq_none_iff.mp hvalue
    obtain ⟨negative, hsigns, -⟩ := @calcSigns_text 40 (by decide) (by decide)
      (by decide) (body.text ++ (closing.val ++ 41 :: rest)) signs opening false
    obtain ⟨inside, hinside, hfailed⟩ := hbody.fails _ (stops_closing _ closing rest) hinner
    rw [group_text]
    refine ⟨_, settles_factor hsigns (settles_group hinside), ?_⟩
    cases hok : (calcClose negative inside.1 inside.2).2.ok with
    | false => rfl
    | true =>
      rw [(calcClose_advances negative inside.1 inside.2).ok hok] at hfailed
      cases hfailed

/-- Every tree is parsed back from its text. -/
theorem exprTree_complete {level : Level} (tree : ExprTree level) : Complete tree := by
  induction tree with
  | number signs blank digits => exact number_parses signs blank digits
  | group signs opening body closing ih => exact group_parses signs opening closing ih
  | single operand ih => exact single_continues ih.parses
  | extend left blank op hop right ihleft ihright =>
    exact extend_continues blank hop ihleft ihright.parses

/-- A factor with a value is read up to its end when its number ends there. -/
theorem factor_value (tree : ExprTree .factor) {rest : Bytes} {v : Int32}
    (hwhole : WholeNumber tree.text rest) (hvalue : tree.value = some v) :
    ∃ after, after.dropWhile isspace = rest.dropWhile isspace ∧
      Settles (fun fuel => calcParse fuel .factor ⟨tree.text ++ rest, true⟩)
        (v, ⟨after, true⟩) := by
  cases tree with
  | number signs blank digits =>
    have hlast : ∃ ch ∈ (ExprTree.number signs blank digits).text.getLast?, isdigit ch = true := by
      refine ⟨digits.val.getLast digits.property.1, ?_,
        digits.property.2 _ (List.getLast_mem digits.property.1)⟩
      rw [ExprTree.text, ← List.append_assoc, List.getLast?_append,
        List.getLast?_eq_some_getLast digits.property.1]
      rfl
    exact (number_parses signs blank digits).value rest v
      ⟨hwhole hlast, fun kind hkind => absurd hkind List.not_mem_nil⟩ hvalue
  | group signs opening body closing =>
    exact ⟨rest, rfl, group_value signs opening closing (exprTree_complete body) rest hvalue⟩

end Completeness

section Calculators

theorem calcEvaluate_eq (fuel : Nat) (expression : Bytes) :
    calcEvaluate fuel expression = calcEval fuel expression := by
  rw [calcEvaluate, calcEval]
  congr 1
  funext result
  obtain ⟨value, cursor, ok⟩ := result
  cases ok with
  | false => rfl
  | true =>
    by_cases hend : (calcSkip ⟨cursor, true⟩).cursor = []
    · simp [hend]
    · simp [hend]

/-- A blank tail ends an expression. -/
theorem stops_blank (level : Level) (blank : Blank) : Stops level blank.val := by
  have hdrop : blank.val.dropWhile isspace = [] :=
    List.dropWhile_eq_nil_iff.mpr fun ch h => blank.property ch h
  constructor
  · intro ch hch
    exact isdigit_of_isspace (blank.property ch (List.mem_of_mem_head? hch))
  · intro kind _ ch hch
    rw [hdrop] at hch
    cases hch

/-- The calculators of both editions come to an end on every string, with the same outcome, and
answer true exactly for the expressions that have a value, with that value. -/
theorem calculators_evaluate (input : Bytes) : ∃ (answer : Bool) (result : Int32),
    Settles (fun fuel => calcEval fuel input) (answer, result) ∧
    Settles (fun fuel => calcEvaluate fuel input) (answer, result) ∧
    ∀ value, (answer = true ∧ result = value) ↔ Evaluates input value := by
  obtain ⟨⟨result, state⟩, hparse⟩ := (calcParse_ends input.length).parse (.chain .sum)
    ⟨input, true⟩ rfl
  have heval : Settles (fun fuel => calcEval fuel input)
      (state.ok && (calcSkip state).cursor == [], result) :=
    hparse.map fun r => (r.2.ok && (calcSkip r.2).cursor == [], r.1)
  refine ⟨_, result, heval, ?_, fun value => ⟨?_, ?_⟩⟩
  · simp only [calcEvaluate_eq]
    exact heval
  · rintro ⟨hanswer, rfl⟩
    rw [Bool.and_eq_true, beq_iff_eq] at hanswer
    obtain ⟨fuel, hrun⟩ := hparse.exists_run
    obtain ⟨tree, blank, htext, hvalue⟩ :=
      (calcParse_sound fuel).1 _ _ result state hrun hanswer.1
    have htail := leadingBlank_append state.cursor
    have hend : state.cursor.dropWhile isspace = [] := hanswer.2
    rw [hend, List.append_nil] at htail
    refine ⟨tree, blank.append (leadingBlank state.cursor), ?_, hvalue⟩
    rw [← htail] at htext
    exact htext
  · rintro ⟨tree, blank, rfl, hvalue⟩
    obtain ⟨after, hafter, hsettles⟩ := (exprTree_complete tree).parses.value blank.val value
      (stops_blank _ blank) hvalue
    obtain ⟨rfl, rfl⟩ := Prod.mk.inj (hparse.unique hsettles)
    have hend : after.dropWhile isspace = [] := by
      rw [hafter]
      exact List.dropWhile_eq_nil_iff.mpr fun ch h => blank.property ch h
    simp [calcSkip, hend]

example : calcEval 40 (ascii "(2 + 3) * -4 / 3") = some (true, -6) := by decide

end Calculators

end SnsxOS.Editions
