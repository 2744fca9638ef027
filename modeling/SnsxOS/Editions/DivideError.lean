import SnsxOS.Editions.Calculator

/-!
# The divide error of the x86 calculator

The x86 division instruction raises an exception for the divisor zero and for a quotient that does
not fit. `calc_parse_term` tests for the first and not for the second, so the calculator stops the
kernel on the expressions in which it divides the least number by minus one, and on no others.
-/

namespace SnsxOS.Editions

open Framework

/-- The operands of the division that raised the exception. -/
structure DivideError where
  dividend : Int32
  divisor : Int32
  deriving DecidableEq

/-- The signed division instruction. -/
def idiv (dividend divisor : Int32) : Except DivideError Int32 :=
  let quotient := dividend.toInt.tdiv divisor.toInt
  if divisor = 0 ∨ quotient < -2 ^ 31 ∨ 2 ^ 31 ≤ quotient then .error ⟨dividend, divisor⟩
  else .ok (Int32.ofInt quotient)

def CalcOp.execute : CalcOp → Int32 → Int32 → Except DivideError Int32
  | add, a, b => .ok (a + b)
  | sub, a, b => .ok (a - b)
  | mul, a, b => .ok (a * b)
  | div, a, b => idiv a b

/-- A call on x86: it returns or an instruction in it raises the exception. -/
abbrev X86Calc := Except DivideError (Int32 × CalcState)

/-- Go on with what a call returned. -/
def afterCall (call : Option X86Calc) (next : Int32 → CalcState → Option X86Calc) :
    Option X86Calc :=
  match call with
  | none => none
  | some (.error fault) => some (.error fault)
  | some (.ok (value, state)) => next value state

/-- `calc_parse_factor` behind the signs. -/
def x86CalcUnsigned (parseExpression : CalcState → Option X86Calc) (negative : Bool)
    (state : CalcState) : Option X86Calc :=
  match state.cursor with
  | [] => some (.ok (0, state.fail))
  | ch :: rest =>
      if ch = 40 then
        afterCall (parseExpression { state with cursor := rest }) fun value state =>
          some (.ok (calcClose negative value state))
      else if isdigit ch then
        let value := atoiDigits 0 state.cursor
        some (.ok (if negative then -value else value,
          { state with cursor := state.cursor.dropWhile isdigit }))
      else some (.ok (0, state.fail))

/-- What a loop does with the operand it has read. -/
def x86CalcCombine (loop : Int32 → CalcState → Option X86Calc) (op : CalcOp) (value rhs : Int32)
    (state : CalcState) : Option X86Calc :=
  if !state.ok then some (.ok (0, state))
  else if op = .div ∧ rhs = 0 then some (.ok (0, state.fail))
  else match op.execute value rhs with
    | .error fault => some (.error fault)
    | .ok value => loop value state

mutual

/-- `calc_parse_factor`, `calc_parse_term` and `calc_parse_expression`. -/
def x86CalcParse : Nat → Level → CalcState → Option X86Calc
  | 0, _, _ => none
  | fuel + 1, .factor, state =>
      (calcSigns fuel false (calcSkip state)).bind fun (negative, state) =>
        x86CalcUnsigned (x86CalcParse fuel (.chain .sum)) negative state
  | fuel + 1, .chain kind, state =>
      afterCall (x86CalcParse fuel kind.operand state) fun value state =>
        x86CalcLoop fuel kind value state

/-- The loop over the operators of a chain. -/
def x86CalcLoop : Nat → Chain → Int32 → CalcState → Option X86Calc
  | 0, _, _, _ => none
  | fuel + 1, kind, value, state =>
      if !state.ok then some (.ok (value, state))
      else
        match (calcSkip state).cursor with
        | [] => some (.ok (value, calcSkip state))
        | ch :: rest =>
            match kind.operator ch with
            | none => some (.ok (value, calcSkip state))
            | some op =>
                afterCall (x86CalcParse fuel kind.operand { state with cursor := rest })
                  fun rhs state => x86CalcCombine (x86CalcLoop fuel kind) op value rhs state

end

/-- `calc_evaluate`: the answer and the result, unless a division raises the exception. -/
def x86CalcEvaluate (fuel : Nat) (expression : Bytes) :
    Option (Except DivideError (Bool × Int32)) :=
  (x86CalcParse fuel (.chain .sum) ⟨expression, true⟩).map fun parsed =>
    parsed.map fun (result, state) =>
      if !state.ok ∨ (calcSkip state).cursor ≠ [] then (false, result) else (true, result)

/-- Reading the text at a level leads to the division of the least number by minus one: behind a
part that has a value, or within parentheses, stands a product with this value divided by a
factor with that one. -/
inductive Overflows : Level → Bytes → Prop
  | group (signs : List Sign) (blank : Blank) {rest : Bytes} (inside : Overflows (.chain .sum) rest) :
      Overflows .factor (signs.flatMap Sign.text ++ (blank.val ++ 40 :: rest))
  | first {kind : Chain} {text : Bytes} (operand : Overflows kind.operand text) :
      Overflows (.chain kind) text
  | next {kind : Chain} (left : ExprTree (.chain kind)) (blank : Blank) (op : CalcOp)
      (of_kind : op.chain = kind) (valued : left.value.isSome) {rest : Bytes}
      (operand : Overflows kind.operand rest) :
      Overflows (.chain kind) (left.text ++ (blank.val ++ op.symbol :: rest))
  | division (left : ExprTree (.chain .product)) (blank : Blank) (right : ExprTree .factor)
      {rest : Bytes} (dividend : left.value = some Int32.minValue) (divisor : right.value = some (-1))
      (whole : WholeNumber right.text rest) :
      Overflows (.chain .product)
        (left.text ++ (blank.val ++ CalcOp.div.symbol :: (right.text ++ rest)))

section Division

/-- Only one quotient of two numbers does not fit. -/
theorem idiv_eq {dividend divisor : Int32} (hdivisor : divisor ≠ 0) :
    idiv dividend divisor = if dividend = Int32.minValue ∧ divisor = -1 then
      .error ⟨dividend, divisor⟩ else .ok (dividend / divisor) := by
  have hquotient : Int32.ofInt (dividend.toInt.tdiv divisor.toInt) = dividend / divisor := by
    apply Int32.toInt.inj
    rw [Int32.toInt_ofInt, Int32.toInt_div]
  have hover : (dividend.toInt.tdiv divisor.toInt < -2 ^ 31 ∨
      2 ^ 31 ≤ dividend.toInt.tdiv divisor.toInt) ↔
        dividend = Int32.minValue ∧ divisor = -1 := by
    constructor
    · intro h
      by_contra hother
      have hfits : (dividend / divisor).toInt = dividend.toInt.tdiv divisor.toInt := by
        rcases not_and_or.mp hother with hleft | hright
        · exact Int32.toInt_div_of_ne_left _ _ hleft
        · exact Int32.toInt_div_of_ne_right _ _ hright
      have hlow := (dividend / divisor).le_toInt
      have hhigh := (dividend / divisor).toInt_lt
      omega
    · intro h
      obtain ⟨rfl, rfl⟩ := h
      right
      decide
  rw [idiv]
  simp only [hdivisor, false_or, hover, hquotient]

/-- The exception stops a division by minus one, and otherwise the operation has its value. -/
theorem execute_eq (op : CalcOp) (value rhs : Int32) (hrhs : ¬ (op = .div ∧ rhs = 0)) :
    (op = .div ∧ value = Int32.minValue ∧ rhs = -1 ∧
      op.execute value rhs = .error ⟨value, rhs⟩) ∨
    ∃ total, op.apply value rhs = some total ∧ op.execute value rhs = .ok total := by
  cases op with
  | add => exact Or.inr ⟨_, rfl, rfl⟩
  | sub => exact Or.inr ⟨_, rfl, rfl⟩
  | mul => exact Or.inr ⟨_, rfl, rfl⟩
  | div =>
    have hne : rhs ≠ 0 := fun h => hrhs ⟨rfl, h⟩
    rw [CalcOp.execute, idiv_eq hne, CalcOp.apply, if_neg hne]
    by_cases hover : value = Int32.minValue ∧ rhs = -1
    · rw [if_pos hover]
      exact Or.inl ⟨rfl, hover.1, hover.2, rfl⟩
    · rw [if_neg hover]
      exact Or.inr ⟨_, rfl, rfl⟩

end Division

section Erasure

/-- Without an exception the run is that of the common parser. -/
def Erases (run : Option X86Calc) (plain : Option (Int32 × CalcState)) : Prop :=
  match run with
  | none => plain = none
  | some (.error _) => True
  | some (.ok result) => plain = some result

theorem Erases.afterCall {run : Option X86Calc} {plain : Option (Int32 × CalcState)}
    (h : Erases run plain) {next : Int32 → CalcState → Option X86Calc}
    {plainNext : Int32 × CalcState → Option (Int32 × CalcState)}
    (hnext : ∀ value state, Erases (next value state) (plainNext (value, state))) :
    Erases (Editions.afterCall run next) (plain.bind plainNext) := by
  cases run with
  | none =>
    obtain rfl : plain = none := h
    rfl
  | some outcome =>
    cases outcome with
    | error fault => trivial
    | ok result =>
      obtain rfl : plain = some result := h
      exact hnext result.1 result.2

theorem x86CalcUnsigned_erases {parse : CalcState → Option X86Calc}
    {plainParse : CalcState → Option (Int32 × CalcState)}
    (hparse : ∀ state, Erases (parse state) (plainParse state)) (negative : Bool)
    (state : CalcState) :
    Erases (x86CalcUnsigned parse negative state) (calcUnsigned plainParse negative state) := by
  rw [x86CalcUnsigned, calcUnsigned]
  cases state.cursor with
  | nil => rfl
  | cons ch rest =>
    dsimp only
    split
    · exact (hparse _).afterCall fun _ _ => rfl
    · split
      · rfl
      · rfl

theorem x86CalcCombine_erases {loop : Int32 → CalcState → Option X86Calc}
    {plainLoop : Int32 → CalcState → Option (Int32 × CalcState)}
    (hloop : ∀ value state, Erases (loop value state) (plainLoop value state)) (op : CalcOp)
    (value rhs : Int32) (state : CalcState) :
    Erases (x86CalcCombine loop op value rhs state)
      (calcCombine plainLoop op value rhs state) := by
  rw [x86CalcCombine, calcCombine]
  split
  · rfl
  · split
    · rename_i hzero
      obtain ⟨rfl, rfl⟩ := hzero
      rfl
    · rename_i hrhs
      rcases execute_eq op value rhs hrhs with hfault | hvalue
      · rw [hfault.2.2.2]
        trivial
      · obtain ⟨total, happly, hexecute⟩ := hvalue
        rw [happly, hexecute]
        exact hloop total state

theorem x86CalcParse_erases (fuel : Nat) :
    (∀ level state, Erases (x86CalcParse fuel level state) (calcParse fuel level state)) ∧
    ∀ kind value state,
      Erases (x86CalcLoop fuel kind value state) (calcLoop fuel kind value state) := by
  induction fuel with
  | zero =>
    constructor
    · intro level state
      rw [x86CalcParse, calcParse]
      rfl
    · intro kind value state
      rw [x86CalcLoop, calcLoop]
      rfl
  | succ fuel ih =>
    obtain ⟨ihparse, ihloop⟩ := ih
    constructor
    · intro level state
      cases level with
      | factor =>
        rw [x86CalcParse, calcParse]
        cases calcSigns fuel false (calcSkip state) with
        | none => rfl
        | some signs => exact x86CalcUnsigned_erases (ihparse (.chain .sum)) signs.1 signs.2
      | chain kind =>
        rw [x86CalcParse, calcParse]
        exact (ihparse kind.operand state).afterCall (ihloop kind)
    · intro kind value state
      rw [x86CalcLoop, calcLoop]
      split
      · rfl
      · cases (calcSkip state).cursor with
        | nil => rfl
        | cons ch rest =>
          dsimp only
          cases kind.operator ch with
          | none => rfl
          | some op =>
            exact (ihparse kind.operand _).afterCall (x86CalcCombine_erases (ihloop kind) op value)

end Erasure

section Faults

/-- The one division that raises the exception. -/
def leastByMinusOne : DivideError := ⟨Int32.minValue, -1⟩

theorem afterCall_error {run : Option X86Calc} {next : Int32 → CalcState → Option X86Calc}
    {fault : DivideError} (h : afterCall run next = some (.error fault)) :
    run = some (.error fault) ∨
      ∃ value state, run = some (.ok (value, state)) ∧ next value state = some (.error fault) := by
  cases run with
  | none => cases h
  | some outcome =>
    cases outcome with
    | error other =>
      cases h
      exact Or.inl rfl
    | ok result => exact Or.inr ⟨result.1, result.2, rfl, h⟩

/-- A call that returned did what the common parser does. -/
theorem calcParse_of_ok {fuel : Nat} {level : Level} {state : CalcState}
    {result : Int32 × CalcState} (h : x86CalcParse fuel level state = some (.ok result)) :
    calcParse fuel level state = some result := by
  have herases := (x86CalcParse_erases fuel).1 level state
  rw [h] at herases
  exact herases

theorem x86CalcUnsigned_error {parse : CalcState → Option X86Calc} {negative : Bool}
    {state : CalcState} {fault : DivideError}
    (h : x86CalcUnsigned parse negative state = some (.error fault)) :
    ∃ rest, state.cursor = 40 :: rest ∧
      parse { state with cursor := rest } = some (.error fault) := by
  rw [x86CalcUnsigned] at h
  split at h
  · cases h
  · rename_i ch rest hcursor
    split at h
    · rename_i hopening
      rcases afterCall_error h with hparse | hclose
      · exact ⟨rest, by rw [hcursor, hopening], hparse⟩
      · obtain ⟨value, closing, -, hclose⟩ := hclose
        cases hclose
    · split at h
      · cases h
      · cases h

theorem x86CalcCombine_error {loop : Int32 → CalcState → Option X86Calc} {op : CalcOp}
    {value rhs : Int32} {state : CalcState} {fault : DivideError}
    (h : x86CalcCombine loop op value rhs state = some (.error fault)) :
    state.ok = true ∧ (op = .div ∧ value = Int32.minValue ∧ rhs = -1 ∧ fault = leastByMinusOne ∨
      ∃ total, op.apply value rhs = some total ∧ loop total state = some (.error fault)) := by
  rw [x86CalcCombine] at h
  split at h
  · cases h
  · rename_i hok
    refine ⟨by simpa using hok, ?_⟩
    split at h
    · cases h
    · rename_i hrhs
      rcases execute_eq op value rhs hrhs with hfault | hvalue
      · obtain ⟨hop, rfl, rfl, hexecute⟩ := hfault
        rw [hexecute] at h
        cases h
        exact Or.inl ⟨hop, rfl, rfl, rfl⟩
      · obtain ⟨total, happly, hexecute⟩ := hvalue
        rw [hexecute] at h
        exact Or.inr ⟨total, happly, h⟩

/-- The exception comes from that division, which the text leads to. -/
theorem x86CalcParse_error (fuel : Nat) :
    (∀ level state fault, x86CalcParse fuel level state = some (.error fault) →
      fault = leastByMinusOne ∧ Overflows level state.cursor) ∧
    ∀ kind first state fault, x86CalcLoop fuel kind first state = some (.error fault) →
      ∀ (left : ExprTree (.chain kind)) (blank : Blank), left.value = some first →
        fault = leastByMinusOne ∧
          Overflows (.chain kind) (left.text ++ (blank.val ++ state.cursor)) := by
  induction fuel with
  | zero =>
    constructor
    · intro level state fault h
      rw [x86CalcParse] at h
      cases h
    · intro kind first state fault h
      rw [x86CalcLoop] at h
      cases h
  | succ fuel ih =>
    obtain ⟨ihparse, ihloop⟩ := ih
    constructor
    · intro level state fault h
      cases level with
      | factor =>
        rw [x86CalcParse] at h
        obtain ⟨⟨negative, signless⟩, hsigns, h⟩ := Option.bind_eq_some_iff.mp h
        obtain ⟨-, signs, blank, htext, -⟩ := calcSigns_sound hsigns
        obtain ⟨rest, hcursor, hparse⟩ := x86CalcUnsigned_error h
        obtain ⟨hfault, hinside⟩ := ihparse _ _ fault hparse
        rw [htext, hcursor]
        exact ⟨hfault, .group signs blank hinside⟩
      | chain kind =>
        rw [x86CalcParse] at h
        rcases afterCall_error h with hoperand | hloop
        · obtain ⟨hfault, hoperand⟩ := ihparse _ _ fault hoperand
          exact ⟨hfault, .first hoperand⟩
        · obtain ⟨first, next, hoperand, hloop⟩ := hloop
          -- a loop that does something starts without an error
          have hok : next.ok = true := by
            cases hok : next.ok with
            | true => rfl
            | false =>
              cases fuel with
              | zero =>
                rw [x86CalcLoop] at hloop
                cases hloop
              | succ fuel =>
                rw [x86CalcLoop, hok] at hloop
                cases hloop
          obtain ⟨tree, blank, htext, hvalue⟩ :=
            (calcParse_sound fuel).1 _ _ first next (calcParse_of_ok hoperand) hok
          rw [htext]
          exact ihloop kind first next fault hloop (.single tree) blank hvalue
    · intro kind first state fault h left blank hleft
      have hblank := leadingBlank_append state.cursor
      have hjoin : ∀ rest, state.cursor.dropWhile isspace = rest →
          left.text ++ (blank.val ++ state.cursor) =
            left.text ++ ((blank.append (leadingBlank state.cursor)).val ++ rest) := by
        intro rest hrest
        rw [hrest] at hblank
        rw [Blank.append, List.append_assoc, hblank]
      rw [x86CalcLoop] at h
      split at h
      · cases h
      · split at h
        · cases h
        · rename_i ch rest hcursor
          split at h
          · cases h
          · rename_i op hop
            obtain ⟨hkind, rfl⟩ := Chain.operator_eq_some.mp hop
            rw [hjoin _ hcursor]
            have hvalued : left.value.isSome := by rw [hleft]; rfl
            rcases afterCall_error h with hoperand | hcombine
            · obtain ⟨hfault, hoperand⟩ := ihparse _ _ fault hoperand
              exact ⟨hfault, .next left _ op hkind hvalued hoperand⟩
            · obtain ⟨rhs, operand, hoperand, hcombine⟩ := hcombine
              have hplain := calcParse_of_ok hoperand
              obtain ⟨hok, hdivides | hgoes⟩ := x86CalcCombine_error hcombine
              · obtain ⟨rfl, rfl, rfl, rfl⟩ := hdivides
                obtain rfl : Chain.product = kind := hkind
                obtain ⟨right, htext, hright, hwhole⟩ := calcFactor_sound hplain hok
                have hrest : rest = right.text ++ operand.cursor := htext
                rw [hrest]
                exact ⟨rfl, .division left _ right hleft hright hwhole⟩
              · obtain ⟨total, htotal, hloop⟩ := hgoes
                obtain ⟨right, gap, htext, hright⟩ :=
                  (calcParse_sound fuel).1 _ _ rhs operand hplain hok
                have hrest : rest = right.text ++ (gap.val ++ operand.cursor) := htext
                have hreads := ihloop kind total operand fault hloop
                  (.extend left (blank.append (leadingBlank state.cursor)) op hkind right) gap
                  (by rw [ExprTree.value, hleft, hright, Option.bind_some, Option.bind_some, htotal])
                rw [hrest]
                simpa [ExprTree.text] using hreads

end Faults

section Raising

/-- With enough fuel the run raises the exception. -/
def Raises (run : Nat → Option X86Calc) : Prop :=
  ∃ enough, ∀ fuel, enough ≤ fuel → ∃ fault, run fuel = some (.error fault)

theorem Raises.succ {run body : Nat → Option X86Calc}
    (hrun : ∀ fuel, run (fuel + 1) = body fuel) (h : Raises body) : Raises run := by
  obtain ⟨enough, hbody⟩ := h
  refine ⟨enough + 1, fun fuel hfuel => ?_⟩
  obtain ⟨fuel, rfl⟩ := Nat.exists_eq_add_of_le' (Nat.le_trans (Nat.le_add_left 1 enough) hfuel)
  rw [hrun]
  exact hbody fuel (Nat.le_of_succ_le_succ hfuel)

/-- The exception in a call is one in the caller. -/
theorem Raises.call {run : Nat → Option X86Calc} (h : Raises run)
    (next : Nat → Int32 → CalcState → Option X86Calc) :
    Raises fun fuel => afterCall (run fuel) (next fuel) := by
  obtain ⟨enough, hrun⟩ := h
  refine ⟨enough, fun fuel hfuel => ?_⟩
  obtain ⟨fault, hfault⟩ := hrun fuel hfuel
  dsimp only
  rw [hfault]
  exact ⟨fault, rfl⟩

/-- What comes behind a call raises the exception, unless the call itself did. -/
theorem Raises.behind {run : Nat → Option X86Calc} {plain : Nat → Option (Int32 × CalcState)}
    (herases : ∀ fuel, Erases (run fuel) (plain fuel)) {value : Int32} {state : CalcState}
    (hplain : Settles plain (value, state)) {next : Nat → Int32 → CalcState → Option X86Calc}
    (hnext : Raises fun fuel => next fuel value state) :
    Raises fun fuel => afterCall (run fuel) (next fuel) := by
  obtain ⟨n, hn⟩ := hplain
  obtain ⟨m, hm⟩ := hnext
  refine ⟨max n m, fun fuel hfuel => ?_⟩
  have herased := herases fuel
  rw [hn fuel (Nat.le_trans (le_max_left n m) hfuel)] at herased
  dsimp only
  cases hrun : run fuel with
  | none =>
    rw [hrun] at herased
    cases herased
  | some outcome =>
    cases outcome with
    | error fault => exact ⟨fault, rfl⟩
    | ok result =>
      rw [hrun] at herased
      obtain rfl := Option.some.inj herased
      exact hm fuel (Nat.le_trans (le_max_right n m) hfuel)

theorem x86CalcLoop_skip (fuel : Nat) (kind : Chain) (value : Int32) (cursor : Bytes) :
    x86CalcLoop fuel kind value ⟨cursor, true⟩ =
      x86CalcLoop fuel kind value ⟨cursor.dropWhile isspace, true⟩ := by
  cases fuel with
  | zero => rw [x86CalcLoop, x86CalcLoop]
  | succ fuel =>
    rw [x86CalcLoop, x86CalcLoop]
    simp only [calcSkip, List.dropWhile_idempotent, Bool.not_true, Bool.false_eq_true, if_false]

/-- A turn of the loop on an operator, for what its operand and the rest of the loop do. -/
theorem raises_turn {kind : Chain} {value : Int32} {op : CalcOp} {rest : Bytes}
    (hop : op.chain = kind)
    (h : Raises fun fuel => afterCall (x86CalcParse fuel kind.operand ⟨rest, true⟩)
      (x86CalcCombine (x86CalcLoop fuel kind) op value)) :
    Raises fun fuel => x86CalcLoop fuel kind value ⟨op.symbol :: rest, true⟩ := by
  refine Raises.succ (fun fuel => ?_) h
  have hskip := calcSkip_token noBlank rest op.symbol_not_blank
  have hcursor : (calcSkip ⟨op.symbol :: rest, true⟩).cursor = op.symbol :: rest :=
    congrArg CalcState.cursor hskip
  rw [x86CalcLoop, hcursor]
  simp only [Bool.not_true, Bool.false_eq_true, if_false]
  rw [Chain.operator_eq_some.mpr ⟨hop, rfl⟩]

/-- A chain with a value is read, and then the loop behind it raises the exception. -/
def RaisesBehind : {level : Level} → ExprTree level → Prop
  | .factor, _ => True
  | .chain kind, tree => ∀ rest v, Stops kind.operand rest → tree.value = some v →
      (Raises fun fuel => x86CalcLoop fuel kind v ⟨rest.dropWhile isspace, true⟩) →
      Raises fun fuel => x86CalcParse fuel (.chain kind) ⟨tree.text ++ rest, true⟩

theorem raisesBehind {level : Level} (tree : ExprTree level) : RaisesBehind tree := by
  induction tree with
  | number => trivial
  | group => trivial
  | @single kind operand ih =>
    intro rest v hstops hvalue hloop
    obtain ⟨after, hafter, hoperand⟩ :=
      (exprTree_complete operand).parses.value rest v hstops hvalue
    refine Raises.succ (fun _ => by rw [x86CalcParse]) ?_
    apply Raises.behind (fun fuel => (x86CalcParse_erases fuel).1 _ _) hoperand
    simp only [x86CalcLoop_skip _ kind v after, hafter]
    exact hloop
  | @extend kind left blank op hop right ihleft ihright =>
    intro rest v hstops hvalue hloop
    obtain ⟨first, hfirst, hvalue⟩ := Option.bind_eq_some_iff.mp hvalue
    obtain ⟨second, hsecond, happly⟩ := Option.bind_eq_some_iff.mp hvalue
    obtain ⟨after, hafter, hoperand⟩ :=
      (exprTree_complete right).parses.value rest second hstops hsecond
    have htext : (ExprTree.extend left blank op hop right).text ++ rest =
        left.text ++ (blank.val ++ op.symbol :: (right.text ++ rest)) := by
      simp [ExprTree.text]
    rw [htext]
    apply ihleft _ first (stops_operator hop blank _) hfirst
    rw [dropWhile_token blank _ op.symbol_not_blank]
    apply raises_turn hop
    apply Raises.behind (fun fuel => (x86CalcParse_erases fuel).1 _ _) hoperand
    have hrhs : ¬ (op = .div ∧ second = 0) := by
      rintro ⟨rfl, rfl⟩
      cases happly
    simp only [x86CalcCombine, Bool.not_true, Bool.false_eq_true, if_false, if_neg hrhs]
    rcases execute_eq op first second hrhs with hfault | hgoes
    · rw [hfault.2.2.2]
      exact ⟨0, fun _ _ => ⟨_, rfl⟩⟩
    · obtain ⟨total, htotal, hexecute⟩ := hgoes
      obtain rfl := Option.some.inj (htotal.symm.trans happly)
      rw [hexecute]
      simp only [x86CalcLoop_skip _ kind total after, hafter]
      exact hloop

/-- A text that leads to the division raises the exception. -/
theorem overflows_raises {level : Level} {text : Bytes} (h : Overflows level text) :
    Raises fun fuel => x86CalcParse fuel level ⟨text, true⟩ := by
  induction h with
  | @group signs blank rest inside ih =>
    obtain ⟨negative, ⟨enough, hsigns⟩, -⟩ := @calcSigns_text 40 (by decide) (by decide)
      (by decide) rest signs blank false
    obtain ⟨enough', hinside⟩ := ih.call fun _ value state =>
      some (.ok (calcClose negative value state))
    refine Raises.succ (fun _ => by rw [x86CalcParse]) ⟨max enough enough', fun fuel hfuel => ?_⟩
    obtain ⟨fault, hfault⟩ := hinside fuel (Nat.le_trans (le_max_right _ _) hfuel)
    refine ⟨fault, ?_⟩
    have hfirst := hsigns fuel (Nat.le_trans (le_max_left _ _) hfuel)
    dsimp only at hfirst ⊢
    rw [hfirst]
    exact hfault
  | first operand ih => exact Raises.succ (fun _ => by rw [x86CalcParse]) (ih.call _)
  | @next kind left blank op hop valued rest operand ih =>
    obtain ⟨v, hvalue⟩ := Option.isSome_iff_exists.mp valued
    apply raisesBehind left _ v (stops_operator hop blank rest) hvalue
    rw [dropWhile_token blank _ op.symbol_not_blank]
    exact raises_turn hop (ih.call _)
  | @division left blank right rest dividend divisor whole =>
    have hdiv : CalcOp.div.chain = .product := rfl
    apply raisesBehind left _ _ (stops_operator hdiv blank _) dividend
    rw [dropWhile_token blank _ CalcOp.div.symbol_not_blank]
    apply raises_turn hdiv
    obtain ⟨after, -, hoperand⟩ := factor_value right whole divisor
    apply Raises.behind (fun fuel => (x86CalcParse_erases fuel).1 _ _) hoperand
    have hexecute : CalcOp.div.execute Int32.minValue (-1) = .error leastByMinusOne := by decide
    refine ⟨0, fun fuel _ => ⟨leastByMinusOne, ?_⟩⟩
    dsimp only
    rw [x86CalcCombine, if_neg (by simp), if_neg (by decide), hexecute]

end Raising

section Evaluation

/-- The call returns: it comes to an end, and every division on its way has a divisor other than
zero and a quotient that fits. -/
def ReturnsOnX86 (expression : Bytes) : Prop :=
  ∃ answer, Settles (fun fuel => x86CalcEvaluate fuel expression) (.ok answer)

theorem Overflows.not_returns {expression : Bytes} (h : Overflows (.chain .sum) expression) :
    ¬ ReturnsOnX86 expression := by
  intro hreturns
  obtain ⟨answer, n, hn⟩ := hreturns
  obtain ⟨m, hm⟩ := overflows_raises h
  obtain ⟨fault, hfault⟩ := hm (max n m) (le_max_right n m)
  have hanswer := hn (max n m) (le_max_left n m)
  dsimp only at hanswer hfault
  rw [x86CalcEvaluate, hfault] at hanswer
  cases hanswer

/-- The calculator stops the kernel exactly on the expressions that lead to the division of the
least number by minus one. -/
theorem returnsOnX86_iff (expression : Bytes) :
    ReturnsOnX86 expression ↔ ¬ Overflows (.chain .sum) expression := by
  constructor
  · intro hreturns hover
    exact hover.not_returns hreturns
  · intro hfine
    obtain ⟨result, n, hn⟩ :=
      (calcParse_ends expression.length).parse (.chain .sum) ⟨expression, true⟩ rfl
    refine ⟨if !result.2.ok ∨ (calcSkip result.2).cursor ≠ [] then (false, result.1)
      else (true, result.1), n, fun fuel hfuel => ?_⟩
    have herases := (x86CalcParse_erases fuel).1 (.chain .sum) ⟨expression, true⟩
    have hplain := hn fuel hfuel
    dsimp only at hplain ⊢
    rw [hplain] at herases
    rw [x86CalcEvaluate]
    cases hrun : x86CalcParse fuel (.chain .sum) ⟨expression, true⟩ with
    | none =>
      rw [hrun] at herases
      cases herases
    | some outcome =>
      cases outcome with
      | error fault => exact absurd ((x86CalcParse_error fuel).1 _ _ fault hrun).2 hfine
      | ok parsed =>
        rw [hrun] at herases
        obtain rfl := Option.some.inj herases
        rfl

/-- The text of the least number divided by minus one. -/
def leastByMinusOneText : Bytes := ascii "2147483648/-1"

def leastTree : ExprTree (.chain .product) :=
  .single (.number [] noBlank ⟨ascii "2147483648", by decide, List.all_eq_true.mp rfl⟩)

def minusOneTree : ExprTree .factor :=
  .number [⟨noBlank, true⟩] noBlank ⟨ascii "1", by decide, List.all_eq_true.mp rfl⟩

theorem overflows_leastByMinusOneText : Overflows (.chain .sum) leastByMinusOneText := by
  have htext : leastByMinusOneText =
      leastTree.text ++ (noBlank.val ++ CalcOp.div.symbol :: (minusOneTree.text ++ [])) := by
    decide
  have hend : WholeNumber minusOneTree.text [] := by
    intro _ ch hch
    cases hch
  rw [htext]
  exact .first (.division leastTree noBlank minusOneTree (by decide) (by decide) hend)

/-- The number 2147483648 is read as the least one. -/
theorem not_returnsOnX86 : ¬ ∀ expression, ReturnsOnX86 expression := by
  intro h
  exact overflows_leastByMinusOneText.not_returns (h leastByMinusOneText)

end Evaluation

end SnsxOS.Editions
