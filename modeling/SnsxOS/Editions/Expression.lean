import SnsxOS.Lib.Decimal

/-!
# Arithmetic expressions

The language of the calculators: sums of products of signed numbers and groups, with white
space before any token. A tree keeps every token, so its text is the string it was read from.
Numbers are those of 32-bit arithmetic that wraps; a division truncates and has no value for
the divisor zero.
-/

namespace SnsxOS.Editions

open Framework

/-- The two kinds of operator chains. -/
inductive Chain where
  | product | sum
  deriving DecidableEq

inductive Level where
  | factor
  | chain (kind : Chain)
  deriving DecidableEq

/-- What the operators of a chain combine. -/
def Chain.operand : Chain → Level
  | .product => .factor
  | .sum => .chain .product

inductive CalcOp where
  | add | sub | mul | div
  deriving DecidableEq

namespace CalcOp

def chain : CalcOp → Chain
  | add => .sum
  | sub => .sum
  | mul => .product
  | div => .product

def symbol : CalcOp → UInt8
  | add => 43
  | sub => 45
  | mul => 42
  | div => 47

/-- The value of an operation. The quotient truncates toward zero; the one that does not fit,
which C leaves undefined, wraps as on ARM64. -/
def apply : CalcOp → Int32 → Int32 → Option Int32
  | add, a, b => some (a + b)
  | sub, a, b => some (a - b)
  | mul, a, b => some (a * b)
  | div, a, b => if b = 0 then none else some (a / b)

end CalcOp

/-- White space in front of a token. -/
abbrev Blank := { text : Bytes // ∀ ch ∈ text, isspace ch = true }

abbrev Digits := { text : Bytes // text ≠ [] ∧ ∀ ch ∈ text, isdigit ch = true }

/-- A sign with the white space in front of it. -/
structure Sign where
  blank : Blank
  negative : Bool

def Sign.text (sign : Sign) : Bytes := sign.blank.val ++ [if sign.negative then 45 else 43]

/-- A concrete syntax tree of each level. -/
inductive ExprTree : Level → Type where
  | number (signs : List Sign) (blank : Blank) (digits : Digits) : ExprTree .factor
  | group (signs : List Sign) (opening : Blank) (body : ExprTree (.chain .sum))
      (closing : Blank) : ExprTree .factor
  | single {kind : Chain} (operand : ExprTree kind.operand) : ExprTree (.chain kind)
  | extend {kind : Chain} (left : ExprTree (.chain kind)) (blank : Blank) (op : CalcOp)
      (of_kind : op.chain = kind) (right : ExprTree kind.operand) : ExprTree (.chain kind)

/-- A number behind its signs. -/
def signed (signs : List Sign) (value : Int32) : Int32 :=
  signs.foldr (fun sign value => if sign.negative then -value else value) value

namespace ExprTree

def text : {level : Level} → ExprTree level → Bytes
  | _, number signs blank digits => signs.flatMap Sign.text ++ (blank.val ++ digits.val)
  | _, group signs opening body closing =>
      signs.flatMap Sign.text ++ (opening.val ++ 40 :: (body.text ++ (closing.val ++ [41])))
  | _, single operand => operand.text
  | _, extend left blank op _ right => left.text ++ (blank.val ++ op.symbol :: right.text)

/-- The value from left to right; none when a divisor is zero. -/
def value : {level : Level} → ExprTree level → Option Int32
  | _, number signs _ digits => some (signed signs (Int32.ofNat (decimalValue digits.val)))
  | _, group signs _ body _ => body.value.map (signed signs)
  | _, single operand => operand.value
  | _, extend left _ op _ right =>
      left.value.bind fun a => right.value.bind fun b => op.apply a b

end ExprTree

/-- The string is an expression with this value, up to white space at its end. -/
def Evaluates (input : Bytes) (value : Int32) : Prop :=
  ∃ (tree : ExprTree (.chain .sum)) (blank : Blank),
    input = tree.text ++ blank.val ∧ tree.value = some value

section Characters

theorem CalcOp.symbol_not_blank (op : CalcOp) : isspace op.symbol = false := by
  cases op <;> decide

theorem CalcOp.symbol_not_digit (op : CalcOp) : isdigit op.symbol = false := by
  cases op <;> decide

theorem isdigit_of_isspace {ch : UInt8} (h : isspace ch = true) : isdigit ch = false := by
  cases hdigit : isdigit ch with
  | false => rfl
  | true => exact absurd h (isspace_of_isdigit hdigit)

/-- White space in front of the text is dropped. -/
theorem dropWhile_blank (blank : Blank) (rest : Bytes) :
    (blank.val ++ rest).dropWhile isspace = rest.dropWhile isspace := by
  obtain ⟨text, htext⟩ := blank
  induction text with
  | nil => rfl
  | cons ch text ih =>
    rw [List.cons_append, List.dropWhile_cons_of_pos (htext ch (by simp))]
    exact ih fun c hc => htext c (by simp [hc])

/-- The white space a text starts with. -/
def leadingBlank (text : Bytes) : Blank :=
  ⟨text.takeWhile isspace, fun _ h => List.mem_takeWhile_imp h⟩

theorem leadingBlank_append (text : Bytes) :
    (leadingBlank text).val ++ text.dropWhile isspace = text :=
  List.takeWhile_append_dropWhile

def noBlank : Blank := ⟨[], fun _ h => by cases h⟩

def Blank.append (first second : Blank) : Blank :=
  ⟨first.val ++ second.val, fun ch h => by
    rcases List.mem_append.mp h with h | h
    · exact first.property ch h
    · exact second.property ch h⟩

end Characters

end SnsxOS.Editions
