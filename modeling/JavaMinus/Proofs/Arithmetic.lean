/-
JavaMinus/Proofs/Arithmetic.lean

What the operators do to numbers and truth values.

Numbers have 32 bits and wrap around.  A division by zero has no result: the
computation that it belongs to is trapped.
-/
import JavaMinus.Operator

namespace JavaMinus

/-- What becomes of two numbers; a division by zero has no result. -/
def ArithmeticOperator.compute : ArithmeticOperator → Int32 → Int32 → Option Int32
  | add, a, b => some (a + b)
  | sub, a, b => some (a - b)
  | mul, a, b => some (a * b)
  | div, a, b => if b = 0 then none else some (a / b)

/-- Whether two numbers stand in the relation that is asked for. -/
def Comparison.holds : Comparison → Int32 → Int32 → Bool
  | lt, a, b => a < b
  | gt, a, b => b < a
  | le, a, b => a ≤ b
  | ge, a, b => b ≤ a

/-- What becomes of two truth values. -/
def Connective.join : Connective → Bool → Bool → Bool
  | and, a, b => a && b
  | or, a, b => a || b

end JavaMinus
