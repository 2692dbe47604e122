/-
JavaMinus/Operator.lean

The binary operators of the language.

Arithmetic takes two numbers to a number.  The others give a truth value: the
connectives from two truth values, the comparisons from two numbers.
-/
import JavaMinus.Fault
import JavaMinus.Tree.Basic

namespace JavaMinus

/-- Operators on two numbers that give a number. -/
inductive ArithmeticOperator where
  | add
  | sub
  | mul
  | div
  deriving DecidableEq, Inhabited, Repr

/-- Operators that join two truth values.  Both are always computed. -/
inductive Connective where
  | and
  | or
  deriving DecidableEq, Inhabited, Repr

/-- Operators that compare two numbers. -/
inductive Comparison where
  | lt
  | gt
  | le
  | ge
  deriving DecidableEq, Inhabited, Repr

/-- Operators that give a truth value. -/
inductive LogicalOperator where
  | connective (operator : Connective)
  | comparison (operator : Comparison)
  deriving DecidableEq, Inhabited, Repr

/-- The fault of a node whose operator its kind does not know. -/
def Tree.unknownOperator (t : Tree) : Fault :=
  .unknownOperator ((t.get? "op").getD "") t.kind.text t.position

namespace ArithmeticOperator

def all : List ArithmeticOperator := [add, sub, mul, div]

def symbol : ArithmeticOperator → String
  | add => "+"
  | sub => "-"
  | mul => "*"
  | div => "/"

def ofSymbol? (s : String) : Option ArithmeticOperator := all.find? (·.symbol == s)

/-- The operator that a node carries; a node without one carries the empty
symbol. -/
def ofTree (t : Tree) : Except Fault ArithmeticOperator :=
  match ofSymbol? ((t.get? "op").getD "") with
  | some op => .ok op
  | none => .error t.unknownOperator

theorem ofSymbol?_symbol (op : ArithmeticOperator) : ofSymbol? op.symbol = some op := by
  cases op <;> decide

end ArithmeticOperator

namespace LogicalOperator

def all : List LogicalOperator :=
  [connective .and, connective .or, comparison .lt, comparison .gt, comparison .le,
   comparison .ge]

def symbol : LogicalOperator → String
  | connective .and => "&&"
  | connective .or => "||"
  | comparison .lt => "<"
  | comparison .gt => ">"
  | comparison .le => "<="
  | comparison .ge => ">="

def ofSymbol? (s : String) : Option LogicalOperator := all.find? (·.symbol == s)

/-- Whether the operator joins two truth values rather than comparing two
numbers. -/
def isConnective : LogicalOperator → Bool
  | connective _ => true
  | comparison _ => false

/-- The operator that a node carries; a node without one carries the empty
symbol. -/
def ofTree (t : Tree) : Except Fault LogicalOperator :=
  match ofSymbol? ((t.get? "op").getD "") with
  | some op => .ok op
  | none => .error t.unknownOperator

theorem ofSymbol?_symbol (op : LogicalOperator) : ofSymbol? op.symbol = some op := by
  rcases op with op | op <;> cases op <;> decide

end LogicalOperator

end JavaMinus
