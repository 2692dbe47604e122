/-
JavaMinus/Fault.lean

Why a compilation stops.

Breaking a rule of the language does not stop anything: such breaches are
collected as findings.  What stops a compilation is a tree that has not the
outline of a program (`MalformedTree`), a node or an instruction that a stage
has no case for (`Fault`), the foreign graph builder giving up, or findings
that forbid to go on.  Each cause is a constructor, and each type has one
function that words it.
-/
import JavaMinus.Position

namespace JavaMinus

/-- The tree has not the outline that the declarations are read from. -/
inductive MalformedTree where
  /-- The root has no children. -/
  | emptyProgram
  /-- The last child of the root is of another kind than a class. -/
  | missingClass (found : String)
  /-- A node lacks something that cannot be done without. -/
  | missingAttribute (kind key : String) (position : Position)
  deriving DecidableEq, Repr

def MalformedTree.message : MalformedTree → String
  | emptyProgram => "empty program: the root node has no children"
  | missingClass found =>
    s!"expected a class declaration as the last top-level node, found {found}"
  | missingAttribute kind key position =>
    s!"at {position}: {kind} node is missing attribute '{key}'"

/-- A stage met something that it has no case for. -/
inductive Fault where
  | unknownOperator (operator kind : String) (position : Position)
  | notAnExpression (what : String) (position : Position)
  | notAStatement (what : String) (position : Position)
  | outsideMethod (what : String) (position : Position)
  /-- An operand has no register in its method. -/
  | unresolvedRegister (operand method : String)
  /-- An instruction or operand that cannot be lowered. -/
  | unsupported (what method : String)
  | unknownMethod (name : String)
  deriving DecidableEq, Repr

namespace Fault

def message : Fault → String
  | unknownOperator operator kind position =>
    s!"at {position}: unknown operator '{operator}' in {kind}"
  | notAnExpression what position => s!"at {position}: {what} is not an expression"
  | notAStatement what position => s!"at {position}: {what} is not a statement"
  | outsideMethod what position => s!"at {position}: {what} is outside any method"
  | unresolvedRegister operand method =>
    s!"operand '{operand}' has no register in method '{method}'"
  | unsupported what method => s!"cannot lower {what} in method '{method}'"
  | unknownMethod name => s!"no symbol table entry for method '{name}'"

/-- The place of the node that the fault is about, if it is about a node. -/
def position? : Fault → Option Position
  | unknownOperator _ _ position | notAnExpression _ position | notAStatement _ position
  | outsideMethod _ position => some position
  | unresolvedRegister .. | unsupported .. | unknownMethod .. => none

end Fault

/-- Why a compilation gave no code. -/
inductive CompileError where
  | malformed (cause : MalformedTree)
  | fault (cause : Fault)
  /-- The foreign graph builder gave up, for a reason of its own. -/
  | build (reason : String)
  /-- Findings forbid to go on. -/
  | rejected (errors : Nat)
  deriving DecidableEq, Repr

namespace CompileError

def message : CompileError → String
  | malformed cause => cause.message
  | fault cause => cause.message
  | build reason => s!"IR graph builder failed: {reason}"
  | rejected errors => s!"compilation rejected with {errors} semantic error(s)"

def isMalformed : CompileError → Bool
  | malformed _ => true
  | _ => false

def isFault : CompileError → Bool
  | fault _ => true
  | _ => false

def isRejected : CompileError → Bool
  | rejected _ => true
  | _ => false

/-- The place of the node that a fault is about. -/
def position? : CompileError → Option Position
  | fault cause => cause.position?
  | _ => none

end CompileError

end JavaMinus
