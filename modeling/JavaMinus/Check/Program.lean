/-
JavaMinus/Check/Program.lean

The semantic checks of a whole program.

The nodes are visited in reading order, and each kind of node has its own
rules.  One sink goes from node to node; it starts with what was reported before
the checks.
-/
import JavaMinus.Check.Declared
import JavaMinus.Check.Indexed
import JavaMinus.Check.Invoked

namespace JavaMinus

namespace Place

variable (d : Declarations)

/-- The rules for the node at a place. -/
def inspect (p : Place) : Inspection Unit :=
  match p.tree.kind with
  | .program => p.inspectProgram
  | .classDecl => p.inspectClass
  | .methodDecl => p.inspectMethod
  | .assignment => p.inspectAssignment d
  | .elementAssignment => p.inspectElementAssignment d
  | .returnStmt => p.inspectReturn d
  | .conditional => p.inspectCondition d
  | .loop => p.inspectLoop d
  | .identifier => p.inspectIdentifier d
  | .self => p.inspectSelf d
  | .arithmetic => p.inspectArithmetic d
  | .logical => p.inspectLogical d
  | .call => p.inspectCall d
  | .elementRead => p.inspectElementRead d
  | .arrayLiteral => p.inspectArrayLiteral d
  | .length => p.inspectLength d
  | .importDecl | .variableDecl | .typeName | .parameter | .expressionStmt | .block
  | .integer | .boolean | .newObject | .newArray => pure ()

/-- The rules for a place and for everything inside it. -/
def inspectAll (p : Place) : Inspection Unit := p.preorder.forM (inspect d)

end Place

namespace Declarations

/-- Report about a program into what was reported before, up to the fault that
ends the checks, if there is one. -/
def analyzeInto (d : Declarations) (root : Place) (before : Diagnostics) :
    Diagnostics × Except Fault Unit :=
  let (sink, outcome) := root.inspectAll d (before.toList.map .earlier)
  (⟨sink.map (·.diagnostic)⟩, outcome)

/-- What the checks report about a program, unless a fault ends them. -/
def analyze (d : Declarations) (root : Place) : Except Fault Diagnostics :=
  let (reported, outcome) := d.analyzeInto root .empty
  outcome.map fun _ => reported

end Declarations

end JavaMinus
