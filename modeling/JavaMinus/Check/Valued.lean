/-
JavaMinus/Check/Valued.lean

Rules for values that go where a type is declared or wanted.

A value may go where a type of equal name and shape is declared.  Of types
that the program does not show the inside of, more is assumed: an imported
class may stand for another imported class, and the class for the one it
extends, in either direction.  A value of no known type may go anywhere.
-/
import JavaMinus.Check.Named

namespace JavaMinus

/-- Whether a value of one type may go where another type is declared. -/
def Declarations.compatible (d : Declarations) (source destination : Ty) : Bool :=
  source.sameShape destination ||
    (source.isArray == destination.isArray &&
      ((d.isImported source.name && d.isImported destination.name) ||
        (source.name != destination.name && d.isOwnOrSuper source.name &&
          d.isOwnOrSuper destination.name)))

namespace Place

variable (d : Declarations)

/-- Report unless the type, where it is known, is the wanted one. -/
def demandType (wanted : Ty) (problem : Ty → Problem) (value site : Place) :
    Inspection Unit := do
  match ← .ofExcept (value.type d) with
  | none => pure ()
  | some ty => .reportIf (ty != wanted) site (problem ty)

/-- Report unless a value of the type, where it is known, may go where
another type is declared. -/
def demandCompatible (declared : Ty) (value site : Place) : Inspection Unit := do
  match ← .ofExcept (value.type d) with
  | none => pure ()
  | some ty => .reportIf (!d.compatible ty declared) site (.incompatible ty declared)

/-! ### Operands and conditions -/

/-- Both operands have the wanted type.  An operand of no known type counts
as having it. -/
def inspectOperands (wanted : Ty) (p : Place) : Inspection Unit := do
  match p.child? 0, p.child? 1 with
  | some left, some right =>
    -- both are typed before either is judged
    let leftType := (← .ofExcept (left.type d)).getD wanted
    let rightType := (← .ofExcept (right.type d)).getD wanted
    .reportIf (leftType != wanted || rightType != wanted) p
      (.incompatible leftType rightType)
  | _, _ => pure ()

def inspectArithmetic (p : Place) : Inspection Unit := do
  let _ ← .ofExcept (ArithmeticOperator.ofTree p.tree)
  p.inspectOperands d .int

def inspectLogical (p : Place) : Inspection Unit := do
  let op ← .ofExcept (LogicalOperator.ofTree p.tree)
  p.inspectOperands d (if op.isConnective then .boolean else .int)

/-- The condition of a branch or a loop is a truth value. -/
def inspectCondition (p : Place) : Inspection Unit :=
  match p.child? 0 with
  | none => pure ()
  | some condition =>
    demandType d .boolean (.incompatible · .boolean) condition condition

/-! ### Assignments and returns -/

/-- What is wrong with a value of one type for a target of another.  Numbers
and truth values never mix, whatever else is assumed. -/
def assignmentProblem? (target : String) (source destination : Ty) : Option Problem :=
  if destination == .int && source == .boolean then some (.booleanToInt target)
  else if destination == .boolean && source == .int then some (.intToBoolean target)
  else if !d.compatible source destination then some (.incompatible source destination)
  else none

/-- The value of an assignment fits its target.  Array literals have rules of
their own. -/
def inspectAssignedValue (p : Place) : Inspection Unit := do
  match p.target? d, p.child? 0 with
  | some target, some value =>
    if value.tree.kind == .arrayLiteral || value.isUnboundIdentifier d then pure ()
    else
      match ← .ofExcept (value.type d) with
      | none => pure ()
      | some source =>
        match assignmentProblem? d p.tree.name source target.ty with
        | none => pure ()
        | some problem => .report p problem
  | _, _ => pure ()

def inspectAssignment (p : Place) : Inspection Unit := do
  p.inspectTarget d
  p.inspectAssignedValue d

/-- A method returns what it is declared to return, and `void` is returned by
returning nothing. -/
def inspectReturn (p : Place) : Inspection Unit := do
  match p.method? with
  | none => pure ()
  | some method =>
    let declared := (d.returnType? method).getD .void
    match p.child? 0 with
    | none => .reportIf (declared != .void) p (.incompatible .void declared)
    | some value =>
      if value.isUnboundIdentifier d then pure ()
      else
        match ← .ofExcept (value.type d) with
        | none => pure ()
        | some actual =>
          .reportIf (declared == .void || !d.compatible actual declared) p
            (.incompatible actual declared)

end Place

end JavaMinus
