/-
JavaMinus/Check/Invoked.lean

Rules for calls.

Of a call on an imported class, or on an object of one, nothing is known and
everything is allowed.  A method that the class declares is called with the
arguments that it takes, if the receiver is an object of the class.  Any
other method must be inherited, so there must be a class to inherit it from.
-/
import JavaMinus.Check.Valued

namespace JavaMinus.Place

variable (d : Declarations)

/-- Whether the receiver of a call is an imported class or an object of
one. -/
def callsImport (p : Place) : Except Fault Bool :=
  match p.child? 0 with
  | none => .ok false
  | some receiver =>
    let byType : Except Fault Bool := do
      let ty ← receiver.type d
      pure (ty.any fun ty => d.isImported ty.name)
    if receiver.tree.kind == .identifier then
      match receiver.binding? d with
      | none => .ok false
      | some binding => if binding.origin == .importedClass then .ok true else byType
    else byType

/-- The arguments of a call; the first child is the receiver. -/
def arguments (p : Place) : List Place := p.children.drop 1

/-- Every argument is one that its parameter can take.  What is left of the
longer list is passed over. -/
def inspectFixedArguments : List Place → List Variable → Inspection Unit
  | argument :: arguments, parameter :: parameters => do
    demandCompatible d parameter.ty argument argument
    inspectFixedArguments arguments parameters
  | _, _ => pure ()

/-- Whether the arguments left for an open tail are a single array of its
element type, which is then passed on as it is. -/
def areOneArray (element : Ty) : List Place → Except Fault Bool
  | [single] => do
    let ty ← single.type d
    pure (ty.any fun ty => ty.isArray && ty.name == element.name)
  | _ => pure false

/-- The arguments left for an open tail have its element type, unless they
are a single array. -/
def inspectOpenArguments (element : Ty) (arguments : List Place) : Inspection Unit := do
  if ← .ofExcept (areOneArray d element arguments) then pure ()
  else arguments.forM fun argument =>
    demandType d element (.different · element) argument argument

/-- The arguments of a call fit the parameters of a declared method, in number
and in type. -/
def inspectArguments (p : Place) (method : String) : Inspection Unit := do
  let parameters := d.parameters method
  let fixed := Parameters.fixed parameters
  let arguments := p.arguments
  match Parameters.openTail? parameters with
  | none =>
    if arguments.length = fixed.length then inspectFixedArguments d arguments fixed
    else .report p (.argumentCount method parameters.length arguments.length)
  | some tail =>
    if fixed.length ≤ arguments.length then
      inspectFixedArguments d arguments fixed
      inspectOpenArguments d (tail.ty.element?.getD .int) (arguments.drop fixed.length)
    else .report p (.argumentCount method parameters.length arguments.length)

def inspectCall (p : Place) : Inspection Unit := do
  let name := p.tree.name
  if ← .ofExcept (p.callsImport d) then pure ()
  else if d.hasMethod name then
    if ← .ofExcept (d.targetsOwnClass p.method? p.tree) then p.inspectArguments d name
    else pure ()
  else .reportIf d.superName.isNone p (.undefinedMethod name)

end JavaMinus.Place
