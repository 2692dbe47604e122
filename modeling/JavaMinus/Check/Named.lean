/-
JavaMinus/Check/Named.lean

Rules for the names that are used.

An identifier denotes something, the target of an assignment is a variable,
and code without an object uses neither the object nor its fields.  A field
counts as written by its name alone, even where a local or a parameter hides
it.
-/
import JavaMinus.Check.Inspection
import JavaMinus.Typing

namespace JavaMinus.Place

variable (d : Declarations)

/-- The variable that an assignment writes to. -/
def target? (p : Place) : Option Binding :=
  (p.tree.get? "name").bind (d.variableOf? p.method?)

/-- What the identifier at a place denotes. -/
def binding? (p : Place) : Option Binding := d.identifier? p.method? p.tree

/-- Whether a place lies in a method that has no object. -/
def isStatic (p : Place) : Bool := d.isStaticScope p.method?

/-- Whether a place holds an identifier that denotes nothing.  Such a name is
found at the identifier, and checks of what surrounds it keep silent. -/
def isUnboundIdentifier (p : Place) : Bool :=
  p.tree.kind == .identifier && (p.binding? d).isNone

def inspectIdentifier (p : Place) : Inspection Unit := do
  .reportIf (p.binding? d).isNone p (.undefinedVariable p.tree.name)
  .reportIf (p.isStatic d && (p.binding? d).any (·.origin == .field)) p
    (.fieldRead p.tree.name)

def inspectSelf (p : Place) : Inspection Unit :=
  .reportIf (p.isStatic d) p .selfUse

/-- The rules for the target of any assignment. -/
def inspectTarget (p : Place) : Inspection Unit := do
  .reportIf (p.target? d).isNone p (.undefinedVariable p.tree.name)
  .reportIf (p.isStatic d && (d.field? p.tree.name).isSome) p (.fieldWrite p.tree.name)

end JavaMinus.Place
