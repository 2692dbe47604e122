/-
JavaMinus/Check/Finding.lean

The rules that a program can break.

A breach is a problem at a place of the source, and has one wording.
-/
import JavaMinus.Diagnostics
import JavaMinus.Tree.Place
import JavaMinus.Ty

namespace JavaMinus

/-- The scopes in which names must not be declared twice. -/
inductive DeclarationScope where
  | imports
  | fields
  | methods
  | parameters
  | locals
  deriving DecidableEq, Inhabited, Repr

/-- One of the things declared in a scope. -/
def DeclarationScope.member : DeclarationScope → String
  | imports => "import"
  | fields => "field"
  | methods => "method"
  | parameters => "parameter"
  | locals => "local"

/-- A broken rule. -/
inductive Problem where
  /-- A name that denotes nothing, or a target that is no variable. -/
  | undefinedVariable (name : String)
  | undefinedMethod (name : String)
  | duplicate (scope : DeclarationScope) (name : String)
  | fieldRead (name : String)
  | fieldWrite (name : String)
  | selfUse
  /-- A type stands where another one is wanted. -/
  | incompatible (found wanted : Ty)
  /-- Types that should agree with each other do not. -/
  | different (first second : Ty)
  | booleanToInt (target : String)
  | intToBoolean (target : String)
  | argumentCount (method : String) (expected found : Nat)
  | notAnArray (what : String)
  | lengthOfNonArray (what : String)
  | literalForNonArray (target : String)
  | indexType (found : Ty)
  | loopWithArray (name : String)
  /-- A field or local with an open tail. -/
  | varargsVariable (name : String)
  | varargsReturn (method : String)
  | varargsNotLast (parameter : String)
  deriving DecidableEq, Repr

def Problem.message : Problem → String
  | undefinedVariable name => s!"Variable not defined: {name}"
  | undefinedMethod name => s!"Method not defined: {name}"
  | duplicate scope name => s!"Duplicated {scope.member}: {name}"
  | fieldRead name => s!"Can't use field in static method: {name}"
  | fieldWrite name => s!"Can't assign to field in static method: {name}"
  | selfUse => "Can't use this in static method"
  | incompatible found wanted => s!"Incompatible types: {found} and {wanted}"
  | different first second => s!"Different types: {first} and {second}"
  | booleanToInt target => s!"Can't assign bool to int: {target}"
  | intToBoolean target => s!"Can't assign int to bool: {target}"
  | argumentCount method expected found =>
    s!"Wrong number of arguments for {method}: expected {expected}, found {found}"
  | notAnArray what => s!"Can't do an array expression with non array: {what}"
  | lengthOfNonArray what => s!"Can't get the length of a non array: {what}"
  | literalForNonArray target =>
    s!"Can't initiate an array when it does not exist: {target}"
  | indexType found => s!"Can't do an array expression with non int: {found}"
  | loopWithArray name => s!"Can't do a while statement with array: {name}"
  | varargsVariable name => s!"Invalid use of varargs: {name}"
  | varargsReturn method => s!"Invalid use of varargs: return type of {method}"
  | varargsNotLast parameter => s!"Varargs must be the last parameter: {parameter}"

/-- A broken rule at a place of the source. -/
structure Finding where
  position : Position
  problem : Problem
  deriving DecidableEq, Repr

def Finding.diagnostic (f : Finding) : Diagnostic :=
  .error f.position f.problem.message

/-- A broken rule at the node of a place. -/
def Place.finding (p : Place) (problem : Problem) : Finding := ⟨p.tree.position, problem⟩

end JavaMinus
