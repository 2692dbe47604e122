/-
JavaMinus/Graph/ClassUnit.lean

The instruction graph of a class.
-/
import JavaMinus.Graph.Method
import JavaMinus.QualifiedName

namespace JavaMinus.Graph

structure Field where
  name : String
  type : ValueType
  access : Access
  deriving DecidableEq, Inhabited, Repr

/-- The instruction graph of a class. -/
structure ClassUnit where
  name : String
  access : Access
  superName : Option String
  /-- The imports by their whole names. -/
  imports : List String
  fields : List Field
  methods : List Method
  deriving DecidableEq, Inhabited, Repr

namespace ClassUnit

/-- A public class with nothing but its constructor. -/
def new (name : String) : ClassUnit :=
  { name, access := .anyone, superName := none, imports := [], fields := [],
    methods := [.constructor name] }

/-- The first method of a name; constructors are not asked for by name. -/
def method? (u : ClassUnit) (name : String) : Option Method :=
  u.methods.find? fun m => !m.isConstructor && m.name == name

/-- The name by which the machine knows a class: the first import that is the
name or ends in it, with slashes for dots, or else the name as it is. -/
def internalName (u : ClassUnit) (name : String) : String :=
  match u.imports.find? (QualifiedName.endsIn · name) with
  | some path => QualifiedName.slashed path
  | none => name

end ClassUnit

end JavaMinus.Graph
