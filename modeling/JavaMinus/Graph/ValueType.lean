/-
JavaMinus/Graph/ValueType.lean

The types of the values that an instruction graph works on.

Numbers and truth values are handled by the same machine instructions; all
other values that can be loaded are references.  A class itself is neither:
it stands only in front of a call.
-/
import JavaMinus.Text.Quoted

namespace JavaMinus.Graph

/-- The type of a value in an instruction graph. -/
inductive ValueType where
  | int
  | boolean
  | string
  | void
  | array (element : ValueType)
  /-- Objects of a class. -/
  | object (className : String)
  /-- A class itself. -/
  | classRef (className : String)
  /-- The object that a method of a class works on. -/
  | self (className : String)
  deriving DecidableEq, Inhabited, Repr

namespace ValueType

def intArray : ValueType := .array .int

/-- Whether values are numbers to the machine. -/
def isIntLike : ValueType → Bool
  | int | boolean => true
  | _ => false

/-- Whether values are references to the machine. -/
def isReference : ValueType → Bool
  | string | array _ | object _ | self _ => true
  | _ => false

/-- A type as messages about unexpected types show it. -/
def shown : ValueType → String
  | int => "Int32"
  | boolean => "Boolean"
  | string => "String"
  | void => "Void"
  | array element => s!"Array({element.shown})"
  | object className => s!"Object({Text.quoted className})"
  | classRef className => s!"Class({Text.quoted className})"
  | self className => s!"This({Text.quoted className})"

end ValueType

end JavaMinus.Graph
