/-
JavaMinus/Assembly/Descriptor.lean

The types by which the machine tells fields and methods apart.

A descriptor is written in a form that shows its own end: one letter, or a
bracket in front of another descriptor, or the name of a class between the
letter `L` and a semicolon.
-/
import JavaMinus.Graph.ClassUnit

namespace JavaMinus.Assembly

/-- A type of the machine. -/
inductive Descriptor where
  | int
  | boolean
  | void
  | array (element : Descriptor)
  /-- Objects of the class of an internal name. -/
  | object (internalName : String)
  deriving DecidableEq, Inhabited, Repr

namespace Descriptor

def text : Descriptor → String
  | int => "I"
  | boolean => "Z"
  | void => "V"
  | array element => "[" ++ element.text
  | object internalName => "L" ++ internalName ++ ";"

instance : ToString Descriptor := ⟨text⟩

/-- The types of parameters, written one behind the other. -/
def textAll (ds : List Descriptor) : String := String.join (ds.map text)

end Descriptor

end JavaMinus.Assembly

namespace JavaMinus.Graph.ClassUnit

open JavaMinus.Assembly

/-- The machine's type for a type of the graph; classes are known by their
internal names. -/
def descriptor (u : ClassUnit) : ValueType → Descriptor
  | .int => .int
  | .boolean => .boolean
  | .string => .object "java/lang/String"
  | .void => .void
  | .array element => .array (u.descriptor element)
  | .object className | .classRef className | .self className =>
    .object (u.internalName className)

end JavaMinus.Graph.ClassUnit
