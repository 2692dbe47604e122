/-
JavaMinus/Assembly/Code.lean

Assembly for a stack machine.

A method is a list of lines, each a label or an instruction.  Instructions
take their operands from a stack and leave their results there.  Values of
two families are kept apart: numbers, to which the truth values belong, and
references.
-/
import JavaMinus.Assembly.Constant
import JavaMinus.Assembly.Descriptor
import JavaMinus.Operator

namespace JavaMinus.Assembly

/-- What a value is to the machine. -/
inductive Family where
  | int
  | reference
  deriving DecidableEq, Inhabited, Repr

/-- Numbers and truth values form one family, everything else the other. -/
def Family.ofType (type : Graph.ValueType) : Family :=
  if type.isIntLike then .int else .reference

/-- How a method is called. -/
inductive CallMode where
  | static
  | special
  | virtual
  deriving DecidableEq, Inhabited, Repr

/-- A field, by its class, its name and its type. -/
structure FieldRef where
  owner : String
  name : String
  type : Descriptor
  deriving DecidableEq, Inhabited, Repr

/-- A method, by its class, its name and its types. -/
structure MethodRef where
  owner : String
  name : String
  parameters : List Descriptor
  result : Descriptor
  deriving DecidableEq, Inhabited, Repr

/-- An instruction of the machine. -/
inductive Instruction where
  | push (constant : Constant)
  | load (family : Family) (register : UInt16)
  | store (family : Family) (register : UInt16)
  | elementLoad (family : Family)
  | elementStore (family : Family)
  | arithmetic (operator : ArithmeticOperator)
  | connective (operator : Connective)
  /-- Jump if a comparison of the two topmost numbers holds. -/
  | compareJump (operator : Comparison) (target : String)
  /-- Jump if the topmost number is not zero. -/
  | trueJump (target : String)
  | jump (target : String)
  | pop
  | dup
  | newObject (className : String)
  | newIntArray
  | arrayLength
  | getField (field : FieldRef)
  | putField (field : FieldRef)
  | invoke (mode : CallMode) (method : MethodRef)
  | returnVoid
  | returnValue (family : Family)
  deriving DecidableEq, Inhabited, Repr

/-- A line of a method. -/
inductive Line where
  | label (name : String)
  | instruction (instruction : Instruction)
  deriving DecidableEq, Inhabited, Repr

/-- A method of a class. -/
structure Method where
  access : Graph.Access
  isStatic : Bool
  isFinal : Bool
  name : String
  parameters : List Descriptor
  result : Descriptor
  stackLimit : Nat
  localsLimit : Nat
  body : List Line
  deriving DecidableEq, Inhabited, Repr

/-- Something that a class does. -/
inductive Member where
  /-- The constructor, which runs the one of the class above and returns. -/
  | constructor
  | method (method : Method)
  deriving DecidableEq, Inhabited, Repr

structure Field where
  access : Graph.Access
  name : String
  type : Descriptor
  deriving DecidableEq, Inhabited, Repr

/-- A class. -/
structure ClassFile where
  access : Graph.Access
  name : String
  superName : String
  fields : List Field
  members : List Member
  deriving DecidableEq, Inhabited, Repr

end JavaMinus.Assembly
