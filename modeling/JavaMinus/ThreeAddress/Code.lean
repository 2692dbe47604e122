/-
JavaMinus/ThreeAddress/Code.lean

Three-address code.

A method is a list of lines.  A line is a label, or an instruction that works
on operands; what an instruction computes is a source, and it is put into a
variable or an element of an array.  Temporaries are variables of the code's
own, told apart by their numbers.
-/
import JavaMinus.Operator
import JavaMinus.ThreeAddress.Tag

namespace JavaMinus.ThreeAddress

/-- What an assignment can set. -/
inductive Cell where
  /-- A variable of the code's own. -/
  | temporary (number : Nat)
  /-- A variable of the program. -/
  | named (name : String)
  deriving DecidableEq, Inhabited, Repr

/-- What an instruction works on. -/
inductive Operand where
  | cell (cell : Cell) (tag : Tag)
  /-- A number, by the text that writes it. -/
  | number (text : String)
  | truth (value : Bool)
  /-- The object that the method works on. -/
  | self (className : String)
  /-- A class, which stands only in front of a call. -/
  | classRef (name : String)
  deriving DecidableEq, Inhabited, Repr

/-- What a call is made on. -/
inductive Receiver where
  /-- A class; the method works on no object. -/
  | classRef (name : String)
  /-- The object that the calling method works on. -/
  | self
  | object (operand : Operand)
  deriving DecidableEq, Inhabited, Repr

/-- A call of a method. -/
structure Invocation where
  receiver : Receiver
  method : String
  arguments : List Operand
  result : Tag
  deriving DecidableEq, Inhabited, Repr

/-- What an assignment computes. -/
inductive Source where
  | operand (value : Operand)
  | arithmetic (operator : ArithmeticOperator) (left right : Operand)
  | logical (operator : LogicalOperator) (left right : Operand)
  /-- A field of the object that the method works on. -/
  | fieldRead (name : String) (tag : Tag)
  | call (invocation : Invocation)
  | newArray (size : Operand) (tag : Tag)
  | newObject (className : String)
  | length (array : Operand)
  /-- An element of an array. -/
  | element (array index : Operand) (tag : Tag)
  deriving DecidableEq, Inhabited, Repr

/-- The places in branches and loops that jumps lead to. -/
inductive Landmark where
  | thenBranch
  | conditionalEnd
  | loopCondition
  | loopBody
  | loopEnd
  deriving DecidableEq, Inhabited, Repr

/-- A label: a landmark of the branch or loop of a number. -/
structure Label where
  landmark : Landmark
  number : Nat
  deriving DecidableEq, Inhabited, Repr

/-- A line of a method. -/
inductive Line where
  | label (label : Label)
  /-- Put what a source computes into a variable. -/
  | assign (cell : Cell) (tag : Tag) (source : Source)
  /-- Put a value into an element of the array that a variable holds. -/
  | store (array : Cell) (index : Operand) (tag : Tag) (value : Operand)
  /-- Put a value into a field of the object that the method works on. -/
  | fieldWrite (name : String) (tag : Tag) (value : Operand)
  /-- Make a call and drop its result. -/
  | call (invocation : Invocation)
  /-- Run the constructor of a new object. -/
  | construct (object : Operand)
  | branch (condition : Operand) (target : Label)
  | jump (target : Label)
  | ret (tag : Tag) (value : Option Operand)
  deriving DecidableEq, Inhabited, Repr

/-- A method in three-address code. -/
structure Method where
  isPublic : Bool
  isStatic : Bool
  name : String
  parameters : List (String × Tag)
  result : Tag
  body : List Line
  deriving DecidableEq, Inhabited, Repr

/-- A class in three-address code.  Its constructor does nothing of its own
and is not listed. -/
structure ClassCode where
  name : String
  superName : Option String
  fields : List (String × Tag)
  methods : List Method
  deriving DecidableEq, Inhabited, Repr

/-- A program in three-address code. -/
structure Program where
  imports : List String
  classes : List ClassCode
  deriving DecidableEq, Inhabited, Repr

end JavaMinus.ThreeAddress
