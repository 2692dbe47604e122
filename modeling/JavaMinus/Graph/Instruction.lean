/-
JavaMinus/Graph/Instruction.lean

The instructions of an instruction graph, and what they work on.

Instructions are nested where one computes a value for another: the right
side of an assignment and the condition of a branch are instructions.
-/
import JavaMinus.Graph.ValueType
import JavaMinus.Operator

namespace JavaMinus.Graph

/-- What an instruction works on. -/
inductive Operand where
  | literal (value : Int32) (type : ValueType)
  /-- A variable, a parameter, a class, or the object itself. -/
  | named (name : String) (type : ValueType)
  /-- An element of the array that a variable holds, with the type of the
  element. -/
  | element (array : String) (index : Operand) (type : ValueType)
  deriving DecidableEq, Repr

namespace Operand

instance : Inhabited Operand := ⟨.literal 0 .int⟩

def ofInt (value : Int32) : Operand := .literal value .int

/-- A truth value is written as one or zero. -/
def ofBool (value : Bool) : Operand := .literal (if value then 1 else 0) .boolean

/-- The object that a method of a class works on. -/
def self (className : String) : Operand := .named "this" (.self className)

def intElement (array : String) (index : Operand) : Operand := .element array index .int

def type : Operand → ValueType
  | literal _ t | named _ t | element _ _ t => t

/-- The variable that is named, if one is. -/
def name? : Operand → Option String
  | literal _ _ => none
  | named name _ | element name _ _ => some name

def text : Operand → String
  | literal value _ => toString value.toInt
  | named name _ => name
  | element array index _ => s!"{array}[{index.text}]"

end Operand

/-- The binary operators of instruction graphs. -/
inductive Operator where
  | arithmetic (operator : ArithmeticOperator)
  | connective (operator : Connective)
  | comparison (operator : Comparison)
  deriving DecidableEq, Inhabited, Repr

def Operator.isComparison : Operator → Bool
  | comparison _ => true
  | _ => false

/-- What a call does. -/
inductive CallKind where
  /-- Call a method of a class. -/
  | static
  /-- Call a constructor. -/
  | special
  /-- Call a method of an object. -/
  | virtual
  /-- Make a new object or array. -/
  | new
  | arrayLength
  deriving DecidableEq, Inhabited, Repr

/-- A call.  The caller is the class, the object or the array that it is made
on; what is made new is told by the type of the caller, and the size of a new
array is its only argument. -/
structure Call where
  kind : CallKind
  caller : Operand
  method : Option String
  arguments : List Operand
  result : ValueType
  deriving DecidableEq, Inhabited, Repr

namespace Call

def static (className method : String) (arguments : List Operand) (result : ValueType) : Call :=
  ⟨.static, .named className (.classRef className), some method, arguments, result⟩

def virtual (receiver : Operand) (method : String) (arguments : List Operand)
    (result : ValueType) : Call :=
  ⟨.virtual, receiver, some method, arguments, result⟩

/-- Run the constructor of a new object. -/
def construct (receiver : Operand) : Call :=
  ⟨.special, receiver, some "<init>", [], .void⟩

def newObject (className : String) : Call :=
  ⟨.new, .named className (.object className), none, [], .object className⟩

def newIntArray (size : Operand) : Call :=
  ⟨.new, .named "array" .intArray, none, [size], .intArray⟩

def arrayLength (array : Operand) : Call := ⟨.arrayLength, array, none, [], .int⟩

end Call

/-- An instruction. -/
inductive Instruction where
  | assign (target : Operand) (source : Instruction)
  | single (operand : Operand)
  | binary (operator : Operator) (left right : Operand)
  | ret (type : ValueType) (value : Option Operand)
  | call (call : Call)
  | putField (object field value : Operand)
  | getField (object field : Operand)
  | branch (condition : Instruction) (label : String)
  | jump (label : String)
  deriving DecidableEq, Inhabited, Repr

/-- What an instruction is, in a few words. -/
def Instruction.describe : Instruction → String
  | assign _ _ => "assignment"
  | single _ => "single operand"
  | binary _ _ _ => "binary operation"
  | ret _ _ => "return"
  | call _ => "call"
  | putField _ _ _ => "putfield"
  | getField _ _ => "getfield"
  | branch _ _ => "conditional branch"
  | jump _ => "goto"

end JavaMinus.Graph
