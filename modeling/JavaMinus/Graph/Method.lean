/-
JavaMinus/Graph/Method.lean

Methods of an instruction graph, and how they are built.

Every variable of a method has a register of the machine.  The first variable
gets the first register, and every new one gets the next; a method that works
on an object leaves register zero to the object.  Registers are counted in
sixteen bits.

A label stands in front of the instruction at its index; an index equal to
the number of instructions stands for the end of the method.
-/
import JavaMinus.Graph.Instruction
import JavaMinus.Listing

namespace JavaMinus.Graph

/-- Who may use a class, a field or a method. -/
inductive Access where
  | anyone
  | classItself
  | subclasses
  /-- Whatever lies in the same package; no word says so. -/
  | package
  deriving DecidableEq, Inhabited, Repr

def Access.keyword? : Access → Option String
  | .anyone => some "public"
  | .classItself => some "private"
  | .subclasses => some "protected"
  | .package => none

/-- The register of a variable, with the type of what it holds. -/
structure Register where
  number : UInt16
  type : ValueType
  deriving DecidableEq, Inhabited, Repr

/-- A method of an instruction graph. -/
structure Method where
  name : String
  /-- The constructor does nothing of its own; what else the method holds is
  not used. -/
  isConstructor : Bool
  access : Access
  isStatic : Bool
  isFinal : Bool
  parameters : List Operand
  result : ValueType
  instructions : List Instruction
  labels : Listing Nat
  registers : Listing Register
  deriving DecidableEq, Inhabited, Repr

namespace Method

/-- A public method of an object, without instructions. -/
def new (name : String) (result : ValueType) : Method :=
  { name, isConstructor := false, access := .anyone, isStatic := false, isFinal := false,
    parameters := [], result, instructions := [], labels := .empty, registers := .empty }

/-- The constructor of a class. -/
def constructor (className : String) : Method :=
  { new className .void with isConstructor := true }

/-- Set flags; one that is set stays set. -/
def withFlags (m : Method) (isStatic isFinal : Bool) : Method :=
  { m with isStatic := m.isStatic || isStatic, isFinal := m.isFinal || isFinal }

def withAccess (m : Method) (access : Access) : Method := { m with access }

/-- The register that a variable has. -/
def register? (m : Method) (name : String) : Option UInt16 :=
  (m.registers.get? name).map (·.number)

/-- The register that the next new variable gets. -/
def nextRegister (m : Method) : UInt16 :=
  UInt16.ofNat m.registers.size + if m.isStatic then 0 else 1

/-- Give a variable a register, unless it has one. -/
def declare (m : Method) (name : String) (type : ValueType) : Method :=
  -- the type that was given first stays, too
  if m.registers.has name then m
  else { m with registers := m.registers.insert name ⟨m.nextRegister, type⟩ }

/-- Add a parameter, which is a variable too. -/
def addParameter (m : Method) (name : String) (type : ValueType) : Method :=
  let listed := { m with parameters := m.parameters ++ [Operand.named name type] }
  listed.declare name type

/-- The variable that an instruction sets, if it sets one. -/
def assigned? : Instruction → Option (String × ValueType)
  | .assign (.named name type) _ => some (name, type)
  | _ => none

/-- Add an instruction.  The variable that it sets gets a register. -/
def push (m : Method) (instruction : Instruction) : Method :=
  let m := match assigned? instruction with
    | some (name, type) => m.declare name type
    | none => m
  { m with instructions := m.instructions ++ [instruction] }

/-- Put a label in front of the instruction that is added next.  A label that
stands elsewhere is moved. -/
def label (m : Method) (name : String) : Method :=
  { m with labels := m.labels.insert name m.instructions.length }

/-- The labels in front of the instruction at an index, in order. -/
def labelsAt (m : Method) (index : Nat) : List String :=
  (m.labels.entries.filter (·.2 == index)).map (·.1)

/-- How many variables there are, the object itself not counted. -/
def variableCount (m : Method) : Nat := m.registers.keys.countP (· ≠ "this")

end Method

end JavaMinus.Graph
