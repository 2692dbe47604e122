/-
JavaMinus/Assembly/Text.lean

How assembly is written.

    .class public Calc
    .super java/lang/Object
    .field public total I

    .method public add(II)I
       .limit stack 2
       .limit locals 3
       iload_1
       iload_2
       iadd
       ireturn
    .end method

Every line ends in a line feed; what stands inside a method, labels apart, is
indented by three blanks.  The first four registers are written as a part of
the instruction.
-/
import JavaMinus.Assembly.Code

namespace JavaMinus.Assembly

/-- The letter in front of an instruction for values of a family. -/
def Family.letter : Family → String
  | int => "i"
  | reference => "a"

/-- An instruction on a register. -/
def slotText (operation : String) (register : UInt16) : String :=
  if register ≤ 3 then s!"{operation}_{register.toNat}" else s!"{operation} {register.toNat}"

def arithmeticText : ArithmeticOperator → String
  | .add => "iadd"
  | .sub => "isub"
  | .mul => "imul"
  | .div => "idiv"

def connectiveText : Connective → String
  | .and => "iand"
  | .or => "ior"

def comparisonText : Comparison → String
  | .lt => "if_icmplt"
  | .gt => "if_icmpgt"
  | .le => "if_icmple"
  | .ge => "if_icmpge"

def CallMode.text : CallMode → String
  | static => "invokestatic"
  | special => "invokespecial"
  | virtual => "invokevirtual"

def FieldRef.text (f : FieldRef) : String := s!"{f.owner}/{f.name} {f.type}"

def MethodRef.text (m : MethodRef) : String :=
  s!"{m.owner}/{m.name}({Descriptor.textAll m.parameters}){m.result}"

def Instruction.text : Instruction → String
  | push constant => constant.text
  | load family register => slotText s!"{family.letter}load" register
  | store family register => slotText s!"{family.letter}store" register
  | elementLoad family => s!"{family.letter}aload"
  | elementStore family => s!"{family.letter}astore"
  | arithmetic operator => arithmeticText operator
  | connective operator => connectiveText operator
  | compareJump operator target => s!"{comparisonText operator} {target}"
  | trueJump target => s!"ifne {target}"
  | jump target => s!"goto {target}"
  | pop => "pop"
  | dup => "dup"
  | newObject className => s!"new {className}"
  | newIntArray => "newarray int"
  | arrayLength => "arraylength"
  | getField field => s!"getfield {field.text}"
  | putField field => s!"putfield {field.text}"
  | invoke mode method => s!"{mode.text} {method.text}"
  | returnVoid => "return"
  | returnValue family => s!"{family.letter}return"

/-- A line of a method. -/
def Line.text : Line → String
  | label name => s!"{name}:"
  | instruction i => s!"   {i.text}"

/-- The word for who may use something, with the blank behind it. -/
def accessText (access : Graph.Access) : String :=
  match access.keyword? with
  | none => ""
  | some keyword => s!"{keyword} "

def Method.lines (m : Method) : List String :=
  let static := if m.isStatic then "static " else ""
  let final := if m.isFinal then "final " else ""
  let parameters := Descriptor.textAll m.parameters
  ["", s!".method {accessText m.access}{static}{final}{m.name}({parameters}){m.result}",
    s!"   .limit stack {m.stackLimit}", s!"   .limit locals {m.localsLimit}"] ++
    m.body.map (·.text) ++ [".end method"]

/-- The lines of a constructor below a class. -/
def constructorLines (superName : String) : List String :=
  let above : MethodRef := ⟨superName, "<init>", [], .void⟩
  let body : List Instruction := [.load .reference 0, .invoke .special above, .returnVoid]
  ["", ".method public <init>()V"] ++ body.map (fun i => s!"   {i.text}") ++ [".end method"]

def Member.lines (superName : String) : Member → List String
  | .constructor => constructorLines superName
  | .method m => m.lines

def Field.text (f : Field) : String := s!".field {accessText f.access}{f.name} {f.type}"

def ClassFile.lines (c : ClassFile) : List String :=
  [s!".class {accessText c.access}{c.name}", s!".super {c.superName}"] ++
    c.fields.map (·.text) ++ c.members.flatMap (·.lines c.superName)

/-- A class as a text. -/
def ClassFile.text (c : ClassFile) : String := String.join (c.lines.map (· ++ "\n"))

end JavaMinus.Assembly
