/-
JavaMinus/ThreeAddress/Text.lean

How three-address code is written.  Behind the imports stand the classes, each
in this form:

    Calc extends Base {
    .field public total.i32;

    .construct Calc().V {
    invokespecial(this, "<init>").V;
    }

    .method public add(a.i32, b.i32).i32 {
    t0.i32 :=.i32 a.i32 +.i32 b.i32;
    ret.i32 t0.i32;
    }
    }

Every line ends in a line feed.  Names and numbers are written as they are.
Where an element is read the array is written without its tag, that is, up to
the first dot of its written form (`Operand.bare`).
-/
import JavaMinus.QualifiedName
import JavaMinus.ThreeAddress.Code

namespace JavaMinus.ThreeAddress

def Cell.text : Cell → String
  | temporary number => s!"t{number}"
  | named name => name

instance : ToString Cell := ⟨Cell.text⟩

namespace Operand

def text : Operand → String
  | cell c tag => s!"{c}{tag}"
  | number digits => s!"{digits}.i32"
  | truth value => if value then "1.bool" else "0.bool"
  | self className => s!"this.{className}"
  | classRef name => name

instance : ToString Operand := ⟨text⟩

/-- An operand without its tag. -/
def bare (x : Operand) : String := QualifiedName.firstSegment x.text

end Operand

def Invocation.text (c : Invocation) : String :=
  let call := match c.receiver with
    | .classRef name => s!"invokestatic({name}"
    | .self => "invokevirtual(this"
    | .object operand => s!"invokevirtual({operand}"
  let arguments := String.join (c.arguments.map fun x => s!", {x}")
  s!"{call}, \"{c.method}\"{arguments}){c.result}"

instance : ToString Invocation := ⟨Invocation.text⟩

def Source.text : Source → String
  | operand value => value.text
  | arithmetic operator left right => s!"{left} {operator.symbol}.i32 {right}"
  | logical operator left right => s!"{left} {operator.symbol}.bool {right}"
  | fieldRead name tag => s!"getfield(this, {name}{tag}){tag}"
  | call invocation => invocation.text
  | newArray size tag => s!"new(array, {size}){tag}"
  | newObject className => s!"new({className}).{className}"
  | length array => s!"arraylength({array}).i32"
  | element array index tag => s!"{array.bare}[{index}]{tag}"

instance : ToString Source := ⟨Source.text⟩

def Landmark.text : Landmark → String
  | thenBranch => "if_then_"
  | conditionalEnd => "if_end_"
  | loopCondition => "while_cond_"
  | loopBody => "while_body_"
  | loopEnd => "while_end_"

def Label.text (l : Label) : String := s!"{l.landmark.text}{l.number}"

instance : ToString Label := ⟨Label.text⟩

/-- A line without its end. -/
def Line.text : Line → String
  | label l => s!"{l}:"
  | assign cell tag source => s!"{cell}{tag} :={tag} {source};"
  | store array index tag value => s!"{array}[{index}]{tag} :={tag} {value};"
  | fieldWrite name tag value => s!"putfield(this, {name}{tag}, {value}).V;"
  | call invocation => s!"{invocation};"
  | construct object => s!"invokespecial({object}, \"<init>\").V;"
  | branch condition target => s!"if ({condition}) goto {target};"
  | jump target => s!"goto {target};"
  | ret tag none => s!"ret{tag};"
  | ret tag (some value) => s!"ret{tag} {value};"

/-- Lines, each with its end. -/
def ofLines (lines : List String) : String := String.join (lines.map (· ++ "\n"))

namespace Method

/-- The first line of a method. -/
def header (m : Method) : String :=
  let access := if m.isPublic then "public " else ""
  let static := if m.isStatic then "static " else ""
  let parameters := ", ".intercalate (m.parameters.map fun (name, tag) => s!"{name}{tag}")
  s!".method {access}{static}{m.name}({parameters}){m.result} \x7b"

def lines (m : Method) : List String :=
  ["", m.header] ++ m.body.map (·.text) ++ ["\x7d"]

end Method

namespace ClassCode

/-- The first line of a class. -/
def header (c : ClassCode) : String :=
  match c.superName with
  | none => s!"{c.name} \x7b"
  | some superName => s!"{c.name} extends {superName} \x7b"

/-- The constructor, which only runs the one of the class above. -/
def constructorLines (c : ClassCode) : List String :=
  ["", s!".construct {c.name}().V \x7b", "invokespecial(this, \"<init>\").V;", "\x7d"]

def lines (c : ClassCode) : List String :=
  [c.header] ++ c.fields.map (fun (name, tag) => s!".field public {name}{tag};") ++
    c.constructorLines ++ c.methods.flatMap (·.lines) ++ ["\x7d"]

end ClassCode

/-- A program as a text. -/
def Program.text (p : Program) : String :=
  ofLines (p.imports.map (fun path => s!"import {path};") ++ p.classes.flatMap (·.lines))

end JavaMinus.ThreeAddress
