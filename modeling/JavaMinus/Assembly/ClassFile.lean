/-
JavaMinus/Assembly/ClassFile.lean

Emitting a class.

The head of a method names the greatest depth of its operand stack, or a
number that was fixed beforehand, and how many registers it uses: one for
every variable, and one for the object if there is one.
-/
import JavaMinus.Assembly.Emission
import JavaMinus.Assembly.Text

namespace JavaMinus.Assembly

open JavaMinus.Graph (ClassUnit)

/-- What the head of a method names as the depth of its operand stack. -/
inductive StackLimit where
  /-- The greatest depth that is reached. -/
  | computed
  | fixed (limit : Nat)
  deriving DecidableEq, Inhabited, Repr

/-- What can be chosen about the assembly of a class. -/
structure Options where
  stackLimit : StackLimit
  /-- The internal name of the class that is extended by classes that extend
  none. -/
  defaultSuperName : String
  deriving DecidableEq, Inhabited, Repr

namespace Options

def standard : Options := ⟨.computed, "java/lang/Object"⟩

end Options

/-- How many registers a method uses. -/
def registersUsed (m : Graph.Method) : Nat :=
  m.variableCount + if m.isStatic then 0 else 1

/-- The assembly of a method. -/
def Method.ofGraph (options : Options) (u : ClassUnit) (m : Graph.Method) :
    Except Fault Method := do
  let (lines, deepest) ← Assembly.body u m
  pure
    { access := m.access
      isStatic := m.isStatic
      isFinal := m.isFinal
      name := m.name
      parameters := m.parameters.map fun x => u.descriptor x.type
      result := u.descriptor m.result
      stackLimit := match options.stackLimit with
        | .computed => deepest
        | .fixed limit => limit
      localsLimit := registersUsed m
      body := lines }

/-- The assembly of a method or of the constructor. -/
def Member.ofGraph (options : Options) (u : ClassUnit) (m : Graph.Method) :
    Except Fault Member :=
  if m.isConstructor then .ok .constructor
  else (Method.ofGraph options u m).map .method

/-- The internal name of the class that a class extends. -/
def superName (options : Options) (u : ClassUnit) : String :=
  match u.superName with
  | some name => u.internalName name
  | none => options.defaultSuperName

/-- The assembly of a class. -/
def ClassFile.ofGraph (options : Options) (u : ClassUnit) : Except Fault ClassFile := do
  let members ← u.methods.mapM (Member.ofGraph options u)
  pure
    { access := u.access
      name := u.name
      superName := Assembly.superName options u
      fields := u.fields.map fun f => ⟨f.access, f.name, u.descriptor f.type⟩
      members := members }

end JavaMinus.Assembly
