/-
JavaMinus/Compiler.lean

From a program tree to assembly.

The declarations are read and the program is checked.  If the checks found
errors, nothing more is done, unless the configuration says otherwise.  Then
the program is lowered to three-address code, a foreign builder turns the
text of that code into an instruction graph, and the graph is emitted.

The builder may do as it likes before it answers, so it runs in a monad of
its own.  It is asked at most once, and only with the text of the program.
-/
import JavaMinus.Assembly.ClassFile
import JavaMinus.Check.Program
import JavaMinus.ThreeAddress.Program

namespace JavaMinus.Compiler

open JavaMinus.Assembly (StackLimit Options ClassFile)
open JavaMinus.Graph (ClassUnit)

/-- What can be chosen about a compilation. -/
structure Config where
  stackLimit : StackLimit
  defaultSuperName : String
  /-- Whether code is generated in spite of errors. -/
  emitOnErrors : Bool
  deriving DecidableEq, Inhabited, Repr

namespace Config

def standard : Config :=
  ⟨Options.standard.stackLimit, Options.standard.defaultSuperName, false⟩

/-- What is chosen about the assembly. -/
def options (c : Config) : Options := ⟨c.stackLimit, c.defaultSuperName⟩

end Config

/-- What a compilation comes to.  There is no code where errors forbade to
generate any. -/
structure Compilation where
  declarations : Declarations
  diagnostics : Diagnostics
  threeAddress : Option String
  assembly : Option String
  deriving DecidableEq, Repr

namespace Compilation

def hasErrors (c : Compilation) : Bool := c.diagnostics.hasErrors

/-- The assembly, if there is any and the program has no errors. -/
def accepted (c : Compilation) : Except CompileError String :=
  match c.assembly, c.hasErrors with
  | some assembly, false => .ok assembly
  | _, _ => .error (.rejected c.diagnostics.errorCount)

end Compilation

/-! ### The stages -/

/-- What a program declares. -/
def declare (root : Place) : Except CompileError Declarations :=
  (Declarations.ofTree root.tree).mapError .malformed

/-- What a program declares, and what the checks report about it. -/
def analyze (root : Place) : Except CompileError (Declarations × Diagnostics) := do
  let d ← declare root
  let diagnostics ← (d.analyze root).mapError .fault
  pure (d, diagnostics)

/-- The text of the three-address code of a program. -/
def lowerText (d : Declarations) (root : Place) : Except CompileError String :=
  ((ThreeAddress.Program.ofTree d root.tree).map (·.text)).mapError .fault

/-- The text of the assembly of a graph. -/
def assemblyText (config : Config) (u : ClassUnit) : Except CompileError String :=
  ((ClassFile.ofGraph config.options u).map (·.text)).mapError .fault

/-! ### The whole way -/

variable {μ : Type → Type} [Monad μ]

/-- Generate code for a checked program by way of a builder. -/
def generate (config : Config) (build : String → μ (Except String ClassUnit)) (root : Place)
    (d : Declarations) (diagnostics : Diagnostics) : μ (Except CompileError Compilation) :=
  match lowerText d root with
  | .error e => pure (.error e)
  | .ok text => do
    match ← build text with
    | .error reason => pure (.error (.build reason))
    | .ok unit =>
      pure ((assemblyText config unit).map fun assembly =>
        ⟨d, diagnostics, some text, some assembly⟩)

/-- Compile a program. -/
def compile (config : Config) (build : String → μ (Except String ClassUnit)) (root : Place) :
    μ (Except CompileError Compilation) :=
  match analyze root with
  | .error e => pure (.error e)
  | .ok (d, diagnostics) =>
    -- the builder is not asked about a program that is turned down
    if diagnostics.hasErrors && !config.emitOnErrors then
      pure (.ok ⟨d, diagnostics, none, none⟩)
    else generate config build root d diagnostics

/-- Compile a program that must have no errors. -/
def compileToAssembly (config : Config) (build : String → μ (Except String ClassUnit))
    (root : Place) : μ (Except CompileError String) := do
  let result ← compile config build root
  pure (result >>= Compilation.accepted)

end JavaMinus.Compiler
