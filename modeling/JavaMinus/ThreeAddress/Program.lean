/-
JavaMinus/ThreeAddress/Program.lean

Lowering a program to three-address code.

The head of a class is written from the declarations, once for every class
that the tree holds; the methods are lowered from the tree.  A method that
returns nothing and does not end in a return gets one.
-/
import JavaMinus.ThreeAddress.Statement
import JavaMinus.ThreeAddress.Text

namespace JavaMinus.ThreeAddress

variable (d : Declarations)

/-- A variable as the head of a method or a field writes it. -/
def tagged (v : Variable) : String × Tag := (v.name, Tag.ofTy v.ty)

/-- The statements of a method. -/
def statements (method : Tree) : List Tree :=
  method.children.filter (·.kind.isStatement)

/-- The return that is added behind the given statements. -/
def addedReturn (result : Ty) (body : List Tree) : List Line :=
  if result == .void && !(body.getLast?.any (·.kind == .returnStmt)) then [.ret .void none]
  else []

/-- A method.  Its result type is that of the first method of its name. -/
def lowerMethod (t : Tree) : Lowering Method := do
  let result := (d.returnType? t.name).getD .void
  let body := statements t
  let lines ← lowerBlock d (t.get? "name") result body
  let read (p : Tree) := p.declaredVariable.toOption
  pure
    { isPublic := t.flag "isPublic"
      isStatic := t.flag "isStatic"
      name := t.name
      parameters := ((t.childrenOf .parameter).filterMap read).map tagged
      result := Tag.ofTy result
      body := lines ++ addedReturn result body }

def lowerClass (t : Tree) : Lowering ClassCode := do
  let methods ← (t.childrenOf .methodDecl).mapM (lowerMethod d)
  pure ⟨d.className, d.superName, d.fields.map tagged, methods⟩

/-- Every class of a program; the numbers of temporaries and labels run on
from class to class. -/
def lowerProgram (root : Tree) : Lowering Program := do
  let classes ← (root.childrenOf .classDecl).mapM (lowerClass d)
  pure ⟨d.imports, classes⟩

/-- The three-address code of a program, with its numbers from zero. -/
def Program.ofTree (root : Tree) : Except Fault Program :=
  (lowerProgram d root).run' ⟨0, 0⟩

end JavaMinus.ThreeAddress
