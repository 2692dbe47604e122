/-
JavaMinus/Declarations.lean

What a program declares: its imports, its one class, and the fields and
methods of that class.

The declarations are read once from the tree and never change.  Everything
declared is kept in the order in which it stands, repetitions included; a
name stands for the first declaration of that name.
-/
import JavaMinus.Fault
import JavaMinus.QualifiedName
import JavaMinus.Tree.Basic
import JavaMinus.Ty

namespace JavaMinus

/-- What is known of a declared method from its head and its locals. -/
structure Signature where
  name : String
  returnType : Ty
  parameters : List Variable
  locals : List Variable
  isStatic : Bool
  deriving DecidableEq, Inhabited, Repr

namespace Parameters

/-- The last parameter, if it takes an open tail of arguments. -/
def openTail? (parameters : List Variable) : Option Variable :=
  parameters.getLast?.filter (·.ty.isVarargs)

/-- The parameters that take one argument each. -/
def fixed (parameters : List Variable) : List Variable :=
  if (openTail? parameters).isSome then parameters.dropLast else parameters

end Parameters

/-- What a program declares. -/
structure Declarations where
  className : String
  superName : Option String
  imports : List String
  fields : List Variable
  methods : List Signature
  deriving DecidableEq, Inhabited, Repr

/-! ### Reading declarations from a tree -/

namespace Tree

/-- The text of an attribute that the node must have. -/
def require (t : Tree) (key : String) : Except MalformedTree String :=
  match t.get? key with
  | some value => .ok value
  | none => .error (.missingAttribute t.kind.text key t.position)

/-- The type that a type expression denotes. -/
def denotedType (t : Tree) : Except MalformedTree Ty := do
  let name ← t.require "value"
  pure (Ty.denoted name (t.flag "isArray") (t.flag "isVarargs"))

/-- The variable that a field, parameter or local declares: its type is the
first type expression below it. -/
def declaredVariable (t : Tree) : Except MalformedTree Variable := do
  match t.firstChildOf? .typeName with
  | none => .error (.missingAttribute t.kind.text "type" t.position)
  | some type =>
    let ty ← type.denotedType
    let name ← t.require "name"
    pure ⟨name, ty⟩

/-- The return type of a method; without a type expression it is `void`. -/
def declaredReturnType (t : Tree) : Except MalformedTree Ty :=
  match t.firstChildOf? .typeName with
  | none => .ok .void
  | some type => type.denotedType

/-- What a method declares.  Locals are declared directly below the method. -/
def signature (t : Tree) : Except MalformedTree Signature := do
  let name ← t.require "name"
  let returnType ← t.declaredReturnType
  let parameters ← (t.childrenOf .parameter).mapM declaredVariable
  let locals ← (t.childrenOf .variableDecl).mapM declaredVariable
  pure ⟨name, returnType, parameters, locals, t.flag "isStatic"⟩

end Tree

namespace Declarations

/-- What the program of a tree declares.  Its class is the last child of the
root; the imports are those children of the root that import. -/
def ofTree (root : Tree) : Except MalformedTree Declarations := do
  match root.children.getLast? with
  | none => .error .emptyProgram
  | some cls =>
    if cls.kind ≠ .classDecl then .error (.missingClass cls.kind.text)
    else
      -- of several missing attributes the first in this order is reported
      let imports ← (root.childrenOf .importDecl).mapM (·.require "value")
      let fields ← (cls.childrenOf .variableDecl).mapM (·.declaredVariable)
      let methods ← (cls.childrenOf .methodDecl).mapM (·.signature)
      let className ← cls.require "name"
      pure ⟨className, cls.get? "superName", imports, fields, methods⟩

/-! ### What a name stands for -/

/-- The first method of a name. -/
def method? (d : Declarations) (name : String) : Option Signature :=
  d.methods.find? (·.name == name)

def hasMethod (d : Declarations) (name : String) : Bool := (d.method? name).isSome

def field? (d : Declarations) (name : String) : Option Variable :=
  Variable.find? d.fields name

def returnType? (d : Declarations) (method : String) : Option Ty :=
  (d.method? method).map (·.returnType)

/-- The parameters of a method; a method that is not declared has none. -/
def parameters (d : Declarations) (method : String) : List Variable :=
  ((d.method? method).map (·.parameters)).getD []

/-- The locals of a method; a method that is not declared has none. -/
def locals (d : Declarations) (method : String) : List Variable :=
  ((d.method? method).map (·.locals)).getD []

def isStatic (d : Declarations) (method : String) : Bool :=
  (d.method? method).any (·.isStatic)

/-- The first import that a name refers to, by the whole of it or by its last
segment. -/
def importPath? (d : Declarations) (name : String) : Option String :=
  d.imports.find? fun path => path == name || QualifiedName.simpleName path == name

def isImported (d : Declarations) (name : String) : Bool := (d.importPath? name).isSome

/-- Whether a name is that of the class or of the class it extends. -/
def isOwnOrSuper (d : Declarations) (name : String) : Bool :=
  name == d.className || d.superName == some name

end Declarations

end JavaMinus
