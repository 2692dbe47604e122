/-
JavaMinus/Check/Declared.lean

Rules for what is declared.

No scope declares a name twice, and an open tail of arguments is declared
only as the last parameter of a method.  The method that is itself called
`varargs` has parameters of one element type.

None of these checks can end in a fault: a declaration that cannot be read is
passed over.
-/
import JavaMinus.Check.Inspection
import JavaMinus.Declarations

namespace JavaMinus.Place

/-- The children of one kind, from left to right. -/
def childrenOf (p : Place) (kind : Kind) : List Place :=
  p.children.filter (·.tree.kind == kind)

/-! ### Names declared twice -/

/-- Of the entries none has a key that was seen before it.  Entries without a
key are passed over. -/
def inspectNames (scope : DeclarationScope) (key : String) :
    List String → List Place → Inspection Unit
  | _, [] => pure ()
  | seen, p :: rest =>
    match p.tree.get? key with
    | none => inspectNames scope key seen rest
    | some name => do
      if seen.contains name then
        .report p (.duplicate scope name)
        inspectNames scope key seen rest
      else inspectNames scope key (name :: seen) rest

/-- No name is declared twice in a scope. -/
def inspectScope (scope : DeclarationScope) (key : String) (declarations : List Place) :
    Inspection Unit :=
  inspectNames scope key [] declarations

/-! ### Open tails -/

/-- The declaration at a place has no type of open tail. -/
def inspectOpenTail (problem : String → Problem) (p : Place) : Inspection Unit :=
  match p.tree.declaredVariable with
  | .error _ => pure ()
  | .ok v => .reportIf v.ty.isVarargs p (problem v.name)

/-- No declaration has a type of open tail. -/
def inspectOpenTails (problem : String → Problem) (declarations : List Place) :
    Inspection Unit :=
  declarations.forM (inspectOpenTail problem)

/-- The return type, which stands first in a method, is no open tail. -/
def inspectOpenReturn (method : Place) : Inspection Unit :=
  match method.child? 0 with
  | none => pure ()
  | some p =>
    match p.tree.kind, p.tree.denotedType with
    | .typeName, .ok ty => .reportIf ty.isVarargs p (.varargsReturn method.tree.name)
    | _, _ => pure ()

/-- In the method called `varargs`, every parameter has the element type of the
first one. -/
def inspectLikeness (method : Place) : Inspection Unit :=
  if method.tree.get? "name" == some "varargs" then
    let read (p : Place) := p.tree.declaredVariable.toOption
    match (method.childrenOf .parameter).filterMap read with
    | [] => pure ()
    | first :: rest => rest.forM fun v =>
      .reportIf (v.ty.name != first.ty.name) method
        (.different (.scalar first.ty.name) (.scalar v.ty.name))
  else pure ()

/-! ### The three declaring nodes -/

def inspectProgram (p : Place) : Inspection Unit :=
  inspectScope .imports "value" (p.childrenOf .importDecl)

def inspectClass (p : Place) : Inspection Unit := do
  inspectScope .fields "name" (p.childrenOf .variableDecl)
  inspectScope .methods "name" (p.childrenOf .methodDecl)
  inspectOpenTails .varargsVariable (p.childrenOf .variableDecl)

/-- Only the last parameter may have an open tail. -/
def inspectMethod (p : Place) : Inspection Unit := do
  inspectScope .parameters "name" (p.childrenOf .parameter)
  inspectScope .locals "name" (p.childrenOf .variableDecl)
  p.inspectOpenReturn
  inspectOpenTails .varargsNotLast (p.childrenOf .parameter).dropLast
  inspectOpenTails .varargsVariable (p.childrenOf .variableDecl)
  p.inspectLikeness

end JavaMinus.Place
