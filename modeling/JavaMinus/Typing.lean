/-
JavaMinus/Typing.lean

What names denote and what types expressions have.

A name is looked for among the locals of the method around it, its
parameters, the fields, the imports, and last it may be the class itself or
the class it extends.  A name that denotes nothing has type `int`, so that
one unknown name does not bring every check around it to silence.

The type of an expression has three outcomes: a type; no type, for a call of
a method that the class does not declare, about which nothing is known and
anything is assumed; or a fault, if the node is no expression or carries an
operator that it cannot have.  Only the leftmost part of an expression is
looked at, since it alone decides the type (`typeOf`).
-/
import JavaMinus.Declarations
import JavaMinus.Operator
import JavaMinus.Tree.Place

namespace JavaMinus

/-- Where a name was found. -/
inductive Origin where
  | local
  | parameter
  | field
  | importedClass
  | ownClass
  | superClass
  deriving DecidableEq, Inhabited, Repr

namespace Origin

/-- Whether the name is that of a variable rather than of a class. -/
def isVariable : Origin → Bool
  | «local» | parameter | field => true
  | importedClass | ownClass | superClass => false

end Origin

/-- What a name denotes. -/
structure Binding where
  origin : Origin
  ty : Ty
  deriving DecidableEq, Inhabited, Repr

namespace Declarations

variable (d : Declarations)

/-! ### Names -/

/-- The local or parameter of a method that a name denotes. -/
def methodVariable? (method name : String) : Option Binding :=
  ((Variable.find? (d.locals method) name).map (⟨.local, ·.ty⟩)).or
    ((Variable.find? (d.parameters method) name).map (⟨.parameter, ·.ty⟩))

/-- The variable that a name denotes inside a method, or outside of all
methods. -/
def variableOf? (scope : Option String) (name : String) : Option Binding :=
  (scope.bind (d.methodVariable? · name)).or
    ((d.field? name).map (⟨.field, ·.ty⟩))

/-- The class that a name denotes where it denotes no variable. -/
def class? (name : String) : Option Binding :=
  if d.isImported name then some ⟨.importedClass, .scalar name⟩
  else if name == d.className then some ⟨.ownClass, .scalar name⟩
  else if d.superName == some name then some ⟨.superClass, .scalar name⟩
  else none

/-- What a name denotes inside a method, or outside of all methods. -/
def binding? (scope : Option String) (name : String) : Option Binding :=
  (d.variableOf? scope name).or (d.class? name)

/-- What the name on an identifier denotes. -/
def identifier? (scope : Option String) (t : Tree) : Option Binding :=
  (t.get? "name").bind (d.binding? scope)

/-- Whether code in the given method has no object to work on. -/
def isStaticScope (scope : Option String) : Bool := scope.any d.isStatic

/-! ### Expressions -/

/-- Whether a type is that of the objects of the class itself. -/
def isOwnType (ty : Option Ty) : Bool := ty == some (.scalar d.className)

/-- The type of an expression that stands in a method, or outside of all
methods; `none` where any type is assumed. -/
def typeOf (scope : Option String) : Tree → Except Fault (Option Ty)
  | .node h cs =>
    match h.kind with
    | .integer => .ok (some .int)
    | .boolean => .ok (some .boolean)
    | .identifier =>
      .ok (some (((d.identifier? scope (.node h cs)).map (·.ty)).getD .int))
    | .self => .ok (some (.scalar d.className))
    | .arithmetic => (ArithmeticOperator.ofTree (.node h cs)).map fun _ => some .int
    | .logical => (LogicalOperator.ofTree (.node h cs)).map fun _ => some .boolean
    | .call =>
      let name := (Tree.node h cs).name
      if d.hasMethod name then
        match cs with
        -- a call on nothing is one of the class's own
        | [] => .ok (d.returnType? name)
        | receiver :: _ =>
          (typeOf scope receiver).map fun ty =>
            if d.isOwnType ty then d.returnType? name else none
      else .ok none
    | .elementRead =>
      match cs with
      | [] => .ok (some .int)
      | array :: _ => (typeOf scope array).map (·.map fun ty => ty.element?.getD .int)
    | .arrayLiteral =>
      match cs with
      | [] => .ok (some .intArray)
      | first :: _ =>
        (typeOf scope first).map fun ty => some ((ty.map (.array ·.name)).getD .intArray)
    | .newObject => .ok (some (.scalar (Tree.node h cs).name))
    | .newArray => .ok (some .intArray)
    | .length => .ok (some .int)
    | kind => .error (.notAnExpression kind.text h.position)

/-- Whether a call is one of the class's own methods as far as its receiver
tells; a call without a receiver is. -/
def targetsOwnClass (scope : Option String) (call : Tree) : Except Fault Bool :=
  match call.children with
  | [] => .ok true
  | receiver :: _ => (d.typeOf scope receiver).map d.isOwnType

/-- What a call is declared to return, if the class declares the method and
the receiver is an object of the class. -/
def callType (scope : Option String) (call : Tree) : Except Fault (Option Ty) :=
  if d.hasMethod call.name then
    (d.targetsOwnClass scope call).map fun own =>
      if own then d.returnType? call.name else none
  else .ok none

/-- The type of a call is what it is declared to return. -/
theorem typeOf_call (scope : Option String) (t : Tree) (h : t.kind = .call) :
    d.typeOf scope t = d.callType scope t := by
  obtain ⟨head, cs⟩ := t
  have hk : head.kind = .call := h
  rw [typeOf.eq_def]
  simp only [hk, callType, targetsOwnClass, Tree.children]
  split
  · cases cs with
    | nil => rfl
    | cons receiver rest => cases h : d.typeOf scope receiver <;> simp [h, Except.map]
  · rfl

end Declarations

/-- The type of the expression at a place. -/
def Place.type (d : Declarations) (p : Place) : Except Fault (Option Ty) :=
  d.typeOf p.method? p.tree

end JavaMinus
