/-
JavaMinus/Tree/Form.lean

The forms of the language.

A form says what the parser writes for one construct: which kind of node,
under which attributes, over which children in which order.  The type of the
children is a parameter, so that the same description serves for numbers of
nodes, when a forest grows, and for whole trees.

A draft is a forest together with the place that the next node gets.
-/
import JavaMinus.Tree.Forest

namespace JavaMinus

/-- One construct of the language over children of some type. -/
inductive Form (α : Type) where
  | program (declarations : List α)
  | importDecl (path : String)
  | classDecl (name : String) (superName : Option String) (members : List α)
  | typeName (name : String) (isArray isVarargs : Bool)
  | variableDecl (name : String) (type : α)
  | parameter (name : String) (type : α)
  | methodDecl (name : String) (returnType : α) (isStatic : Bool) (body : List α)
  | assignment (name : String) (value : α)
  | elementAssignment (name : String) (index value : α)
  | expressionStmt (expression : α)
  | returnStmt (value : Option α)
  | conditional (condition thenBranch elseBranch : α)
  | loop (condition body : α)
  | block (statements : List α)
  | integer (value : Int)
  | boolean (value : Bool)
  | identifier (name : String)
  | self
  | arithmetic (operator : String) (left right : α)
  | logical (operator : String) (left right : α)
  | call (name : String) (receiver : α) (arguments : List α)
  | elementRead (array index : α)
  | arrayLiteral (elements : List α)
  | newObject (className : String)
  | newArray (size : α)
  | length (array : α)

namespace Form

variable {α : Type}

def kind : Form α → Kind
  | program .. => .program
  | importDecl .. => .importDecl
  | classDecl .. => .classDecl
  | typeName .. => .typeName
  | variableDecl .. => .variableDecl
  | parameter .. => .parameter
  | methodDecl .. => .methodDecl
  | assignment .. => .assignment
  | elementAssignment .. => .elementAssignment
  | expressionStmt .. => .expressionStmt
  | returnStmt .. => .returnStmt
  | conditional .. => .conditional
  | loop .. => .loop
  | block .. => .block
  | integer .. => .integer
  | boolean .. => .boolean
  | identifier .. => .identifier
  | self => .self
  | arithmetic .. => .arithmetic
  | logical .. => .logical
  | call .. => .call
  | elementRead .. => .elementRead
  | arrayLiteral .. => .arrayLiteral
  | newObject .. => .newObject
  | newArray .. => .newArray
  | length .. => .length

/-- How an attribute writes a truth value. -/
def truth (b : Bool) : String := if b then "true" else "false"

/-- The attributes of a form.  Methods are always public. -/
def attributes : Form α → Attributes
  | importDecl path => .ofList [("value", path)]
  | classDecl name superName _ =>
    .ofList (("name", name) :: (superName.map (("superName", ·))).toList)
  | typeName name isArray isVarargs =>
    .ofList [("value", name), ("isArray", truth isArray), ("isVarargs", truth isVarargs)]
  | methodDecl name _ isStatic _ =>
    .ofList [("name", name), ("isPublic", truth true), ("isStatic", truth isStatic)]
  | variableDecl name _ | parameter name _ | assignment name _ | elementAssignment name _ _
  | identifier name | call name _ _ | newObject name => .ofList [("name", name)]
  | integer value => .ofList [("value", toString value)]
  | boolean value => .ofList [("value", truth value)]
  | arithmetic operator _ _ | logical operator _ _ => .ofList [("op", operator)]
  | program _ | expressionStmt _ | returnStmt _ | conditional _ _ _ | loop _ _ | block _
  | self | elementRead _ _ | arrayLiteral _ | newArray _ | length _ => .empty

/-- The children of a form from left to right. -/
def children : Form α → List α
  | program declarations => declarations
  | classDecl _ _ members => members
  | variableDecl _ type | parameter _ type => [type]
  | methodDecl _ returnType _ body => returnType :: body
  | assignment _ value => [value]
  | elementAssignment _ index value => [index, value]
  | expressionStmt expression => [expression]
  | returnStmt value => value.toList
  | conditional condition thenBranch elseBranch => [condition, thenBranch, elseBranch]
  | loop condition body => [condition, body]
  | block statements => statements
  | arithmetic _ left right | logical _ left right => [left, right]
  | call _ receiver arguments => receiver :: arguments
  | elementRead array index => [array, index]
  | arrayLiteral elements => elements
  | newArray size => [size]
  | length array => [array]
  | importDecl _ | typeName _ _ _ | integer _ | boolean _ | identifier _ | self
  | newObject _ => []

end Form

/-- A forest in the making, and the place that the next node gets. -/
structure Draft where
  forest : Forest
  position : Position
  deriving Inhabited

namespace Draft

def empty : Draft := ⟨.empty, .unknown⟩

/-- Let the nodes made from now on stand at another place. -/
def moveTo (d : Draft) (position : Position) : Draft := { d with position }

/-- Make a node at the current place.  Its number is the size that the forest
had before. -/
def add (d : Draft) (kind : Kind) (attributes : Attributes) (children : List Nat) :
    Except Misuse Draft := do
  let forest ← d.forest.add kind attributes d.position children
  pure { d with forest }

/-- Make the node of a form at the current place. -/
def addForm (d : Draft) (form : Form Nat) : Except Misuse Draft :=
  d.add form.kind form.attributes form.children

end Draft

end JavaMinus
