/-
JavaMinus/Tree/Kind.lean

What a node of a program tree stands for.

Three groups of kinds matter to the rest of the library: expressions have a
type and are lowered to an operand, statements are lowered to instructions,
and the remaining kinds declare or group things.  No kind is in two of the
groups (`not_isExpression_of_isStatement`).
-/

namespace JavaMinus

/-- What a node of a program tree stands for. -/
inductive Kind where
  | program
  | importDecl
  | classDecl
  | variableDecl
  | typeName
  | methodDecl
  | parameter
  | assignment
  | elementAssignment
  | expressionStmt
  | returnStmt
  | conditional
  | loop
  | block
  | integer
  | boolean
  | identifier
  | self
  | arithmetic
  | logical
  | call
  | elementRead
  | arrayLiteral
  | newObject
  | newArray
  | length
  deriving DecidableEq, Inhabited, Repr

namespace Kind

/-- Every kind, in the order in which the language introduces them. -/
def all : List Kind :=
  [program, importDecl, classDecl, variableDecl, typeName, methodDecl, parameter,
   assignment, elementAssignment, expressionStmt, returnStmt, conditional, loop, block,
   integer, boolean, identifier, self, arithmetic, logical, call, elementRead,
   arrayLiteral, newObject, newArray, length]

/-- The name of a kind, as outlines and messages write it. -/
def text : Kind → String
  | program => "Program"
  | importDecl => "ImportDecl"
  | classDecl => "ClassDecl"
  | variableDecl => "VarDecl"
  | typeName => "Type"
  | methodDecl => "MethodDecl"
  | parameter => "Param"
  | assignment => "AssignStmt"
  | elementAssignment => "ArrayAssignStmt"
  | expressionStmt => "ExprStmt"
  | returnStmt => "ReturnStmt"
  | conditional => "IfElseStmt"
  | loop => "WhileStmt"
  | block => "BlockStmt"
  | integer => "IntegerLiteral"
  | boolean => "BooleanLiteral"
  | identifier => "Identifier"
  | self => "This"
  | arithmetic => "BinaryExpr"
  | logical => "BinaryBoolExpr"
  | call => "MethodCall"
  | elementRead => "ArrayAccess"
  | arrayLiteral => "ArrayLiteral"
  | newObject => "NewObject"
  | newArray => "NewArray"
  | length => "ArrayLength"

instance : ToString Kind := ⟨text⟩

/-- The kind of a given name. -/
def ofText? (s : String) : Option Kind := all.find? (·.text == s)

/-- Whether nodes of this kind have a type and can stand as an operand. -/
def isExpression : Kind → Bool
  | integer | boolean | identifier | self | arithmetic | logical | call | elementRead
  | arrayLiteral | newObject | newArray | length => true
  | _ => false

/-- Whether nodes of this kind can stand in the body of a method. -/
def isStatement : Kind → Bool
  | assignment | elementAssignment | expressionStmt | returnStmt | conditional | loop
  | block => true
  | _ => false

/-- Whether nodes of this kind write down a value. -/
def isLiteral : Kind → Bool
  | integer | boolean => true
  | _ => false

theorem mem_all (k : Kind) : k ∈ all := by
  cases k <;> decide

theorem not_isExpression_of_isStatement {k : Kind} (h : k.isStatement) :
    ¬ k.isExpression := by
  cases k <;> simp_all [isStatement, isExpression]

end Kind

end JavaMinus
