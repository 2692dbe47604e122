/-
JavaMinus/Ty.lean

The types of the source language and the variables that bear them.

A type is a name in one of three shapes: the named type itself, an array of
it, or the open tail of a parameter list.  Two questions are asked of a pair
of types and must not be confused: `sameShape` wants equal names and agrees
on being an array, while `sameName` looks at the names alone.
-/

namespace JavaMinus

/-- A source type. -/
inductive Ty where
  /-- The named type itself. -/
  | scalar (name : String)
  /-- An array whose elements have the named type. -/
  | array (name : String)
  /-- The open tail of a parameter list, which holds any number of values of
  the named type. -/
  | varargs (name : String)
  deriving DecidableEq, Inhabited, Repr

namespace Ty

def int : Ty := .scalar "int"

def boolean : Ty := .scalar "boolean"

def void : Ty := .scalar "void"

def intArray : Ty := .array "int"

/-- The only open tail that the language can write. -/
def intVarargs : Ty := .varargs "int"

/-- The type that a type expression denotes.  An open tail always holds
`int`, whatever name stands in front of the dots, and being one outweighs
being marked as an array. -/
def denoted (name : String) (isArray isVarargs : Bool) : Ty :=
  if isVarargs then intVarargs
  else if isArray then .array name
  else .scalar name

/-- The name in the type, whatever its shape. -/
def name : Ty → String
  | .scalar n | .array n | .varargs n => n

/-- Arrays and open tails are both used as arrays. -/
def isArray : Ty → Bool
  | .scalar _ => false
  | .array _ | .varargs _ => true

def isVarargs : Ty → Bool
  | .varargs _ => true
  | .scalar _ | .array _ => false

/-- The type of the elements, if the type has any. -/
def element? : Ty → Option Ty
  | .scalar _ => none
  | .array n | .varargs n => some (.scalar n)

/-- Whether the name is one that the language itself defines.  The shape
does not matter. -/
def isBuiltIn (t : Ty) : Bool :=
  ["int", "boolean", "String", "void"].contains t.name

/-- Equal names, and both used as arrays or neither. -/
def sameShape (s t : Ty) : Bool :=
  s.name == t.name && s.isArray == t.isArray

/-- Equal names, in whatever shapes. -/
def sameName (s t : Ty) : Bool := s.name == t.name

/-- A type is written as in the source: `int`, `int[]`, `int...`. -/
def text : Ty → String
  | .scalar n => n
  | .array n => n ++ "[]"
  | .varargs n => n ++ "..."

instance : ToString Ty := ⟨text⟩

@[simp] theorem isArray_eq_false_iff {t : Ty} : t.isArray = false ↔ t = .scalar t.name := by
  cases t <;> simp [isArray, name]

theorem sameShape_comm (s t : Ty) : s.sameShape t = t.sameShape s := by
  simp only [sameShape, Bool.beq_comm (a := s.isArray), BEq.comm (a := s.name)]

end Ty

/-- A declared name with its type: a field, a parameter or a local. -/
structure Variable where
  name : String
  ty : Ty
  deriving DecidableEq, Inhabited, Repr

namespace Variable

/-- A variable is written with its type in front. -/
instance : ToString Variable := ⟨fun v => s!"{v.ty} {v.name}"⟩

/-- The variable that a name stands for in a list of declarations: the first
one of that name. -/
def find? (among : List Variable) (name : String) : Option Variable :=
  among.find? (·.name == name)

end Variable

end JavaMinus
