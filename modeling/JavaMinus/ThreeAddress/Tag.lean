/-
JavaMinus/ThreeAddress/Tag.lean

The types of three-address code.

Every operand, operation and result of three-address code is marked with the
type that it has there.  The marks are written behind a dot, so a mark of an
array carries the one of its elements: `.i32`, `.array.bool`, `.array.Console`.
-/
import JavaMinus.Ty

namespace JavaMinus.ThreeAddress

/-- A type of three-address code. -/
inductive Tag where
  | i32
  | bool
  | void
  /-- Objects of a class. -/
  | object (className : String)
  | array (element : Tag)
  deriving DecidableEq, Inhabited, Repr

namespace Tag

/-- How a tag is written, with its leading dot. -/
def text : Tag → String
  | i32 => ".i32"
  | bool => ".bool"
  | void => ".V"
  | object className => "." ++ className
  | array element => ".array" ++ element.text

instance : ToString Tag := ⟨text⟩

/-- The tag of a type that is just a name. -/
def ofName (name : String) : Tag :=
  if name == "int" then i32
  else if name == "boolean" then bool
  else if name == "void" then void
  else object name

/-- The tag of a source type.  An open tail of arguments is an array. -/
def ofTy : Ty → Tag
  | .scalar name => ofName name
  | .array name | .varargs name => array (ofName name)

@[simp] theorem ofTy_int : ofTy .int = i32 := by decide

@[simp] theorem ofTy_boolean : ofTy .boolean = bool := by decide

@[simp] theorem ofTy_void : ofTy .void = void := by decide

@[simp] theorem ofTy_intArray : ofTy .intArray = array i32 := by decide

end Tag

end JavaMinus.ThreeAddress
