/-
JavaMinus/Assembly/Constant.lean

Pushing a number.

The machine has four ways to push a constant, each for a wider range than the
one before and in a longer form.  `Constant.ofInt` takes the narrowest.
-/

namespace JavaMinus.Assembly

/-- An instruction that pushes a number. -/
inductive Constant where
  /-- One of the numbers from minus one to five, each with an instruction of
  its own. -/
  | short (value : Int32)
  /-- A number of eight bits. -/
  | byte (value : Int32)
  /-- A number of sixteen bits. -/
  | half (value : Int32)
  /-- Any number, from the constants of the class. -/
  | pooled (value : Int32)
  deriving DecidableEq, Inhabited, Repr

namespace Constant

/-- The narrowest instruction that pushes a number. -/
def ofInt (value : Int32) : Constant :=
  if -1 ≤ value ∧ value ≤ 5 then short value
  else if -128 ≤ value ∧ value ≤ 127 then byte value
  else if -32768 ≤ value ∧ value ≤ 32767 then half value
  else pooled value

/-- The number that is pushed. -/
def value : Constant → Int32
  | short v | byte v | half v | pooled v => v

def text : Constant → String
  | short v => if v = -1 then "iconst_m1" else s!"iconst_{v.toInt}"
  | byte v => s!"bipush {v.toInt}"
  | half v => s!"sipush {v.toInt}"
  | pooled v => s!"ldc {v.toInt}"

@[simp] theorem value_ofInt (v : Int32) : (ofInt v).value = v := by
  unfold ofInt
  repeat' split
  all_goals rfl

end Constant

end JavaMinus.Assembly
