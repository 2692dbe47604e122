/-
JavaMinus/Assembly/Depth.lean

How deep the operand stack is, and how deep it was.

Depths are counted in sixteen bits.  Counting stops at the largest one and at
zero.
-/

namespace JavaMinus.Assembly

/-- The depth of the operand stack, and the greatest depth so far. -/
structure Depth where
  current : Nat
  deepest : Nat
  deriving DecidableEq, Inhabited, Repr

namespace Depth

/-- The largest depth that can be counted. -/
def limit : Nat := 65535

/-- The empty stack. -/
def empty : Depth := ⟨0, 0⟩

/-- Values are pushed. -/
def grow (s : Depth) (n : Nat) : Depth :=
  let current := min (s.current + n) limit
  ⟨current, max s.deepest current⟩

/-- Values are popped. -/
def shrink (s : Depth) (n : Nat) : Depth := { s with current := s.current - n }

end Depth

end JavaMinus.Assembly
