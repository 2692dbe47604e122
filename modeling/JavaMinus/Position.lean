/-
JavaMinus/Position.lean

Places in the source text.  Every node of a program tree carries one, and
every finding and fault that concerns a node is reported at it.
-/

namespace JavaMinus

/-- A line and a column of the source text, both counted from one.  Zero in
both says that the place is not known. -/
structure Position where
  line : Nat
  column : Nat
  deriving DecidableEq, Inhabited, Repr

namespace Position

/-- The place of a node that was made before any place was named. -/
def unknown : Position := ⟨0, 0⟩

/-- Whether no place is known. -/
def isUnknown (p : Position) : Bool := p == unknown

/-- Places are ordered as they are read: by line, and by column within a
line. -/
def le (p q : Position) : Bool :=
  p.line < q.line || (p.line == q.line && p.column ≤ q.column)

/-- A place is written as its line and its column with a colon between. -/
instance : ToString Position := ⟨fun p => s!"{p.line}:{p.column}"⟩

end Position

end JavaMinus
