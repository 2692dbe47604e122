/-
JavaMinus/Tree/Attributes.lean

The named texts that a node carries beside its children.
-/
import JavaMinus.Listing

namespace JavaMinus

/-- Named texts. -/
abbrev Attributes := Listing String

/-- A flag is set by the text `true`; any other text leaves it unset. -/
def Attributes.flag (a : Attributes) (key : String) : Bool := a.get? key == some "true"

end JavaMinus
