/-
JavaMinus/QualifiedName.lean

Names of classes with the packages they lie in, as in `java.io.Console`.

The segments of such a name are divided by dots.  A class may be referred to
by its whole name or by its last segment, and the machine divides the
segments by slashes instead.
-/

namespace JavaMinus.QualifiedName

/-- What stands behind the last dot of a text, or the whole text if it has no
dot. -/
def lastSegment (cs : List Char) : List Char :=
  (cs.reverse.takeWhile (· ≠ '.')).reverse

/-- The last segment of a qualified name. -/
def simpleName (s : String) : String := String.ofList (lastSegment s.toList)

/-- What stands before the first dot of a text, or the whole text if it has
no dot. -/
def firstSegment (s : String) : String := String.ofList (s.toList.takeWhile (· ≠ '.'))

/-- Whether a qualified name is the given name, or ends in it right behind a
dot. -/
def endsIn (qualified name : String) : Bool :=
  ('.' :: name.toList).isSuffixOf qualified.toList || qualified == name

/-- A qualified name as the machine writes it, with slashes for dots. -/
def slashed (s : String) : String :=
  String.ofList (s.toList.map fun c => if c = '.' then '/' else c)

end JavaMinus.QualifiedName
