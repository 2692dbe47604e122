/-
JavaMinus/Check/Indexed.lean

Rules for arrays.

Only arrays are indexed and measured, an index is a number, the elements of
an array literal agree in type, and an element takes only what its array is
declared to hold.  A loop uses no array that is declared right beside it.
-/
import JavaMinus.Check.Valued

namespace JavaMinus

/-- A short text for an expression in a message. -/
def Tree.describe (t : Tree) : String :=
  match t.kind with
  | .identifier | .newObject => t.name
  | .integer | .boolean => (t.get? "value").getD ""
  | .self => "this"
  | kind => kind.text

namespace Place

variable (d : Declarations)

/-- Report unless the type of a place, where it is known, is that of an
array. -/
def demandArray (problem : String → Problem) (array site : Place) : Inspection Unit := do
  match ← .ofExcept (array.type d) with
  | none => pure ()
  | some ty => .reportIf (!ty.isArray) site (problem array.tree.describe)

def inspectIndex (index site : Place) : Inspection Unit :=
  demandType d .int .indexType index site

def inspectElementRead (p : Place) : Inspection Unit := do
  match p.child? 0, p.child? 1 with
  | some array, some index =>
    demandArray d .notAnArray array p
    inspectIndex d index p
  | _, _ => pure ()

def inspectLength (p : Place) : Inspection Unit :=
  match p.child? 0 with
  | none => pure ()
  | some array => demandArray d .lengthOfNonArray array p

/-- The index and the value of an assignment to an element. -/
def inspectAssignedElement (p : Place) : Inspection Unit := do
  match p.target? d with
  | none => pure ()
  | some target =>
    match target.ty.element? with
    | none => .report p (.notAnArray p.tree.name)
    | some element =>
      match p.child? 0 with
      | none => pure ()
      | some index => inspectIndex d index p
      match p.child? 1 with
      | none => pure ()
      | some value => demandCompatible d element value p

def inspectElementAssignment (p : Place) : Inspection Unit := do
  p.inspectTarget d
  p.inspectAssignedElement d

/-! ### Array literals -/

/-- Each element of known type has the type of the first one. -/
def inspectElements (p : Place) : List Ty → Inspection Unit
  | [] => pure ()
  | first :: rest => rest.forM fun ty => .reportIf (ty != first) p (.different first ty)

/-- What is wrong with an array literal for the variable that it is assigned
to, given the type of its first element of known type. -/
def literalProblem? (target : String) (destination : Ty) (first : Option Ty) :
    Option Problem :=
  if !destination.isArray then some (.literalForNonArray target)
  else
    match first with
    | none => none
    | some ty =>
      if ty.name != destination.name then some (.incompatible (.array ty.name) destination)
      else none

/-- An array literal right below an assignment fits the variable that it is
assigned to. -/
def inspectAssignedLiteral (p : Place) (first : Option Ty) : Inspection Unit :=
  match p.parent? with
  | none => pure ()
  | some statement =>
    if statement.tree.kind == .assignment then
      match statement.target? d with
      | none => pure ()
      | some target =>
        match literalProblem? statement.tree.name target.ty first with
        | none => pure ()
        | some problem => .report p problem
    else pure ()

/-- The elements of an array literal agree, and the literal fits the variable
that it is assigned to.  All elements are typed before anything is reported. -/
def inspectArrayLiteral (p : Place) : Inspection Unit := do
  let types ← p.children.mapM fun element => .ofExcept (element.type d)
  -- elements of no known type agree with everything
  let known := types.filterMap id
  p.inspectElements known
  p.inspectAssignedLiteral d known.head?

/-! ### Loops beside arrays -/

/-- The names on the identifiers inside a place. -/
def usedNames (p : Place) : List String :=
  (p.tree.descendants.filter (·.kind == .identifier)).filterMap (·.get? "name")

/-- A declaration beside a loop is not that of an array whose name stands in the
loop. -/
def inspectBeside (p : Place) (declaration : Tree) : Inspection Unit :=
  match declaration.declaredVariable with
  | .error _ => pure ()
  | .ok v => .reportIf (v.ty.isArray && p.usedNames.contains v.name) p (.loopWithArray v.name)

/-- No array is declared beside a loop whose name stands in the loop. -/
def inspectArraysBeside (p : Place) : Inspection Unit :=
  match p.parent? with
  | none => pure ()
  | some scope => (scope.tree.childrenOf .variableDecl).forM p.inspectBeside

def inspectLoop (p : Place) : Inspection Unit := do
  p.inspectCondition d
  p.inspectArraysBeside

end Place

end JavaMinus
