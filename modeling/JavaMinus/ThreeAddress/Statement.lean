/-
JavaMinus/ThreeAddress/Statement.lean

Lowering statements to three-address code.

A branch jumps to its then-part and falls through to its else-part, so the
else-part is written first, although the then-part takes its numbers first.
A loop tests its condition at the head, once for every turn.

    if c goto if_then_n          while_cond_n:
    (else-part)                  if c goto while_body_n
    goto if_end_n                goto while_end_n
    if_then_n:                   while_body_n:
    (then-part)                  (body)
    if_end_n:                    goto while_cond_n
                                 while_end_n:
-/
import JavaMinus.ThreeAddress.Expression

namespace JavaMinus.ThreeAddress

/-! ### The layout of branches and loops -/

/-- The lines of a branch with a number. -/
def conditionalLines (n : Nat) (condition : Value) (thenLines elseLines : List Line) :
    List Line :=
  condition.code ++ [.branch condition.operand ⟨.thenBranch, n⟩] ++ elseLines ++
    [.jump ⟨.conditionalEnd, n⟩, .label ⟨.thenBranch, n⟩] ++ thenLines ++
    [.label ⟨.conditionalEnd, n⟩]

/-- The lines of a loop with a number. -/
def loopLines (n : Nat) (condition : Value) (body : List Line) : List Line :=
  [.label ⟨.loopCondition, n⟩] ++ condition.code ++
    [.branch condition.operand ⟨.loopBody, n⟩, .jump ⟨.loopEnd, n⟩, .label ⟨.loopBody, n⟩] ++
    body ++ [.jump ⟨.loopCondition, n⟩, .label ⟨.loopEnd, n⟩]

/-! ### Statements without statements in them -/

variable (d : Declarations) (scope : Option String)

/-- A child that the statement must have. -/
def childAt (t : Tree) (i : Nat) : Except Fault Tree :=
  match t.children[i]? with
  | some c => .ok c
  | none => .error (missingPart t i)

/-- The variable that a statement assigns to.  Here a method without a name
counts as having the empty one. -/
def assigned? (t : Tree) : Option Binding :=
  d.variableOf? (some (scope.getD "")) t.name

/-- An assignment.  A target that denotes nothing is taken for a variable of
type `int`. -/
def lowerAssignment (t : Tree) : Lowering (List Line) := do
  let target := assigned? d scope t
  let ty := (target.map (·.ty)).getD .int
  let tag := Tag.ofTy ty
  let value ← childAt t 0
  let x ← lower d scope value (some ty)
  if target.any (·.origin == .field) then
    pure (x.code ++ [.fieldWrite t.name tag x.operand])
  else
    pure (x.code ++ [.assign (.named t.name) tag (.operand x.operand)])

/-- The array that an assignment to an element writes to, behind the lines
that fetch it from a field. -/
def lowerAssignedArray (t : Tree) (target : Option Binding) : Lowering (List Line × Cell) := do
  match target with
  | some ⟨.field, ty⟩ =>
    let tag := Tag.ofTy ty
    let n ← freshTemporary
    pure ([.assign (.temporary n) tag (.fieldRead t.name tag)], .temporary n)
  | _ => pure ([], .named t.name)

/-- An assignment to an element: first the array, then the index, then the
value, then the store. -/
def lowerElementAssignment (t : Tree) : Lowering (List Line) := do
  let target := assigned? d scope t
  let arrayType := (target.map (·.ty)).getD .intArray
  let element := arrayType.element?.getD .int
  let (fetch, array) ← lowerAssignedArray t target
  let index ← childAt t 0
  let i ← lowerIndex ⟨index, lower d scope index⟩
  let value ← childAt t 1
  let x ← lower d scope value (some element)
  pure (fetch ++ i.code ++ x.code ++
    [.store array i.operand (Tag.ofTy element) x.operand])

/-- An expression for its effects.  Nothing is wanted of a call here, and its
result is dropped. -/
def lowerExpressionStmt (t : Tree) : Lowering (List Line) := do
  let expression ← childAt t 0
  if expression.kind == .call then
    let call ← lowerCall d scope expression (partsOf d scope expression.children) none
    pure (call.code ++ [.call call.invocation])
  else
    let x ← lower d scope expression none
    pure x.code

/-- A return from a method with the given result type. -/
def lowerReturn (result : Ty) (t : Tree) : Lowering (List Line) := do
  let tag := Tag.ofTy result
  match t.children with
  | [] => pure [.ret tag none]
  | value :: _ =>
    let x ← lower d scope value (some result)
    pure (x.code ++ [.ret tag (some x.operand)])

/-! ### All statements -/

mutual
/-- A statement of a method with the given result type. -/
def lowerStatement (result : Ty) : Tree → Lowering (List Line)
  | .node h cs => do
    match h.kind with
    | .assignment => lowerAssignment d scope (.node h cs)
    | .elementAssignment => lowerElementAssignment d scope (.node h cs)
    | .expressionStmt => lowerExpressionStmt d scope (.node h cs)
    | .returnStmt => lowerReturn d scope result (.node h cs)
    | .conditional =>
      let n ← freshLabel
      match cs with
      | [] => throw (missingPart (.node h cs) 0)
      | [condition] =>
        let _ ← lower d scope condition (some .boolean)
        throw (missingPart (.node h cs) 1)
      | condition :: thenPart :: rest =>
        let x ← lower d scope condition (some .boolean)
        -- the part that is written last takes its numbers first
        let thenLines ← lowerStatement result thenPart
        let elseLines ← lowerFirst result rest
        pure (conditionalLines n x thenLines elseLines)
    | .loop =>
      let n ← freshLabel
      match cs with
      | [] => throw (missingPart (.node h cs) 0)
      | [condition] =>
        let _ ← lower d scope condition (some .boolean)
        throw (missingPart (.node h cs) 1)
      | condition :: body :: _ =>
        let x ← lower d scope condition (some .boolean)
        let bodyLines ← lowerStatement result body
        pure (loopLines n x bodyLines)
    | .block => lowerBlock result cs
    | kind => throw (.notAStatement kind.text h.position)

/-- The first of some statements, if there is one. -/
def lowerFirst (result : Ty) : List Tree → Lowering (List Line)
  | [] => pure []
  | t :: _ => lowerStatement result t

/-- Statements one after another. -/
def lowerBlock (result : Ty) : List Tree → Lowering (List Line)
  | [] => pure []
  | t :: rest => do
    let lines ← lowerStatement result t
    let more ← lowerBlock result rest
    pure (lines ++ more)
end

end JavaMinus.ThreeAddress
