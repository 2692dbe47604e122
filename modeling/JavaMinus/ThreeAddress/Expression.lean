/-
JavaMinus/ThreeAddress/Expression.lean

Lowering expressions to three-address code.

An expression becomes an operand together with the lines that have to run
before the operand is good.  Literals, the object itself and variables of the
method are operands as they stand; everything else is computed into a fresh
temporary, after the lines of its parts from left to right.  Temporaries and
labels are numbered through the whole program.

A call of a method that the class does not declare has the type that is
wanted where the call stands, so lowering is told what is wanted.

How a node is lowered is said in terms of its parts, each a subtree with the
way to lower it; `lower` ties the knot by recursion on the tree.
-/
import JavaMinus.ThreeAddress.Code
import JavaMinus.Typing

namespace JavaMinus.ThreeAddress

/-- The numbers of the next temporary and of the next branch or loop.

The counters have no bound here, where 32 bits would do: a number that is taken
is written on a line of its own, the definition of a temporary or a label, so no
counter passes 2 ^ 32 before the text has as many lines. -/
structure Counters where
  temporaries : Nat
  labels : Nat
  deriving DecidableEq, Inhabited, Repr

/-- Lowering takes numbers from the counters and may end in a fault. -/
abbrev Lowering := StateT Counters (Except Fault)

/-- The number of a temporary that was not used before. -/
def freshTemporary : Lowering Nat := fun s =>
  .ok (s.temporaries, { s with temporaries := s.temporaries + 1 })

/-- A number that no branch or loop had before. -/
def freshLabel : Lowering Nat := fun s =>
  .ok (s.labels, { s with labels := s.labels + 1 })

/-- An operand, and the lines that make it good. -/
structure Value where
  operand : Operand
  code : List Line
  deriving DecidableEq, Inhabited, Repr

/-- An operand that is good as it stands. -/
def Value.plain (operand : Operand) : Value := ⟨operand, []⟩

/-- Compute a source into a fresh temporary, behind some lines. -/
def compute (before : List Line) (tag : Tag) (source : Source) : Lowering Value := do
  let n ← freshTemporary
  pure ⟨.cell (.temporary n) tag, before ++ [.assign (.temporary n) tag source]⟩

/-- A subtree of a node, with the way to lower it where a type may be
wanted. -/
structure Part where
  tree : Tree
  lower : Option Ty → Lowering Value

/-- The fault of a node that lacks one of its parts. -/
def missingPart (t : Tree) (i : Nat) : Fault :=
  .notAnExpression s!"{t.kind} without operand {i}" t.position

/-- A part that the node must have. -/
def Part.get (t : Tree) (parts : List Part) (i : Nat) : Except Fault Part :=
  match parts[i]? with
  | some part => .ok part
  | none => .error (missingPart t i)

variable (d : Declarations) (scope : Option String)

/-- An identifier.  A name that denotes nothing is taken for a variable of
type `int`. -/
def lowerIdentifier (t : Tree) : Lowering Value :=
  match d.identifier? scope t with
  | none => pure (.plain (.cell (.named t.name) .i32))
  | some binding =>
    let tag := Tag.ofTy binding.ty
    match binding.origin with
    | .local | .parameter => pure (.plain (.cell (.named t.name) tag))
    | .field => compute [] tag (.fieldRead t.name tag)
    | .importedClass | .ownClass | .superClass => pure (.plain (.classRef t.name))

/-- An operation on two parts of a wanted type. -/
def lowerBinary (t : Tree) (parts : List Part) (wanted : Ty) (tag : Tag)
    (source : Operand → Operand → Source) : Lowering Value := do
  let left ← Part.get t parts 0
  let right ← Part.get t parts 1
  let x ← left.lower (some wanted)
  let y ← right.lower (some wanted)
  compute (x.code ++ y.code) tag (source x.operand y.operand)

/-- An index, which has to be a variable: a literal is copied into a
temporary. -/
def lowerIndex (part : Part) : Lowering Value := do
  let x ← part.lower none
  match part.tree.kind with
  | .integer => compute x.code .i32 (.operand x.operand)
  | .boolean => compute x.code .bool (.operand x.operand)
  | _ => pure x

/-! ### Arrays -/

/-- Put parts into the elements of an array from a position on. -/
def storeFrom (array : Nat) (element : Ty) : Nat → List Part → Lowering (List Line)
  | _, [] => pure []
  | i, part :: rest => do
    let x ← part.lower (some element)
    let n ← freshTemporary
    let more ← storeFrom array element (i + 1) rest
    pure (x.code ++
      [.assign (.temporary n) .i32 (.operand (.number (toString i))),
       .store (.temporary array) (.cell (.temporary n) .i32) (Tag.ofTy element) x.operand] ++
      more)

/-- A new array of parts.  The array is made before its elements are
computed. -/
def lowerArray (element : Ty) (parts : List Part) : Lowering Value := do
  let tag := Tag.array (Tag.ofName element.name)
  let n ← freshTemporary
  let stores ← storeFrom n element 0 parts
  let size := Operand.number (toString parts.length)
  pure ⟨.cell (.temporary n) tag, .assign (.temporary n) tag (.newArray size tag) :: stores⟩

/-- An array literal, which holds what its first element is. -/
def lowerArrayLiteral (parts : List Part) : Lowering Value := do
  match parts with
  | [] => lowerArray .int []
  | first :: _ =>
    let element ← d.typeOf scope first.tree
    lowerArray (element.getD .int) parts

def lowerElementRead (t : Tree) (parts : List Part) : Lowering Value := do
  let array ← Part.get t parts 0
  let ty ← d.typeOf scope array.tree
  let index ← Part.get t parts 1
  let x ← array.lower none
  let i ← lowerIndex index
  let tag := Tag.ofTy ((ty.bind (·.element?)).getD .int)
  compute (x.code ++ i.code) tag (.element x.operand i.operand tag)

/-! ### Calls -/

/-- A call whose parts are computed by the lines in front of it. -/
structure Call where
  code : List Line
  invocation : Invocation
  deriving DecidableEq, Inhabited, Repr

/-- What a call is made on, behind the lines that compute it. -/
def lowerReceiver (part : Part) : Lowering (List Line × Receiver) := do
  let object := do
    let x ← part.lower none
    pure (x.code, Receiver.object x.operand)
  match part.tree.kind with
  | .self => pure ([], .self)
  | .identifier =>
    match d.identifier? scope part.tree with
    | some binding =>
      if binding.origin.isVariable then object else pure ([], .classRef part.tree.name)
    | none => object
  | _ => object

/-- Arguments for parameters that take one each.  Nothing is wanted of
arguments for which no parameter is known. -/
def lowerEach : List Variable → List Part → Lowering (List Value)
  | _, [] => pure []
  | parameters, part :: rest => do
    let x ← part.lower (parameters.head?.map (·.ty))
    let more ← lowerEach parameters.tail rest
    pure (x :: more)

/-- The argument for an open tail: a new array of what is left, unless a
single array is left, which is passed on as it is. -/
def lowerOpenTail (parts : List Part) : Lowering Value := do
  match parts with
  | [single] =>
    let ty ← d.typeOf scope single.tree
    if ty.any (·.isArray) then single.lower none else lowerArray .int parts
  | _ => lowerArray .int parts

/-- The arguments of a call of a method with the given parameters. -/
def lowerArguments (parameters : List Variable) (parts : List Part) :
    Lowering (List Value) := do
  match Parameters.openTail? parameters with
  | none => lowerEach parameters parts
  | some _ =>
    let fixed := Parameters.fixed parameters
    let xs ← lowerEach fixed (parts.take fixed.length)
    let x ← lowerOpenTail d scope (parts.drop fixed.length)
    pure (xs ++ [x])

/-- A call.  It has the type that the class declares for it, or else the one
that is wanted, or else `void`. -/
def lowerCall (t : Tree) (parts : List Part) (wanted : Option Ty) : Lowering Call := do
  let receiver ← Part.get t parts 0
  -- only a declared method has parameters that arguments could be fitted to
  let declared ← d.callType scope t
  let (code, target) ← lowerReceiver d scope receiver
  let parameters := if declared.isSome then d.parameters t.name else []
  let xs ← lowerArguments d scope parameters (parts.drop 1)
  let result := Tag.ofTy ((declared.or wanted).getD .void)
  pure ⟨code ++ xs.flatMap (·.code), ⟨target, t.name, xs.map (·.operand), result⟩⟩

/-! ### All expressions -/

/-- An expression over its parts. -/
def lowerOver (t : Tree) (parts : List Part) (wanted : Option Ty) : Lowering Value := do
  match t.kind with
  | .integer => pure (.plain (.number ((t.get? "value").getD "0")))
  | .boolean => pure (.plain (.truth (t.flag "value")))
  | .identifier => lowerIdentifier d scope t
  | .self => pure (.plain (.self d.className))
  | .arithmetic =>
    let op ← ArithmeticOperator.ofTree t
    lowerBinary t parts .int .i32 (.arithmetic op)
  | .logical =>
    let op ← LogicalOperator.ofTree t
    lowerBinary t parts (if op.isConnective then .boolean else .int) .bool (.logical op)
  | .call =>
    let call ← lowerCall d scope t parts (some (wanted.getD .int))
    compute call.code call.invocation.result (.call call.invocation)
  | .elementRead => lowerElementRead d scope t parts
  | .arrayLiteral => lowerArrayLiteral d scope parts
  | .newObject =>
    let x ← compute [] (.object t.name) (.newObject t.name)
    pure ⟨x.operand, x.code ++ [.construct x.operand]⟩
  | .newArray =>
    let size ← Part.get t parts 0
    let x ← size.lower none
    compute x.code (.array .i32) (.newArray x.operand (.array .i32))
  | .length =>
    let array ← Part.get t parts 0
    let x ← array.lower none
    compute x.code .i32 (.length x.operand)
  | kind => throw (.notAnExpression kind.text t.position)

mutual
/-- An expression where a type may be wanted. -/
def lower : Tree → Option Ty → Lowering Value
  | .node h cs => lowerOver d scope (.node h cs) (partsOf cs)

/-- Trees as parts. -/
def partsOf : List Tree → List Part
  | [] => []
  | t :: rest => ⟨t, lower t⟩ :: partsOf rest
end

theorem partsOf_eq_map (ts : List Tree) :
    partsOf d scope ts = ts.map fun t => ⟨t, lower d scope t⟩ := by
  induction ts with
  | nil => simp only [partsOf, List.map_nil]
  | cons t rest ih => simp only [partsOf, ih, List.map_cons]

/-- An expression is lowered over its children as parts. -/
theorem lower_eq (t : Tree) :
    lower d scope t =
      lowerOver d scope t (t.children.map fun c => ⟨c, lower d scope c⟩) := by
  obtain ⟨h, cs⟩ := t
  rw [lower, partsOf_eq_map, Tree.children]

end JavaMinus.ThreeAddress
