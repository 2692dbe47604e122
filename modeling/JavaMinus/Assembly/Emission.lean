/-
JavaMinus/Assembly/Emission.lean

Emitting the instructions of a method.

Every instruction of the graph becomes lines of assembly.  Beside the lines
the depth of the operand stack is kept, so that the head of the method can
name the greatest one.  The count follows what is done rather than the lines
one by one: of the two ways through a comparison that is kept as a value only
one is counted.

    a comparison kept as a value        a comparison that is branched on
    if_icmp?? cmp_true_n                if_icmp?? label
    iconst_0
    goto cmp_end_n
    cmp_true_n:
    iconst_1
    cmp_end_n:

Emission ends in a fault where a variable has no register and where an
instruction has a shape that the machine has nothing for.
-/
import JavaMinus.Assembly.Code
import JavaMinus.Assembly.Depth
import JavaMinus.Fault

namespace JavaMinus.Assembly

open JavaMinus.Graph (ClassUnit Operand Operator ValueType)

/-- The depth of the operand stack, and how many comparisons were kept as
values.

The comparisons of a method are counted without a bound, where 32 bits would do:
each takes two labels of the text, so the count does not pass 2 ^ 32 before the
text has twice as many lines. -/
structure Progress where
  depth : Depth
  comparisons : Nat
  deriving DecidableEq, Inhabited, Repr

/-- Emission keeps count and may end in a fault. -/
abbrev Emission := StateT Progress (Except Fault)

/-- Count values that are pushed. -/
def grow (n : Nat) : Emission Unit := fun s =>
  .ok ((), { s with depth := s.depth.grow n })

/-- Count values that are popped. -/
def shrink (n : Nat) : Emission Unit := fun s =>
  .ok ((), { s with depth := s.depth.shrink n })

/-- A number that no comparison had before. -/
def freshComparison : Emission Nat := fun s =>
  .ok (s.comparisons, { s with comparisons := s.comparisons + 1 })

/-- Instructions as lines. -/
def code (is : List Instruction) : List Line := is.map .instruction

variable (u : ClassUnit) (m : Graph.Method)

/-- The fault of a shape that cannot be emitted. -/
def unsupported (what : String) : Fault := .unsupported what m.name

/-- The register of a variable. -/
def registerOf (name : String) : Except Fault UInt16 :=
  match m.register? name with
  | some register => .ok register
  | none => .error (.unresolvedRegister name m.name)

/-! ### Values -/

/-- Push an operand. -/
def load : Operand → Emission (List Line)
  | .literal value _ => do
    grow 1
    pure (code [.push (.ofInt value)])
  | .named name type => do
    let register ←
      if (match type with | .self _ => true | _ => false) || name == "this" then
        pure (Instruction.load .reference 0)
      else if type.isIntLike || type.isReference then do
        pure (Instruction.load (.ofType type) (← registerOf m name))
      else throw (unsupported m s!"operand {name} used as a value")
    grow 1
    pure (code [register])
  | .element array index type => do
    let register ← registerOf m array
    grow 1
    let position ← load index
    shrink 1
    pure (code [.load .reference register] ++ position ++ code [.elementLoad (.ofType type)])

/-- Replace the two topmost values by what an operator makes of them. -/
def operate : Operator → Emission (List Line)
  | .arithmetic op => do
    shrink 1
    pure (code [.arithmetic op])
  | .connective op => do
    shrink 1
    pure (code [.connective op])
  | .comparison op => do
    let n ← freshComparison
    shrink 1
    let whenTrue := s!"cmp_true_{n}"
    let after := s!"cmp_end_{n}"
    pure (code [.compareJump op whenTrue, .push (.ofInt 0), .jump after] ++
      [.label whenTrue] ++ code [.push (.ofInt 1)] ++ [.label after])

/-- A field of the class that is emitted. -/
def fieldRef (field : Operand) : Except Fault FieldRef :=
  match field.name? with
  | some name => .ok ⟨u.name, name, u.descriptor field.type⟩
  | none => .error (unsupported m "literal used as a field")

/-! ### Calls -/

/-- Push operands one after another. -/
def loadAll : List Operand → Emission (List Line)
  | [] => pure []
  | x :: rest => do
    let lines ← load m x
    let more ← loadAll rest
    pure (lines ++ more)

/-- The class whose method is called, by the type of the caller. -/
def ownerOf (caller : Operand) : Except Fault String :=
  match caller.type with
  | .object className | .classRef className | .self className =>
    .ok (u.internalName className)
  | other => .error (unsupported m s!"call on a value of type {other.shown}")

/-- A call of a method, with the number of values that it leaves. -/
def invoke (mode : CallMode) (c : Graph.Call) : Emission (List Line × Nat) := do
  let name ← match c.method with
    | some name => pure name
    | none => throw (unsupported m "invocation without a method name")
  let owner ← ownerOf u m c.caller
  -- a class is named in the instruction and is not pushed
  let receiver := if mode = .static then [] else [c.caller]
  let operands ← loadAll m (receiver ++ c.arguments)
  let method : MethodRef :=
    ⟨owner, name, c.arguments.map fun x => u.descriptor x.type, u.descriptor c.result⟩
  shrink (receiver ++ c.arguments).length
  let lines := operands ++ code [.invoke mode method]
  if c.result = .void then pure (lines, 0)
  else do
    grow 1
    pure (lines, 1)

/-- Make a new object or array, with the number of values that are left.  A
new object is left twice, once for its constructor. -/
def allocate (c : Graph.Call) : Emission (List Line × Nat) :=
  match c.caller.type with
  | .object className => do
    grow 2
    pure (code [.newObject (u.internalName className), .dup], 2)
  | .array _ =>
    match c.arguments with
    | [] => throw (unsupported m "array allocation without a size")
    | size :: _ => do
      let lines ← load m size
      pure (lines ++ code [.newIntArray], 1)
  | other => throw (unsupported m s!"allocation of {other.shown}")

/-- A call, with the number of values that it leaves. -/
def call (c : Graph.Call) : Emission (List Line × Nat) :=
  match c.kind with
  | .new => allocate u m c
  | .arrayLength => do
    let lines ← load m c.caller
    pure (lines ++ code [.arrayLength], 1)
  | .static => invoke u m .static c
  | .special => invoke u m .special c
  | .virtual => invoke u m .virtual c

/-! ### Instructions -/

/-- Push what an instruction computes. -/
def value : Graph.Instruction → Emission (List Line)
  | .single x => load m x
  | .binary op left right => do
    let x ← load m left
    let y ← load m right
    let z ← operate op
    pure (x ++ y ++ z)
  | .call c =>
    if c.result = .void then throw (unsupported m "void call used as a value")
    else do
      let (lines, _) ← call u m c
      pure lines
  | .getField object field => do
    let lines ← load m object
    let field ← fieldRef u m field
    pure (lines ++ code [.getField field])
  | other => throw (unsupported m s!"{other.describe} used as a value")

/-- Put what an instruction computes into a variable or an element. -/
def assign (source : Graph.Instruction) : Operand → Emission (List Line)
  | .named name type => do
    let lines ← value u m source
    -- a fault of the value comes before one of the target
    let register ← registerOf m name
    shrink 1
    pure (lines ++ code [.store (.ofType type) register])
  | .element array index type => do
    let register ← registerOf m array
    grow 1
    let position ← load m index
    let lines ← value u m source
    shrink 3
    pure (code [.load .reference register] ++ position ++ lines ++
      code [.elementStore (.ofType type)])
  | .literal value _ => throw (unsupported m s!"assignment to literal {value.toInt}")

/-- Jump if a condition holds.  A comparison is branched on; anything else is
computed first. -/
def branch (target : String) : Graph.Instruction → Emission (List Line)
  | .binary (.comparison op) left right => do
    let x ← load m left
    let y ← load m right
    shrink 2
    pure (x ++ y ++ code [.compareJump op target])
  | condition => do
    let lines ← value u m condition
    shrink 1
    pure (lines ++ code [.trueJump target])

/-- Pop values that are not wanted. -/
def drop (n : Nat) : Emission (List Line) := do
  shrink n
  pure (code (List.replicate n .pop))

/-- Whether a call runs the constructor of a new object, of which a second
copy is still on the stack. -/
def isConstruction (c : Graph.Call) : Bool :=
  c.kind == .special && c.result == .void &&
    !(match c.caller.type with | .self _ => true | _ => false)

/-- One instruction of the graph. -/
def instruction : Graph.Instruction → Emission (List Line)
  | .assign target source => assign u m source target
  | .call c => do
    let (lines, left) ← call u m c
    let dropped ← drop (left + if isConstruction c then 1 else 0)
    pure (lines ++ dropped)
  | .ret type (some x) =>
    -- a value returned as `void` is not even pushed
    if type = .void then pure (code [.returnVoid])
    else do
      let lines ← load m x
      shrink 1
      pure (lines ++ code [.returnValue (.ofType type)])
  | .ret _ none => pure (code [.returnVoid])
  | .putField object field x => do
    let lines ← load m object
    let more ← load m x
    let field ← fieldRef u m field
    shrink 2
    pure (lines ++ more ++ code [.putField field])
  | .branch condition target => branch u m target condition
  | .jump target => pure (code [.jump target])
  | other => do
    let lines ← value u m other
    let dropped ← drop 1
    pure (lines ++ dropped)

/-- The labels in front of the instruction at an index. -/
def labels (index : Nat) : List Line := (m.labelsAt index).map .label

/-- The given instructions, of which the first has the given index, with the
labels in front of them and behind the last. -/
def bodyFrom (index : Nat) : List Graph.Instruction → Emission (List Line)
  | [] => pure (labels m index)
  | i :: rest => do
    let lines ← instruction u m i
    let more ← bodyFrom (index + 1) rest
    pure (labels m index ++ lines ++ more)

/-- The lines of a method, and the greatest depth of its operand stack. -/
def body : Except Fault (List Line × Nat) :=
  match (bodyFrom u m 0 m.instructions).run ⟨.empty, 0⟩ with
  | .ok (lines, progress) => .ok (lines, progress.depth.deepest)
  | .error fault => .error fault

end JavaMinus.Assembly
