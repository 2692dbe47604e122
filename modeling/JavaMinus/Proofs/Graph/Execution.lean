/-
JavaMinus/Proofs/Graph/Execution.lean

Running the instructions of a graph.

The machine holds the index of an instruction and the values of the
variables.  All values are numbers of 32 bits; a truth value is one or zero,
so a comparison gives one of these, a connective works on the bits, and a
branch is taken for everything but zero.  On truth values the connectives are
those of logic (`join32_truth32`).

Meant are methods on numbers and truth values (`ScalarMethod`): nothing is
called, and no field or element is touched.  On these the machine never gets
stuck (`step_isSome`).
-/
import JavaMinus.Graph.Method
import JavaMinus.Proofs.Arithmetic
import Mathlib.Computability.StateTransition
import Mathlib.Logic.Function.Basic

namespace JavaMinus

/-- What a connective does to the bits of two numbers. -/
def Connective.join32 : Connective → Int32 → Int32 → Int32
  | and, a, b => a &&& b
  | or, a, b => a ||| b

/-- A truth value as a number. -/
def truth32 (b : Bool) : Int32 := if b then 1 else 0

/-- Among truth values a connective is the one of logic. -/
theorem join32_truth32 (op : Connective) (a b : Bool) :
    op.join32 (truth32 a) (truth32 b) = truth32 (op.join a b) := by
  cases op <;> cases a <;> cases b <;> decide

namespace Graph

open StateTransition

/-! ### The machine -/

/-- What becomes of two numbers; a division by zero has no result. -/
def Operator.compute : Operator → Int32 → Int32 → Option Int32
  | arithmetic op, a, b => op.compute a b
  | connective op, a, b => some (op.join32 a b)
  | comparison op, a, b => some (truth32 (op.holds a b))

/-- The values of all variables. -/
abbrev Store := String → Int32

/-- The value of an operand; elements of arrays have none here. -/
def Operand.value? (σ : Store) : Operand → Option Int32
  | literal v _ => some v
  | named x _ => some (σ x)
  | element _ _ _ => none

/-- What the computation of a value comes to. -/
inductive Computed where
  | value (value : Int32)
  | trapped
  deriving DecidableEq, Inhabited, Repr

/-- The value of an operand, or of an operation on two. -/
def Instruction.compute? (σ : Store) : Instruction → Option Computed
  | single x => (x.value? σ).map .value
  | binary op left right => do
    let a ← left.value? σ
    let b ← right.value? σ
    match op.compute a b with
    | some v => pure (.value v)
    | none => pure .trapped
  | _ => none

/-- What the execution of a method comes to. -/
inductive Outcome where
  /-- The end of the instructions is reached. -/
  | finished
  | returned (value : Option Int32)
  /-- A division by zero. -/
  | trapped
  deriving DecidableEq, Inhabited, Repr

/-- A state of the machine. -/
inductive State where
  | running (index : Nat) (store : Store)
  | ended (outcome : Outcome) (store : Store)

/-- Where a computed value leads; a trap ends the run. -/
def goOn (σ : Store) (next : Int32 → State) : Computed → State
  | .value v => next v
  | .trapped => .ended .trapped σ

/-- What an instruction does. -/
def execute (m : Method) (i : Nat) (σ : Store) : Instruction → Option State
  | .assign (.named x _) source =>
    (source.compute? σ).map (goOn σ fun v => .running (i + 1) (Function.update σ x v))
  | .branch condition target =>
    match condition.compute? σ with
    | some (.value v) =>
      if v = 0 then some (.running (i + 1) σ)
      else (m.labels.get? target).map (.running · σ)
    | some .trapped => some (.ended .trapped σ)
    | none => none
  | .jump target => (m.labels.get? target).map (.running · σ)
  | .ret _ none => some (.ended (.returned none) σ)
  | .ret _ (some x) => (x.value? σ).map fun v => .ended (.returned (some v)) σ
  | statement => (statement.compute? σ).map (goOn σ fun _ => .running (i + 1) σ)

/-- A step of the machine; behind the last instruction it ends. -/
def step (m : Method) : State → Option State
  | .ended _ _ => none
  | .running i σ =>
    match m.instructions[i]? with
    | some instruction => execute m i σ instruction
    | none => some (.ended .finished σ)

/-- Run from the first instruction, the method comes to an outcome and leaves
behind a store. -/
def Ends (m : Method) (σ : Store) (o : Outcome) (σ' : Store) : Prop :=
  .ended o σ' ∈ eval (step m) (.running 0 σ)

/-! ### Methods on numbers and truth values -/

/-- The operand is a value or a variable, and a number or a truth value.  The
object itself is no such variable. -/
def Operand.IsScalar : Operand → Prop
  | literal _ t => t = .int ∨ t = .boolean
  | named x t => x ≠ "this" ∧ (t = .int ∨ t = .boolean)
  | element _ _ _ => False

/-- The instruction gives a value to another one. -/
inductive IsValue : Instruction → Prop
  | single {x} : x.IsScalar → IsValue (.single x)
  | binary {op left right} : left.IsScalar → right.IsScalar → IsValue (.binary op left right)

/-- The instruction works on numbers and truth values, and jumps only to known
labels. -/
inductive ScalarInstruction (m : Method) : Instruction → Prop
  | assign {x t source} : t = .int ∨ t = .boolean → IsValue source →
      ScalarInstruction m (.assign (.named x t) source)
  | statement {i} : IsValue i → ScalarInstruction m i
  | branch {condition target} : IsValue condition → m.labels.has target →
      ScalarInstruction m (.branch condition target)
  | jump {target} : m.labels.has target → ScalarInstruction m (.jump target)
  | retNothing : ScalarInstruction m (.ret .void none)
  | retValue {t x} : t = .int ∨ t = .boolean → x.IsScalar →
      ScalarInstruction m (.ret t (some x))

/-- The method works on numbers and truth values.  Its variables have
registers of their own, and labels stand in front of instructions or behind the
last. -/
structure ScalarMethod (m : Method) : Prop where
  distinct : ∀ x y r, m.register? x = some r → m.register? y = some r → x = y
  labels : ∀ l i, m.labels.get? l = some i → i ≤ m.instructions.length
  instructions : ∀ i ∈ m.instructions, ScalarInstruction m i

theorem Operand.IsScalar.exists_value {x : Operand} (h : x.IsScalar) (σ : Store) :
    ∃ v, x.value? σ = some v := by
  cases x with
  | literal v t | named n t => exact ⟨_, rfl⟩
  | element => exact h.elim

theorem IsValue.exists_computed {i : Instruction} (h : IsValue i) (σ : Store) :
    ∃ c, i.compute? σ = some c := by
  cases h with
  | single hx =>
    obtain ⟨v, hv⟩ := hx.exists_value σ
    exact ⟨.value v, by rw [Instruction.compute?, hv]; rfl⟩
  | @binary op left right hleft hright =>
    obtain ⟨a, ha⟩ := hleft.exists_value σ
    obtain ⟨b, hb⟩ := hright.exists_value σ
    rcases e : op.compute a b with - | v
    · exact ⟨.trapped, by simp [Instruction.compute?, ha, hb, e]⟩
    · exact ⟨.value v, by simp [Instruction.compute?, ha, hb, e]⟩

theorem IsValue.execute_eq {statement : Instruction} (h : IsValue statement) (m : Method)
    (i : Nat) (σ : Store) :
    execute m i σ statement =
      (statement.compute? σ).map (goOn σ fun _ => .running (i + 1) σ) := by
  cases h <;> rfl

theorem exists_index_of_has {m : Method} {l : String} (h : m.labels.has l) :
    ∃ i, m.labels.get? l = some i := Option.isSome_iff_exists.mp h

/-- On scalar instructions the machine does not get stuck. -/
theorem ScalarInstruction.execute_isSome {m : Method} {instruction : Instruction}
    (h : ScalarInstruction m instruction) (i : Nat) (σ : Store) :
    (execute m i σ instruction).isSome := by
  cases h with
  | assign _ hsource =>
    obtain ⟨c, hc⟩ := hsource.exists_computed σ
    rw [execute, hc]
    rfl
  | statement hvalue =>
    obtain ⟨c, hc⟩ := hvalue.exists_computed σ
    rw [hvalue.execute_eq, hc]
    rfl
  | branch hcondition htarget =>
    -- a condition has a value, and what it leads to is in the method
    obtain ⟨c, hc⟩ := hcondition.exists_computed σ
    obtain ⟨j, hj⟩ := exists_index_of_has htarget
    rw [execute, hc, hj]
    cases c with
    | value v => by_cases hv : v = 0 <;> simp [hv]
    | trapped => rfl
  | jump htarget =>
    obtain ⟨j, hj⟩ := exists_index_of_has htarget
    rw [execute, hj]
    rfl
  | retNothing => rfl
  | retValue _ hx =>
    obtain ⟨v, hv⟩ := hx.exists_value σ
    rw [execute, hv]
    rfl

/-- A scalar method runs on until it has ended. -/
theorem ScalarMethod.step_isSome {m : Method} (h : ScalarMethod m) (i : Nat) (σ : Store) :
    (step m (.running i σ)).isSome := by
  rw [step]
  rcases e : m.instructions[i]? with - | instruction
  · rfl
  · exact (h.instructions _ (List.mem_of_getElem? e)).execute_isSome i σ

end Graph

end JavaMinus
