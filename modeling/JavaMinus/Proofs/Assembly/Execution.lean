/-
JavaMinus/Proofs/Assembly/Execution.lean

Running assembly.

The machine holds a position in the lines of a method, a stack of numbers, and
the values of its registers, which it calls slots.  Numbers have 32 bits.
Instructions on references and calls of methods are not run here: the machine
is stuck in front of them.
-/
import JavaMinus.Assembly.Emission
import JavaMinus.Proofs.Graph.Execution
import JavaMinus.Proofs.Machine

namespace JavaMinus.Assembly

open JavaMinus.Graph (Outcome)
open Machine StateTransition

/-! ### The machine -/

/-- The values of the registers. -/
abbrev Slots := UInt16 → Int32

/-- A state of the machine. -/
inductive State where
  | running (pc : Nat) (stack : List Int32) (slots : Slots)
  | ended (outcome : Outcome) (slots : Slots)

/-- Where a label stands. -/
def position? (code : List Line) (name : String) : Option Nat :=
  code.findIdx? (· == .label name)

/-- What an instruction does. -/
def execute (code : List Line) (pc : Nat) (slots : Slots) :
    Instruction → List Int32 → Option State
  | .push c, stack => some (.running (pc + 1) (c.value :: stack) slots)
  | .load .int r, stack => some (.running (pc + 1) (slots r :: stack) slots)
  | .store .int r, a :: stack => some (.running (pc + 1) stack (Function.update slots r a))
  | .arithmetic op, b :: a :: stack =>
    match op.compute a b with
    | some c => some (.running (pc + 1) (c :: stack) slots)
    | none => some (.ended .trapped slots)
  | .connective op, b :: a :: stack => some (.running (pc + 1) (op.join32 a b :: stack) slots)
  | .compareJump op target, b :: a :: stack =>
    if op.holds a b then (position? code target).map (.running · stack slots)
    else some (.running (pc + 1) stack slots)
  | .trueJump target, a :: stack =>
    if a = 0 then some (.running (pc + 1) stack slots)
    else (position? code target).map (.running · stack slots)
  | .jump target, stack => (position? code target).map (.running · stack slots)
  | .pop, _ :: stack => some (.running (pc + 1) stack slots)
  | .returnVoid, _ => some (.ended (.returned none) slots)
  | .returnValue .int, a :: _ => some (.ended (.returned (some a)) slots)
  | _, _ => none

/-- A step of the machine; behind the last line it ends. -/
def step (code : List Line) : State → Option State
  | .ended _ _ => none
  | .running pc stack slots =>
    match code[pc]? with
    | some (.label _) => some (.running (pc + 1) stack slots)
    | some (.instruction i) => execute code pc slots i stack
    | none => some (.ended .finished slots)

/-- Run from the first line with an empty stack, the code comes to an outcome
and leaves behind slots. -/
def Ends (code : List Line) (slots : Slots) (o : Outcome) (slots' : Slots) : Prop :=
  .ended o slots' ∈ eval (step code) (.running 0 [] slots)

theorem step_instruction {code : List Line} {pc : Nat} {i : Instruction} (stack : List Int32)
    (slots : Slots) (h : code[pc]? = some (.instruction i)) :
    step code (.running pc stack slots) = execute code pc slots i stack := by
  simp only [step, h]

theorem step_label {code : List Line} {pc : Nat} {l : String} (stack : List Int32)
    (slots : Slots) (h : code[pc]? = some (.label l)) :
    step code (.running pc stack slots) = some (.running (pc + 1) stack slots) := by
  simp only [step, h]

section Instructions

variable {code : List Line} {pc : Nat} {slots : Slots} {stack : List Int32} {a b : Int32}

theorem execute_push (c : Constant) :
    execute code pc slots (.push c) stack = some (.running (pc + 1) (c.value :: stack) slots) :=
  rfl

theorem execute_load (r : UInt16) :
    execute code pc slots (.load .int r) stack =
      some (.running (pc + 1) (slots r :: stack) slots) := rfl

theorem execute_arithmetic (op : ArithmeticOperator) :
    execute code pc slots (.arithmetic op) (b :: a :: stack) =
      match op.compute a b with
      | some c => some (.running (pc + 1) (c :: stack) slots)
      | none => some (.ended .trapped slots) := rfl

theorem execute_compareJump (op : Comparison) (target : String) :
    execute code pc slots (.compareJump op target) (b :: a :: stack) =
      if op.holds a b then (position? code target).map (.running · stack slots)
      else some (.running (pc + 1) stack slots) := rfl

theorem execute_trueJump (target : String) :
    execute code pc slots (.trueJump target) (a :: stack) =
      if a = 0 then some (.running (pc + 1) stack slots)
      else (position? code target).map (.running · stack slots) := rfl

theorem execute_jump (target : String) :
    execute code pc slots (.jump target) stack =
      (position? code target).map (.running · stack slots) := rfl

end Instructions

/-! ### Labels -/

/-- The name of a label. -/
def Line.label? : Line → Option String
  | label name => some name
  | instruction _ => none

/-- The names of the labels that stand in lines. -/
def labelNames (ls : List Line) : List String := ls.filterMap Line.label?

@[simp] theorem labelNames_append (ls ls' : List Line) :
    labelNames (ls ++ ls') = labelNames ls ++ labelNames ls' := List.filterMap_append

@[simp] theorem labelNames_code (is : List Instruction) : labelNames (code is) = [] := by
  rw [labelNames, code, List.filterMap_map, List.filterMap_eq_nil_iff]
  intro i _
  rfl

/-- A jump leads to the one place where its label stands. -/
theorem position?_of_unique {code : List Line} (h : (labelNames code).Nodup) {pc : Nat}
    {x : String} (hx : code[pc]? = some (.label x)) : position? code x = some pc := by
  refine findIdx?_eq_some_of_unique hx (beq_self_eq_true _) ?_
  intro i y hi hy
  rw [eq_of_beq hy] at hi
  exact eq_of_nodup_filterMap h hi hx rfl rfl

/-- The machine passes labels. -/
theorem reaches_labels {code : List Line} {pc : Nat} {names : List String}
    (h : CodeAt code pc (names.map .label)) (stack : List Int32) (slots : Slots) :
    Reaches (step code) (.running pc stack slots)
      (.running (pc + names.length) stack slots) := by
  induction names generalizing pc with
  | nil => exact .refl
  | cons x rest ih =>
    have hstep := reaches_of_step (step_label stack slots h.head)
    have hrest := ih h.tail
    rw [Nat.add_assoc, Nat.add_comm 1] at hrest
    exact hstep.trans hrest

end JavaMinus.Assembly
