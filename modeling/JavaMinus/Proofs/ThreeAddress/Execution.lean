/-
JavaMinus/Proofs/ThreeAddress/Execution.lean

Running three-address code.

The machine works on the instructions that were read from a text.  It holds a
position in them and the values of all variables, those of the program and the
temporaries alike.  A label does nothing; a jump leads to the place where its
label stands (`position?`).  Behind the last instruction the machine ends.

When every label stands only once, a jump leads where one expects
(`position?_of_unique`).
-/
import JavaMinus.Proofs.Machine
import JavaMinus.Proofs.ThreeAddress.Reading

namespace JavaMinus.ThreeAddress

open Machine StateTransition

/-! ### The machine -/

/-- The value of an atom in a store. -/
def Atom.value (σ : Store) : Atom → Scalar
  | .constant v => v
  | .variable x => σ x

/-- What becomes of two values; there is no result for values that the
operation is not made for. -/
def Operation.on : Operation → Scalar → Scalar → Option Computed
  | arithmetic op => op.on
  | logical op => op.on

/-- A state of the machine. -/
inductive State where
  | running (pc : Nat) (store : Store)
  | ended (outcome : Outcome) (store : Store)

/-- Where a label stands. -/
def position? (code : List Instruction) (name : String) : Option Nat :=
  code.findIdx? (· == .label name)

/-- What an instruction does. -/
def execute (code : List Instruction) (pc : Nat) (σ : Store) : Instruction → Option State
  | .label _ => some (.running (pc + 1) σ)
  | .move x a => some (.running (pc + 1) (Function.update σ x (a.value σ)))
  | .operate x op a b =>
    match op.on (a.value σ) (b.value σ) with
    | some (.value v) => some (.running (pc + 1) (Function.update σ x v))
    | some .trapped => some (.ended .trapped σ)
    | none => none
  | .branch c l =>
    match c.value σ with
    | .truth true => (position? code l).map (.running · σ)
    | .truth false => some (.running (pc + 1) σ)
    | .number _ => none
  | .jump l => (position? code l).map (.running · σ)
  | .ret a => some (.ended (.returned (a.map (·.value σ))) σ)

/-- A step of the machine; behind the last instruction it ends. -/
def step (code : List Instruction) : State → Option State
  | .ended _ _ => none
  | .running pc σ =>
    match code[pc]? with
    | some i => execute code pc σ i
    | none => some (.ended .finished σ)

/-- Run from the first instruction, the code comes to an outcome and leaves
behind a store. -/
def Ends (code : List Instruction) (σ : Store) (o : Outcome) (σ' : Store) : Prop :=
  .ended o σ' ∈ eval (step code) (.running 0 σ)

theorem step_running {code : List Instruction} {pc : Nat} {i : Instruction} (σ : Store)
    (h : code[pc]? = some i) : step code (.running pc σ) = execute code pc σ i := by
  simp only [step, h]

theorem step_behind {code : List Instruction} (σ : Store) :
    step code (.running code.length σ) = some (.ended .finished σ) := by
  simp only [step, List.getElem?_length]

/-- A run that has ended is over. -/
theorem ends_of_reaches {code : List Instruction} {σ σ' : Store} {o : Outcome}
    (h : Reaches (step code) (.running 0 σ) (.ended o σ')) : Ends code σ o σ' :=
  mem_eval.mpr ⟨h, rfl⟩

theorem Ends.unique {code : List Instruction} {σ σ₁ σ₂ : Store} {o₁ o₂ : Outcome}
    (h₁ : Ends code σ o₁ σ₁) (h₂ : Ends code σ o₂ σ₂) : o₁ = o₂ ∧ σ₁ = σ₂ := by
  have h := Part.mem_unique h₁ h₂
  injection h with ho hσ
  exact ⟨ho, hσ⟩

/-! ### Labels -/

/-- The name of a label. -/
def Instruction.label? : Instruction → Option String
  | label name => some name
  | _ => none

/-- No label stands twice. -/
def UniqueLabels (code : List Instruction) : Prop := (code.filterMap Instruction.label?).Nodup

/-- A jump leads to the one place where its label stands. -/
theorem position?_of_unique {code : List Instruction} (h : UniqueLabels code) {pc : Nat}
    {x : String} (hx : code[pc]? = some (.label x)) : position? code x = some pc := by
  refine findIdx?_eq_some_of_unique hx (beq_self_eq_true _) ?_
  intro i y hi hy
  rw [eq_of_beq hy] at hi
  exact eq_of_nodup_filterMap h hi hx rfl rfl

/-! ### Single instructions as runs -/

variable {code : List Instruction} {pc : Nat} {σ : Store}

theorem reaches_label {x : String} {pc' : Nat} (h : code[pc]? = some (.label x))
    (hpc : pc' = pc + 1) : Reaches (step code) (.running pc σ) (.running pc' σ) := by
  rw [hpc]
  exact reaches_of_step (step_running σ h)

theorem reaches_move {x : String} {a : Atom} (h : code[pc]? = some (.move x a)) :
    Reaches (step code) (.running pc σ)
      (.running (pc + 1) (Function.update σ x (a.value σ))) :=
  reaches_of_step (step_running σ h)

theorem reaches_jump (hunique : UniqueLabels code) {x : String} {target : Nat}
    (h : code[pc]? = some (.jump x)) (ht : code[target]? = some (.label x)) :
    Reaches (step code) (.running pc σ) (.running target σ) := by
  refine reaches_of_step ?_
  rw [step_running σ h, execute, position?_of_unique hunique ht, Option.map_some]

/-- A branch that is taken. -/
theorem reaches_branch_true (hunique : UniqueLabels code) {a : Atom} {x : String}
    {target : Nat} (h : code[pc]? = some (.branch a x))
    (ht : code[target]? = some (.label x)) (ha : a.value σ = .truth true) :
    Reaches (step code) (.running pc σ) (.running target σ) := by
  refine reaches_of_step ?_
  rw [step_running σ h, execute, ha]
  simp only [position?_of_unique hunique ht, Option.map_some]

/-- A branch that is not taken. -/
theorem reaches_branch_false {a : Atom} {x : String} (h : code[pc]? = some (.branch a x))
    (ha : a.value σ = .truth false) :
    Reaches (step code) (.running pc σ) (.running (pc + 1) σ) := by
  refine reaches_of_step ?_
  rw [step_running σ h, execute, ha]

theorem reaches_ret {a : Option Atom} (h : code[pc]? = some (.ret a)) :
    Reaches (step code) (.running pc σ)
      (.ended (.returned (a.map (·.value σ))) σ) :=
  reaches_of_step (step_running σ h)

end JavaMinus.ThreeAddress
