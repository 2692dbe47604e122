/-
JavaMinus/Proofs/Evaluation.lean

What methods on numbers and truth values mean.

The meaning is read off the tree, without any code.  An expression is computed
in a store, which holds the value of every variable (`evaluate`); a row of
statements takes one store to another and comes to an outcome (`Executes`).

The methods meant here are those whose bodies assign to local variables and
parameters, branch, loop and return (`ScalarStatement`), with expressions that
are well typed (`HasScalarType`).  Such an expression always comes to a value
of its type, or is trapped in a division by zero (`evaluate_of_hasScalarType`).
-/
import JavaMinus.Declarations
import JavaMinus.Operator
import JavaMinus.Proofs.Arithmetic
import JavaMinus.Proofs.Reading
import Mathlib.Logic.Function.Basic

namespace JavaMinus

/-- A number or a truth value. -/
inductive Scalar where
  | number (value : Int32)
  | truth (value : Bool)
  deriving DecidableEq, Inhabited, Repr

/-- The type of a value. -/
def Scalar.ty : Scalar → Ty
  | number _ => .int
  | truth _ => .boolean

/-- The values of all variables. -/
abbrev Store := String → Scalar

/-- What the computation of a value comes to. -/
inductive Computed where
  | value (value : Scalar)
  | trapped
  deriving DecidableEq, Inhabited, Repr

/-! ### Operators on values -/

/-- Two numbers under an arithmetic operator; there is no result for truth
values. -/
def ArithmeticOperator.on (op : ArithmeticOperator) : Scalar → Scalar → Option Computed
  | .number a, .number b =>
    match op.compute a b with
    | some c => some (.value (.number c))
    | none => some .trapped
  | _, _ => none

/-- Two truth values under a connective, or two numbers in a comparison. -/
def LogicalOperator.on : LogicalOperator → Scalar → Scalar → Option Computed
  | connective op, .truth a, .truth b => some (.value (.truth (op.join a b)))
  | comparison op, .number a, .number b => some (.value (.truth (op.holds a b)))
  | _, _, _ => none

/-! ### Expressions -/

/-- Both operands are computed, the left one first. -/
def Computed.both (x y : Option Computed) (op : Scalar → Scalar → Option Computed) :
    Option Computed :=
  match x, y with
  | some .trapped, _ => some .trapped
  | some (.value _), some .trapped => some .trapped
  | some (.value a), some (.value b) => op a b
  | _, _ => none

/-- The number that an integer literal writes. -/
def Tree.numeral? (t : Tree) : Option Int32 :=
  (t.get? "value").bind fun text => Reading.int32? text.toList

/-- The value of an expression in a store.  There is none for expressions of
other kinds, and none where an operator meets values that it is not made
for. -/
def evaluate (σ : Store) : Tree → Option Computed
  | .node h cs =>
    match h.kind with
    | .integer => ((Tree.node h cs).numeral?).map fun v => .value (.number v)
    | .boolean => some (.value (.truth ((Tree.node h cs).flag "value")))
    | .identifier => some (.value (σ (Tree.node h cs).name))
    | .arithmetic =>
      match ArithmeticOperator.ofTree (.node h cs), cs with
      | .ok op, [left, right] => Computed.both (evaluate σ left) (evaluate σ right) op.on
      | _, _ => none
    | .logical =>
      match LogicalOperator.ofTree (.node h cs), cs with
      | .ok op, [left, right] => Computed.both (evaluate σ left) (evaluate σ right) op.on
      | _, _ => none
    | _ => none

/-- The variables of a method with their types; a local hides a parameter of
its name. -/
def Signature.typeOf? (s : Signature) (name : String) : Option Ty :=
  ((Variable.find? s.locals name).or (Variable.find? s.parameters name)).map (·.ty)

/-- The expression is made of literals, variables and operators, and is well
typed. -/
inductive HasScalarType (s : Signature) : Tree → Ty → Prop
  | integer {t v} : t.kind = .integer → t.numeral? = some v → HasScalarType s t .int
  | boolean {t} : t.kind = .boolean → HasScalarType s t .boolean
  | identifier {t x ty} : t.kind = .identifier → t.get? "name" = some x →
      s.typeOf? x = some ty → ty = .int ∨ ty = .boolean → HasScalarType s t ty
  | arithmetic {t op left right} : t.kind = .arithmetic →
      ArithmeticOperator.ofTree t = .ok op → t.children = [left, right] →
      HasScalarType s left .int → HasScalarType s right .int → HasScalarType s t .int
  | connective {t op left right} : t.kind = .logical →
      LogicalOperator.ofTree t = .ok (.connective op) → t.children = [left, right] →
      HasScalarType s left .boolean → HasScalarType s right .boolean →
      HasScalarType s t .boolean
  | comparison {t op left right} : t.kind = .logical →
      LogicalOperator.ofTree t = .ok (.comparison op) → t.children = [left, right] →
      HasScalarType s left .int → HasScalarType s right .int → HasScalarType s t .boolean

/-- Every variable for a number holds a number, and every variable for a truth
value holds one. -/
def Store.Fits (σ : Store) (s : Signature) : Prop :=
  ∀ x ty, s.typeOf? x = some ty → ty = .int ∨ ty = .boolean → (σ x).ty = ty

theorem HasScalarType.eq_int_or_boolean {s : Signature} {t : Tree} {ty : Ty}
    (h : HasScalarType s t ty) : ty = .int ∨ ty = .boolean := by
  cases h with
  | integer | arithmetic => exact Or.inl rfl
  | boolean | connective | comparison => exact Or.inr rfl
  | identifier _ _ _ h => exact h

theorem Scalar.exists_number {v : Scalar} (h : v.ty = .int) : ∃ n, v = .number n := by
  cases v with
  | number n => exact ⟨n, rfl⟩
  | truth b => exact absurd h (by simp [ty, Ty.int, Ty.boolean])

theorem Scalar.exists_truth {v : Scalar} (h : v.ty = .boolean) : ∃ b, v = .truth b := by
  cases v with
  | number n => exact absurd h (by simp [ty, Ty.int, Ty.boolean])
  | truth b => exact ⟨b, rfl⟩

/-! ### One equation for each form of expression -/

theorem evaluate_integer {σ : Store} {t : Tree} {v : Int32} (h : t.kind = .integer)
    (hv : t.numeral? = some v) : evaluate σ t = some (.value (.number v)) := by
  obtain ⟨head, cs⟩ := t
  have hk : head.kind = .integer := h
  rw [evaluate.eq_def]
  simp only [hk, hv, Option.map_some]

theorem evaluate_boolean {σ : Store} {t : Tree} (h : t.kind = .boolean) :
    evaluate σ t = some (.value (.truth (t.flag "value"))) := by
  obtain ⟨head, cs⟩ := t
  have hk : head.kind = .boolean := h
  rw [evaluate.eq_def]
  simp only [hk]

theorem evaluate_identifier {σ : Store} {t : Tree} (h : t.kind = .identifier) :
    evaluate σ t = some (.value (σ t.name)) := by
  obtain ⟨head, cs⟩ := t
  have hk : head.kind = .identifier := h
  rw [evaluate.eq_def]
  simp only [hk]

theorem evaluate_arithmetic {σ : Store} {t left right : Tree} {op : ArithmeticOperator}
    (h : t.kind = .arithmetic) (hop : ArithmeticOperator.ofTree t = .ok op)
    (hcs : t.children = [left, right]) :
    evaluate σ t = Computed.both (evaluate σ left) (evaluate σ right) op.on := by
  obtain ⟨head, cs⟩ := t
  have hk : head.kind = .arithmetic := h
  obtain rfl : cs = [left, right] := hcs
  rw [evaluate.eq_def]
  simp only [hk, hop]

theorem evaluate_logical {σ : Store} {t left right : Tree} {op : LogicalOperator}
    (h : t.kind = .logical) (hop : LogicalOperator.ofTree t = .ok op)
    (hcs : t.children = [left, right]) :
    evaluate σ t = Computed.both (evaluate σ left) (evaluate σ right) op.on := by
  obtain ⟨head, cs⟩ := t
  have hk : head.kind = .logical := h
  obtain rfl : cs = [left, right] := hcs
  rw [evaluate.eq_def]
  simp only [hk, hop]

/-! ### Well typed expressions have a value -/

/-- The value of an expression hangs on the variables of the method alone. -/
theorem evaluate_congr {s : Signature} {σ τ : Store}
    (hστ : ∀ x ty, s.typeOf? x = some ty → σ x = τ x) {t : Tree} {ty : Ty}
    (h : HasScalarType s t ty) : evaluate σ t = evaluate τ t := by
  induction h with
  | integer hk hv => rw [evaluate_integer hk hv, evaluate_integer hk hv]
  | boolean hk => rw [evaluate_boolean hk, evaluate_boolean hk]
  | @identifier t x ty hk hx hty _ =>
    have hname : t.name = x := by rw [Tree.name, hx, Option.getD_some]
    rw [evaluate_identifier hk, evaluate_identifier hk, hname, hστ x ty hty]
  | arithmetic hk hop hcs _ _ ihl ihr =>
    rw [evaluate_arithmetic hk hop hcs, evaluate_arithmetic hk hop hcs, ihl, ihr]
  | connective hk hop hcs _ _ ihl ihr =>
    rw [evaluate_logical hk hop hcs, evaluate_logical hk hop hcs, ihl, ihr]
  | comparison hk hop hcs _ _ ihl ihr =>
    rw [evaluate_logical hk hop hcs, evaluate_logical hk hop hcs, ihl, ihr]

/-- The computation comes to a value of the type, or is trapped. -/
def Computed.IsOf (ty : Ty) (c : Option Computed) : Prop :=
  (∃ v, c = some (.value v) ∧ v.ty = ty) ∨ c = some .trapped

theorem Computed.isOf_both {x y : Option Computed} {ty ty' : Ty}
    {op : Scalar → Scalar → Option Computed} (hx : Computed.IsOf ty x) (hy : Computed.IsOf ty y)
    (hop : ∀ a b, a.ty = ty → b.ty = ty → Computed.IsOf ty' (op a b)) :
    Computed.IsOf ty' (Computed.both x y op) := by
  rcases hx with ⟨a, rfl, ha⟩ | rfl
  · rcases hy with ⟨b, rfl, hb⟩ | rfl
    · exact hop a b ha hb
    · exact Or.inr rfl
  · exact Or.inr rfl

theorem ArithmeticOperator.isOf_on (op : ArithmeticOperator) {a b : Scalar} (ha : a.ty = .int)
    (hb : b.ty = .int) : Computed.IsOf .int (op.on a b) := by
  obtain ⟨m, rfl⟩ := Scalar.exists_number ha
  obtain ⟨n, rfl⟩ := Scalar.exists_number hb
  rcases e : op.compute m n with - | k
  · exact Or.inr (by simp only [ArithmeticOperator.on, e])
  · exact Or.inl ⟨.number k, by simp only [ArithmeticOperator.on, e], rfl⟩

/-- A well typed expression has a value of its type, unless it is trapped. -/
theorem evaluate_of_hasScalarType {s : Signature} {σ : Store} (hσ : σ.Fits s) {t : Tree}
    {ty : Ty} (h : HasScalarType s t ty) : Computed.IsOf ty (evaluate σ t) := by
  induction h with
  | integer hk hv => exact Or.inl ⟨_, evaluate_integer hk hv, rfl⟩
  | boolean hk => exact Or.inl ⟨_, evaluate_boolean hk, rfl⟩
  | @identifier t x ty hk hx hty hscalar =>
    have hname : t.name = x := by rw [Tree.name, hx, Option.getD_some]
    exact Or.inl ⟨_, evaluate_identifier hk, by rw [hname]; exact hσ x ty hty hscalar⟩
  | arithmetic hk hop hcs _ _ ihl ihr =>
    rw [evaluate_arithmetic hk hop hcs]
    exact Computed.isOf_both ihl ihr fun a b => ArithmeticOperator.isOf_on _
  | @connective t op left right hk hop hcs _ _ ihl ihr =>
    rw [evaluate_logical hk hop hcs]
    refine Computed.isOf_both ihl ihr fun a b ha hb => Or.inl ?_
    -- both parts have truth values, so the connective has one
    obtain ⟨p, rfl⟩ := Scalar.exists_truth ha
    obtain ⟨q, rfl⟩ := Scalar.exists_truth hb
    exact ⟨_, rfl, rfl⟩
  | @comparison t op left right hk hop hcs _ _ ihl ihr =>
    rw [evaluate_logical hk hop hcs]
    refine Computed.isOf_both ihl ihr fun a b ha hb => Or.inl ?_
    obtain ⟨m, rfl⟩ := Scalar.exists_number ha
    obtain ⟨n, rfl⟩ := Scalar.exists_number hb
    exact ⟨_, rfl, rfl⟩

/-! ### Statements -/

/-- What the execution of statements comes to. -/
inductive Outcome where
  /-- The end of the statements is reached. -/
  | finished
  /-- A return, with a value or without one. -/
  | returned (value : Option Scalar)
  /-- A division by zero. -/
  | trapped
  deriving DecidableEq, Inhabited, Repr

/-- The row of statements takes the first store to the second one and comes to
an outcome. -/
inductive Executes : List Tree → Store → Outcome → Store → Prop
  | nil {σ} : Executes [] σ .finished σ
  | assignment {t rest e v σ o σ'} : t.kind = .assignment → t.children = [e] →
      evaluate σ e = some (.value v) →
      Executes rest (Function.update σ t.name v) o σ' → Executes (t :: rest) σ o σ'
  | assignmentTrapped {t rest e σ} : t.kind = .assignment → t.children = [e] →
      evaluate σ e = some .trapped → Executes (t :: rest) σ .trapped σ
  | block {t rest σ σ₁ o σ'} : t.kind = .block → Executes t.children σ .finished σ₁ →
      Executes rest σ₁ o σ' → Executes (t :: rest) σ o σ'
  | blockLeft {t rest σ o σ'} : t.kind = .block → Executes t.children σ o σ' →
      o ≠ .finished → Executes (t :: rest) σ o σ'
  | branch {t rest c a b v σ σ₁ o σ'} : t.kind = .conditional → t.children = c :: a :: b →
      evaluate σ c = some (.value (.truth v)) →
      Executes (if v then [a] else b) σ .finished σ₁ → Executes rest σ₁ o σ' →
      Executes (t :: rest) σ o σ'
  | branchLeft {t rest c a b v σ o σ'} : t.kind = .conditional → t.children = c :: a :: b →
      evaluate σ c = some (.value (.truth v)) →
      Executes (if v then [a] else b) σ o σ' → o ≠ .finished → Executes (t :: rest) σ o σ'
  | branchTrapped {t rest c a b σ} : t.kind = .conditional → t.children = c :: a :: b →
      evaluate σ c = some .trapped → Executes (t :: rest) σ .trapped σ
  | turn {t rest c a σ σ₁ o σ'} : t.kind = .loop → t.children = [c, a] →
      evaluate σ c = some (.value (.truth true)) → Executes [a] σ .finished σ₁ →
      Executes (t :: rest) σ₁ o σ' → Executes (t :: rest) σ o σ'
  | turnLeft {t rest c a σ o σ'} : t.kind = .loop → t.children = [c, a] →
      evaluate σ c = some (.value (.truth true)) → Executes [a] σ o σ' → o ≠ .finished →
      Executes (t :: rest) σ o σ'
  | loopEnded {t rest c a σ o σ'} : t.kind = .loop → t.children = [c, a] →
      evaluate σ c = some (.value (.truth false)) → Executes rest σ o σ' →
      Executes (t :: rest) σ o σ'
  | loopTrapped {t rest c a σ} : t.kind = .loop → t.children = [c, a] →
      evaluate σ c = some .trapped → Executes (t :: rest) σ .trapped σ
  | returnNothing {t rest σ} : t.kind = .returnStmt → t.children = [] →
      Executes (t :: rest) σ (.returned none) σ
  | returnValue {t rest e v σ} : t.kind = .returnStmt → t.children = [e] →
      evaluate σ e = some (.value v) → Executes (t :: rest) σ (.returned (some v)) σ
  | returnTrapped {t rest e σ} : t.kind = .returnStmt → t.children = [e] →
      evaluate σ e = some .trapped → Executes (t :: rest) σ .trapped σ

/-- The statement assigns to variables, branches, loops and returns, over well
typed expressions on numbers and truth values. -/
inductive ScalarStatement (s : Signature) : Tree → Prop
  | assignment {t x ty e} : t.kind = .assignment → t.get? "name" = some x →
      s.typeOf? x = some ty → t.children = [e] → HasScalarType s e ty → ScalarStatement s t
  | block {t} : t.kind = .block → (∀ c ∈ t.children, ScalarStatement s c) →
      ScalarStatement s t
  | conditional {t c a b} : t.kind = .conditional → t.children = c :: a :: b →
      b.length ≤ 1 → HasScalarType s c .boolean → ScalarStatement s a →
      (∀ e ∈ b, ScalarStatement s e) → ScalarStatement s t
  | loop {t c a} : t.kind = .loop → t.children = [c, a] → HasScalarType s c .boolean →
      ScalarStatement s a → ScalarStatement s t
  | returnNothing {t} : t.kind = .returnStmt → t.children = [] → ScalarStatement s t
  | returnValue {t e ty} : t.kind = .returnStmt → t.children = [e] → HasScalarType s e ty →
      ScalarStatement s t

/-! ### Methods -/

/-- What a method comes to when its statements have come to an outcome: behind
the statements a method that returns nothing returns. -/
def Signature.settle (s : Signature) (o : Outcome) : Outcome :=
  if o = .finished ∧ s.returnType = .void then .returned none else o

/-- The method takes the first store to the second one and comes to an
outcome.  Its statements are those of its children that are statements. -/
def MethodRuns (s : Signature) (t : Tree) (σ : Store) (o : Outcome) (σ' : Store) : Prop :=
  ∃ o', Executes (t.children.filter (·.kind.isStatement)) σ o' σ' ∧ o = s.settle o'

/-- Behind a last return nothing is reached. -/
theorem Executes.last_ne_return {ts : List Tree} {σ σ' : Store} {o : Outcome}
    (h : Executes ts σ o σ') (ho : o = .finished) :
    ∀ t ∈ ts.getLast?, t.kind ≠ .returnStmt := by
  -- a statement that is left at its end is no return
  have last {t : Tree} {rest : List Tree} {k : Kind} (hk : t.kind = k) (hne : k ≠ .returnStmt)
      (hrest : ∀ t ∈ rest.getLast?, t.kind ≠ .returnStmt) :
      ∀ u ∈ (t :: rest).getLast?, u.kind ≠ .returnStmt := by
    intro u hu
    rcases rest with - | ⟨x, rest⟩
    · obtain rfl : t = u := by simpa using hu
      rw [hk]
      exact hne
    · exact hrest u (by simpa [List.getLast?_cons_cons] using hu)
  induction h with
  | nil => simp
  | assignment hk _ _ _ ih | block hk _ _ _ ih | branch hk _ _ _ _ _ ih
  | loopEnded hk _ _ _ ih => exact last hk (by decide) (ih ho)
  | turn hk hcs _ _ _ _ ih => exact ih ho
  | blockLeft _ _ hne | branchLeft _ _ _ _ hne | turnLeft _ _ _ _ hne => exact absurd ho hne
  | assignmentTrapped | branchTrapped | loopTrapped | returnNothing | returnValue
  | returnTrapped => nomatch ho

end JavaMinus
