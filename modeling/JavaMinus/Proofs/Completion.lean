/-
JavaMinus/Proofs/Completion.lean

Where the checks come to an end.

The only thing in a grammatical program that the checks have no case for is an
operator that the kind of its node does not know.  A tree without one is regular
(`Tree.Regular`): all its expressions can be typed, so whatever the checks ask for
there they get, however much they find fault with.  A node with an unknown
operator ends its own check.  So the checks of a program end in a fault just if
there is such a node in the body of a method (`Declarations.exists_analyze_iff`).
-/
import JavaMinus.Proofs.Acceptance
import JavaMinus.Proofs.Bodies

namespace JavaMinus

/-! ### Known operators -/

namespace Tree

/-- Whether the node is no operation, or one with an operator of its kind. -/
def hasKnownOperator (t : Tree) : Bool :=
  let symbol := (t.get? "op").getD ""
  match t.kind with
  | .arithmetic => (ArithmeticOperator.ofSymbol? symbol).isSome
  | .logical => (LogicalOperator.ofSymbol? symbol).isSome
  | _ => true

variable {t u : Tree}

theorem exists_arithmetic_iff (hk : t.kind = .arithmetic) :
    (∃ op, ArithmeticOperator.ofTree t = .ok op) ↔ t.hasKnownOperator := by
  rw [hasKnownOperator, hk, ArithmeticOperator.ofTree]
  rcases ArithmeticOperator.ofSymbol? ((t.get? "op").getD "") with - | op <;> simp

theorem exists_logical_iff (hk : t.kind = .logical) :
    (∃ op, LogicalOperator.ofTree t = .ok op) ↔ t.hasKnownOperator := by
  rw [hasKnownOperator, hk, LogicalOperator.ofTree]
  rcases LogicalOperator.ofSymbol? ((t.get? "op").getD "") with - | op <;> simp

/-- Only an operation can have an operator that is not known. -/
theorem isOperation_of_hasKnownOperator_eq_false (h : t.hasKnownOperator = false) :
    t.kind = .arithmetic ∨ t.kind = .logical := by
  rw [hasKnownOperator] at h
  rcases e : t.kind <;> rw [e] at h <;> simp at h ⊢

theorem isExpression_of_hasKnownOperator_eq_false (h : t.hasKnownOperator = false) :
    t.kind.isExpression := by
  rcases isOperation_of_hasKnownOperator_eq_false h with hk | hk <;> rw [hk] <;> rfl

/-- A tree all of whose nodes are formed and whose operators are known. -/
structure Regular (t : Tree) : Prop where
  formed : t.Formed
  known : ∀ u ∈ t.preorder, u.hasKnownOperator

theorem Regular.child (h : t.Regular) (hu : u ∈ t.children) : u.Regular where
  formed := h.formed.child hu
  known v hv := h.known v (mem_preorder_of_child hu hv)

theorem Regular.of_mem_preorder (h : t.Regular) (hu : u ∈ t.preorder) : u.Regular where
  formed := h.formed.of_mem_preorder hu
  known v hv := h.known v (mem_preorder_trans hv t hu)

theorem Regular.self_known (h : t.Regular) : t.hasKnownOperator := h.known t t.mem_preorder_self

end Tree

/-! ### Typing comes to an end -/

open Declarations in
/-- A regular expression has a type, or any type is assumed for it. -/
theorem Tree.Regular.exists_typeOf (d : Declarations) (scope : Option String) :
    ∀ t : Tree, t.Regular → t.kind.isExpression → ∃ ty, d.typeOf scope t = .ok ty := by
  refine Tree.induction ?_
  intro t ih h hk
  have hformed := h.formed.self
  have hpart : ∀ u ∈ t.children, ∃ ty, d.typeOf scope u = .ok ty := fun u hu =>
    ih u hu (h.child hu) (Tree.isExpression_of_child hformed hk hu)
  -- operators are looked up, which is where the tree has to be regular
  rcases e : t.kind <;> rw [e] at hk <;> try cases hk
  case integer => exact ⟨_, typeOf_integer e⟩
  case boolean => exact ⟨_, typeOf_boolean e⟩
  case identifier =>
    rcases hb : d.identifier? scope t with - | b
    · exact ⟨_, typeOf_unbound e hb⟩
    · exact ⟨_, typeOf_identifier e hb⟩
  case self => exact ⟨_, typeOf_self e⟩
  case arithmetic =>
    obtain ⟨op, hop⟩ := (Tree.exists_arithmetic_iff e).mpr h.self_known
    exact ⟨_, typeOf_arithmetic e hop⟩
  case logical =>
    obtain ⟨op, hop⟩ := (Tree.exists_logical_iff e).mpr h.self_known
    exact ⟨_, typeOf_logical e hop⟩
  case call =>
    obtain ⟨receiver, arguments, hcs, -⟩ := Tree.call_of_isFormed hformed e
    obtain ⟨ty, hty⟩ := hpart receiver (Tree.mem_children_of_eq_cons hcs)
    rw [typeOf_call _ _ _ e]
    exact ⟨_, callType_ok hcs hty⟩
  case elementRead =>
    obtain ⟨array, index, hcs, -⟩ := Tree.exists_two_of_isFormed hformed (by rw [e]; decide)
    obtain ⟨ty, hty⟩ := hpart array (Tree.mem_children_of_eq_cons hcs)
    exact ⟨_, typeOf_elementRead_eq e hcs hty⟩
  case arrayLiteral =>
    rcases hcs : t.children with - | ⟨first, rest⟩
    · exact ⟨_, typeOf_emptyLiteral e hcs⟩
    · obtain ⟨ty, hty⟩ := hpart first (Tree.mem_children_of_eq_cons hcs)
      exact ⟨_, typeOf_arrayLiteral e hcs hty⟩
  case newObject => exact ⟨_, typeOf_newObject e⟩
  case newArray => exact ⟨_, typeOf_newArray e⟩
  case length => exact ⟨_, typeOf_length e⟩

/-! ### Reviews that come to an end -/

namespace Review

variable {α β : Type} {x : Review α}

/-- A review that ends in a result, whatever it finds. -/
def Completes (x : Review α) : Prop := ∃ a, x.outcome = .ok a

theorem completes_pure (a : α) : (pure a : Review α).Completes := ⟨a, rfl⟩

theorem completes_found (fs : List Finding) : (found fs).Completes := ⟨(), rfl⟩

theorem completes_report (p : Place) (problem : Problem) : (report p problem).Completes :=
  completes_found _

theorem completes_reportIf (condition : Bool) (p : Place) (problem : Problem) :
    (reportIf condition p problem).Completes := by
  cases condition with
  | false => exact completes_pure ()
  | true => exact completes_report p problem

theorem completes_ofExcept {outcome : Except Fault α} {a : α} (h : outcome = .ok a) :
    (ofExcept outcome).Completes := ⟨a, h⟩

theorem Completes.bind {f : α → Review β} (hx : x.Completes) (hf : ∀ a, (f a).Completes) :
    (x >>= f).Completes := by
  obtain ⟨a, ha⟩ := hx
  obtain ⟨b, hb⟩ := hf a
  refine ⟨b, ?_⟩
  rw [outcome_bind, ha]
  exact hb

/-- A sequence that comes to an end is one of reviews that do. -/
theorem Completes.left {f : α → Review β} (h : (x >>= f).Completes) : x.Completes := by
  obtain ⟨b, hb⟩ := h
  rw [outcome_bind] at hb
  rcases e : x.outcome with fault | a
  · rw [e] at hb
    nomatch hb
  · exact ⟨a, e⟩

/-- What is done after a review in a sequence that comes to an end does so, too. -/
theorem Completes.right {f : α → Review β} (h : (x >>= f).Completes) :
    ∃ a, x.outcome = .ok a ∧ (f a).Completes := by
  obtain ⟨a, ha⟩ := h.left
  obtain ⟨b, hb⟩ := h
  rw [outcome_bind, ha] at hb
  exact ⟨a, ha, b, hb⟩

theorem completes_forM {f : α → Review Unit} {xs : List α} :
    (xs.forM f).Completes ↔ ∀ x ∈ xs, (f x).Completes := by
  induction xs with
  | nil => exact ⟨fun _ => nofun, fun _ => completes_pure ()⟩
  | cons x rest ih =>
    rw [List.forall_mem_cons, ← ih]
    constructor
    · intro h
      have h : (f x >>= fun _ => rest.forM f).Completes := h
      obtain ⟨a, ha, hrest⟩ := h.right
      exact ⟨⟨a, ha⟩, hrest⟩
    · rintro ⟨hx, hrest⟩
      exact hx.bind fun _ => hrest

end Review

/-! ### The checks of regular places -/

namespace Place

open Review

variable {d : Declarations} {p c value site : Place} {ty : Ty}

/-- A place at which a regular expression stands. -/
structure Typable (c : Place) : Prop where
  regular : c.tree.Regular
  expression : c.tree.kind.isExpression

theorem Typable.exists_type (h : c.Typable) : ∃ ty, c.type d = .ok ty :=
  Tree.Regular.exists_typeOf d c.method? c.tree h.regular h.expression

theorem Typable.typed (h : c.Typable) : (c.typed d).Completes := by
  obtain ⟨ty, hty⟩ := h.exists_type (d := d)
  exact completes_ofExcept hty

/-- What is looked at where the type is known. -/
theorem Typable.completes_known {f : Ty → Review Unit} (h : value.Typable)
    (hf : ∀ ty, (f ty).Completes) :
    Completes (do match ← value.typed d with
      | none => pure ()
      | some ty => f ty) := by
  refine h.typed.bind fun found => ?_
  cases found with
  | none => exact completes_pure ()
  | some ty => exact hf ty

theorem completes_wantType {problem : Ty → Problem} (h : value.Typable) :
    (wantType d ty problem value site).Completes := by
  rw [wantType_eq]
  exact h.completes_known fun _ => completes_reportIf _ _ _

theorem completes_wantCompatible (h : value.Typable) :
    (wantCompatible d ty value site).Completes := by
  rw [wantCompatible_eq]
  exact h.completes_known fun _ => completes_reportIf _ _ _

theorem completes_wantArray {problem : String → Problem} (h : value.Typable) :
    (wantArray d problem value site).Completes := by
  rw [wantArray_eq]
  exact h.completes_known fun _ => completes_reportIf _ _ _

theorem mem_children_of_child? {i : Nat} (hc : p.child? i = some c) : c ∈ p.children :=
  List.mem_of_getElem? hc

theorem tree_mem_children (hc : c ∈ p.children) : c.tree ∈ p.tree.children := by
  obtain ⟨t, ht, rfl⟩ := List.mem_map.mp hc
  exact ht

/-- All children of a node are expressions if it is one itself, or a statement
without statements in it. -/
def isOverExpressions (kind : Kind) : Bool :=
  kind.isExpression || [.assignment, .elementAssignment, .expressionStmt, .returnStmt].contains kind

theorem typable_of_mem_children (h : p.tree.Regular) (hk : isOverExpressions p.tree.kind)
    (hc : c ∈ p.children) : c.Typable := by
  have hmem := tree_mem_children hc
  refine ⟨h.child hmem, ?_⟩
  rcases Bool.or_eq_true_iff.mp hk with hexpression | hsimple
  · exact Tree.isExpression_of_child h.formed.self hexpression hmem
  · exact Tree.isExpression_of_child_of_simple h.formed.self (List.contains_iff_mem.mp hsimple) hmem

section Checks

variable (h : p.tree.Regular)
include h

theorem typable_of_child? (hk : isOverExpressions p.tree.kind) {i : Nat}
    (hc : p.child? i = some c) : c.Typable :=
  typable_of_mem_children h hk (mem_children_of_child? hc)

/-- The condition of a branch or a loop is its first child. -/
theorem typable_of_condition (hk : p.tree.kind = .conditional ∨ p.tree.kind = .loop)
    (hc : p.child? 0 = some c) : c.Typable := by
  refine ⟨h.child (tree_mem_children (mem_children_of_child? hc)), ?_⟩
  rw [child?_eq] at hc
  rcases hk with hk | hk
  · obtain ⟨condition, a, b, hcs, hcondition, -⟩ := Tree.conditional_of_isFormed h.formed.self hk
    rw [hcs] at hc
    rw [← Option.some.inj hc]
    exact hcondition
  · obtain ⟨condition, a, hcs, hcondition, -⟩ := Tree.loop_of_isFormed h.formed.self hk
    rw [hcs] at hc
    rw [← Option.some.inj hc]
    exact hcondition

theorem completes_checkOperands (hk : isOverExpressions p.tree.kind) :
    (p.checkOperands d ty).Completes := by
  rw [checkOperands_eq]
  split
  · next left right hleft hright =>
    have hl := typable_of_child? h hk hleft
    have hr := typable_of_child? h hk hright
    exact hl.typed.bind fun _ => hr.typed.bind fun _ => completes_reportIf _ _ _
  · exact completes_pure ()

theorem completes_checkArithmetic (hk : p.tree.kind = .arithmetic) :
    (p.checkArithmetic d).Completes := by
  obtain ⟨op, hop⟩ := (Tree.exists_arithmetic_iff hk).mpr h.self_known
  rw [checkArithmetic_eq]
  refine (completes_ofExcept hop).bind fun _ => ?_
  exact completes_checkOperands h (by rw [hk]; rfl)

theorem completes_checkLogical (hk : p.tree.kind = .logical) : (p.checkLogical d).Completes := by
  obtain ⟨op, hop⟩ := (Tree.exists_logical_iff hk).mpr h.self_known
  rw [checkLogical_eq]
  refine (completes_ofExcept hop).bind fun _ => ?_
  exact completes_checkOperands h (by rw [hk]; rfl)

theorem completes_checkCondition (hk : p.tree.kind = .conditional ∨ p.tree.kind = .loop) :
    (p.checkCondition d).Completes := by
  rw [checkCondition_eq]
  split
  · exact completes_pure ()
  · next condition hcondition => exact completes_wantType (typable_of_condition h hk hcondition)

theorem completes_checkLoop (hk : p.tree.kind = .loop) : (p.checkLoop d).Completes := by
  rw [checkLoop_eq]
  exact (completes_checkCondition h (Or.inr hk)).bind fun _ => completes_found _

theorem completes_checkAssignedValue (hk : isOverExpressions p.tree.kind) :
    (p.checkAssignedValue d).Completes := by
  rw [checkAssignedValue_eq]
  split
  · next target value _ hvalue =>
    split
    · exact completes_pure ()
    · refine (typable_of_child? h hk hvalue).completes_known fun source => ?_
      split
      · exact completes_pure ()
      · exact completes_report _ _
  · exact completes_pure ()

theorem completes_checkAssignedElement (hk : isOverExpressions p.tree.kind) :
    (p.checkAssignedElement d).Completes := by
  rw [checkAssignedElement_eq]
  split
  · exact completes_pure ()
  · split
    · exact completes_report _ _
    · next element _ =>
      have hvalue : ∀ value, p.child? 1 = some value →
          (wantCompatible d element value p).Completes := fun value hvalue =>
        completes_wantCompatible (typable_of_child? h hk hvalue)
      simp only
      split
      · split
        · exact completes_pure ()
        · next value hchild => exact hvalue value hchild
      · next index hindex =>
        refine (completes_wantType (typable_of_child? h hk hindex)).bind fun _ => ?_
        split
        · exact completes_pure ()
        · next value hchild => exact hvalue value hchild

theorem completes_checkReturn (hk : isOverExpressions p.tree.kind) :
    (p.checkReturn d).Completes := by
  rw [checkReturn_eq]
  split
  · exact completes_pure ()
  · simp only
    split
    · exact completes_reportIf _ _ _
    · next value hvalue =>
      split
      · exact completes_pure ()
      · exact (typable_of_child? h hk hvalue).completes_known fun _ => completes_reportIf _ _ _

theorem completes_checkElementRead (hk : isOverExpressions p.tree.kind) :
    (p.checkElementRead d).Completes := by
  rw [checkElementRead_eq]
  split
  · next array index harray hindex =>
    exact (completes_wantArray (typable_of_child? h hk harray)).bind fun _ =>
      completes_wantType (typable_of_child? h hk hindex)
  · exact completes_pure ()

theorem completes_checkLength (hk : isOverExpressions p.tree.kind) :
    (p.checkLength d).Completes := by
  rw [checkLength_eq]
  split
  · exact completes_pure ()
  · next array harray => exact completes_wantArray (typable_of_child? h hk harray)

theorem completes_checkArrayLiteral (hk : isOverExpressions p.tree.kind) :
    (p.checkArrayLiteral d).Completes := by
  have htyped : ∀ c ∈ p.children, ∃ ty, c.type d = .ok ty := fun c hc =>
    (typable_of_mem_children h hk hc).exists_type
  obtain ⟨types, htypes⟩ := exists_mapM_ok_iff.mpr htyped
  rw [checkArrayLiteral_eq]
  exact (completes_ofExcept htypes).bind fun types =>
    (completes_found _).bind fun _ => completes_found _

end Checks

theorem completes_checkTarget : (p.checkTarget d).Completes := by
  rw [checkTarget_eq]
  exact (completes_reportIf _ _ _).bind fun _ => completes_reportIf _ _ _

/-! ### Calls -/

theorem completes_checkFixedArguments {arguments : List Place} {parameters : List Variable}
    (h : ∀ a ∈ arguments, a.Typable) : (checkFixedArguments d arguments parameters).Completes := by
  induction arguments generalizing parameters with
  | nil => exact completes_pure ()
  | cons a rest ih =>
    cases parameters with
    | nil => exact completes_pure ()
    | cons parameter parameters =>
      rw [checkFixedArguments_cons]
      refine (completes_wantCompatible (h a (List.mem_cons_self ..))).bind fun _ => ?_
      exact ih fun b hb => h b (List.mem_cons_of_mem _ hb)

theorem exists_areOneArray (element : Ty) {arguments : List Place}
    (h : ∀ a ∈ arguments, a.Typable) : ∃ single, areOneArray d element arguments = .ok single := by
  rw [areOneArray.eq_def]
  split
  · next single =>
    obtain ⟨found, hfound⟩ := (h single (List.mem_singleton_self _)).exists_type (d := d)
    rw [hfound]
    exact ⟨_, rfl⟩
  · exact ⟨false, rfl⟩

theorem completes_checkOpenArguments {arguments : List Place} (h : ∀ a ∈ arguments, a.Typable) :
    (checkOpenArguments d ty arguments).Completes := by
  obtain ⟨single, hsingle⟩ := exists_areOneArray (d := d) ty h
  rw [checkOpenArguments_eq]
  refine (completes_ofExcept hsingle).bind fun single => ?_
  cases single with
  | true => exact completes_pure ()
  | false => exact completes_forM.mpr fun a ha => completes_wantType (h a ha)

theorem completes_checkArguments {method : String} (h : ∀ a ∈ p.arguments, a.Typable) :
    (p.checkArguments d method).Completes := by
  rw [checkArguments_eq]
  dsimp only
  split
  · split
    · exact completes_checkFixedArguments h
    · exact completes_report _ _
  · split
    · exact (completes_checkFixedArguments h).bind fun _ =>
        completes_checkOpenArguments fun a ha => h a (List.mem_of_mem_drop ha)
    · exact completes_report _ _

theorem exists_callsImport (h : p.tree.Regular) (hk : isOverExpressions p.tree.kind) :
    ∃ onImport, p.callsImport d = .ok onImport := by
  rw [callsImport]
  split
  · exact ⟨false, rfl⟩
  · next receiver hreceiver =>
    obtain ⟨ty, hty⟩ := (typable_of_child? h hk hreceiver).exists_type (d := d)
    rw [hty]
    dsimp only
    split
    · split
      · exact ⟨false, rfl⟩
      · split
        · exact ⟨true, rfl⟩
        · exact ⟨_, rfl⟩
    · exact ⟨_, rfl⟩

theorem completes_checkCall (h : p.tree.Regular) (hk : p.tree.kind = .call) :
    (p.checkCall d).Completes := by
  have hover : isOverExpressions p.tree.kind := by
    rw [hk]
    rfl
  obtain ⟨receiver, arguments, hcs, hparts⟩ := Tree.call_of_isFormed h.formed.self hk
  have hreceiver : receiver ∈ p.tree.children := Tree.mem_children_of_eq_cons hcs
  obtain ⟨ty, hty⟩ := Tree.Regular.exists_typeOf d p.method? receiver (h.child hreceiver)
    (hparts receiver hreceiver)
  -- the only step that can fail is the type of the receiver
  have htarget : d.targetsOwnClass p.method? p.tree = .ok (d.isOwnType ty) := by
    rw [Declarations.targetsOwnClass, hcs]
    simp only [hty]
    rfl
  obtain ⟨onImport, honImport⟩ := exists_callsImport (d := d) h hover
  rw [checkCall_eq]
  refine (completes_ofExcept honImport).bind fun _ => ?_
  split
  · exact completes_pure ()
  · split
    · refine (completes_ofExcept htarget).bind fun own => ?_
      split
      · refine completes_checkArguments fun a ha => ?_
        exact typable_of_mem_children h hover (List.mem_of_mem_drop ha)
      · exact completes_pure ()
    · exact completes_reportIf _ _ _

/-! ### Every check -/

/-- The check of a regular place comes to an end. -/
theorem completes_check (h : p.tree.Regular) : (p.check d).Completes := by
  rw [check_eq]
  rcases e : p.tree.kind
  case program | classDecl | methodDecl => exact completes_found _
  case assignment =>
    rw [checkAssignment_eq]
    exact completes_checkTarget.bind fun _ => completes_checkAssignedValue h (by rw [e]; rfl)
  case elementAssignment =>
    rw [checkElementAssignment_eq]
    exact completes_checkTarget.bind fun _ => completes_checkAssignedElement h (by rw [e]; rfl)
  case returnStmt => exact completes_checkReturn h (by rw [e]; rfl)
  case conditional => exact completes_checkCondition h (Or.inl e)
  case loop => exact completes_checkLoop h e
  case identifier =>
    rw [checkIdentifier_eq]
    exact (completes_reportIf _ _ _).bind fun _ => completes_reportIf _ _ _
  case self =>
    rw [checkSelf_eq]
    exact completes_reportIf _ _ _
  case arithmetic => exact completes_checkArithmetic h e
  case logical => exact completes_checkLogical h e
  case call => exact completes_checkCall h e
  case elementRead => exact completes_checkElementRead h (by rw [e]; rfl)
  case arrayLiteral => exact completes_checkArrayLiteral h (by rw [e]; rfl)
  case length => exact completes_checkLength h (by rw [e]; rfl)
  all_goals exact completes_pure ()

/-- An operation whose check comes to an end has a known operator. -/
theorem hasKnownOperator_of_completes (h : (p.check d).Completes) : p.tree.hasKnownOperator := by
  by_contra hunknown
  have hunknown : p.tree.hasKnownOperator = false := by simpa using hunknown
  refine absurd ?_ (ne_true_of_eq_false hunknown)
  rw [check_eq] at h
  -- the operator is the first thing that the check of an operation looks at
  rcases Tree.isOperation_of_hasKnownOperator_eq_false hunknown with hk | hk
  · simp only [hk, checkArithmetic_eq] at h
    obtain ⟨op, hop⟩ := Completes.left h
    exact (Tree.exists_arithmetic_iff hk).mp ⟨op, hop⟩
  · simp only [hk, checkLogical_eq] at h
    obtain ⟨op, hop⟩ := Completes.left h
    exact (Tree.exists_logical_iff hk).mp ⟨op, hop⟩

end Place

/-! ### The checks of a program -/

namespace Tree

variable {root : Tree}

/-- An operator is unknown only in the body of a method. -/
theorem exists_unknown_iff (hgrammar : root.isGrammatical) :
    (∃ u ∈ root.preorder, u.hasKnownOperator = false) ↔
      ∃ u ∈ root.bodyTrees, u.hasKnownOperator = false := by
  constructor
  · rintro ⟨u, hu, hunknown⟩
    obtain ⟨q, hq, rfl⟩ := Place.exists_of_mem_preorder (p := .top root) hu
    have hexpression := isExpression_of_hasKnownOperator_eq_false hunknown
    exact ⟨q.tree, Place.mem_bodyTrees hgrammar hq hexpression, hunknown⟩
  · rintro ⟨u, hu, hunknown⟩
    exact ⟨u, mem_preorder_of_bodyTrees hu, hunknown⟩

/-- A grammatical program whose operators are all known is regular. -/
theorem regular_of_isGrammatical (hgrammar : root.isGrammatical)
    (hknown : ¬ ∃ u ∈ root.bodyTrees, u.hasKnownOperator = false) : root.Regular where
  formed := formed_of_isGrammatical hgrammar
  known u hu := by
    by_contra hunknown
    refine hknown ((exists_unknown_iff hgrammar).mp ⟨u, hu, ?_⟩)
    simpa using hunknown

end Tree

namespace Declarations

variable {d : Declarations} {root : Tree}

theorem analyze_eq_ok_iff {p : Place} :
    (∃ diagnostics, d.analyze p = .ok diagnostics) ↔ ∀ q ∈ p.preorder, (q.check d).Completes := by
  rw [← Review.completes_forM, ← Place.review_eq, analyze_eq]
  show _ ↔ ∃ a, (p.review d).outcome = .ok a
  rcases e : (p.review d).outcome with fault | a
  · exact ⟨nofun, nofun⟩
  · exact ⟨fun _ => ⟨a, rfl⟩, fun _ => ⟨_, rfl⟩⟩

/-- The checks of a grammatical program come to an end just if its operators
are all known. -/
theorem exists_analyze_iff (hgrammar : root.isGrammatical) :
    (∃ diagnostics, d.analyze (.top root) = .ok diagnostics) ↔
      ¬ ∃ u ∈ root.bodyTrees, u.hasKnownOperator = false := by
  rw [analyze_eq_ok_iff]
  constructor
  · rintro hcompletes ⟨u, hu, hunknown⟩
    obtain ⟨q, hq, rfl⟩ :=
      Place.exists_of_mem_preorder (p := .top root) (Tree.mem_preorder_of_bodyTrees hu)
    rw [Place.hasKnownOperator_of_completes (hcompletes q hq)] at hunknown
    nomatch hunknown
  · intro hknown q hq
    have hroot := Tree.regular_of_isGrammatical hgrammar hknown
    exact Place.completes_check (hroot.of_mem_preorder (Place.tree_mem_preorder hq))

end Declarations

end JavaMinus
