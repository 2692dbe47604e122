/-
JavaMinus/Proofs/ThreeAddress/Returns.lean

What methods return that are declared to return nothing.

A return of a value is found fault with in a `void` method, whatever the type of
the value is, as long as it has one.  Where any type is assumed for the value,
the check is left before it is told that nothing is to be returned.  So the
values that the `void` methods of a program without findings return are calls of
methods that the class does not declare, or elements read from what such calls
give (`kind_of_typeOf_none`), and each of them is written into the method as the
operand of a return (`void_returns`).
-/
import JavaMinus.Proofs.Crossing
import JavaMinus.Proofs.Scopes
import JavaMinus.Proofs.ThreeAddress.Paths

namespace JavaMinus

namespace Tree

/-- The statement returns a value. -/
def returnsValue (t : Tree) : Bool := t.kind == .returnStmt && !t.children.isEmpty

variable {t : Tree}

theorem returnsValue_of_kind (h : t.kind ≠ .returnStmt) : t.returnsValue = false := by
  rw [returnsValue, beq_false_of_ne h, Bool.false_and]

theorem isExpression_of_mem_preorder (t : Tree) :
    t.Formed → t.kind.isExpression → ∀ u ∈ t.preorder, u.kind.isExpression := by
  induction t using Tree.induction with
  | step t ih =>
    intro hformed hk u hu
    rcases mem_preorder.mp hu with rfl | ⟨c, hc, hmem⟩
    · exact hk
    · exact ih c hc (hformed.child hc) (isExpression_of_child hformed.self hk hc) u hmem

/-- No value is returned inside an expression. -/
theorem countP_returnsValue_of_isExpression (hformed : t.Formed) (hk : t.kind.isExpression) :
    t.preorder.countP returnsValue = 0 := by
  apply List.countP_eq_zero.mpr
  intro u hu
  have hexpression := isExpression_of_mem_preorder t hformed hk u hu
  rw [returnsValue_of_kind fun hreturn => by rw [hreturn] at hexpression; nomatch hexpression]
  exact Bool.false_ne_true

theorem countP_preorderAll_eq_zero {ts : List Tree}
    (h : ∀ u ∈ ts, u.preorder.countP returnsValue = 0) :
    (preorderAll ts).countP returnsValue = 0 := by
  induction ts with
  | nil => rfl
  | cons t rest ih =>
    rw [preorderAll, List.countP_append, h t (List.mem_cons_self ..),
      ih fun u hu => h u (List.mem_cons_of_mem _ hu)]

/-- A statement that is no return returns what the statements in it return. -/
theorem countP_preorder (h : t.kind ≠ .returnStmt) :
    t.preorder.countP returnsValue = (preorderAll t.children).countP returnsValue := by
  rw [preorder_eq, List.countP_cons_of_neg]
  · rfl
  · rw [returnsValue_of_kind h]
    exact Bool.false_ne_true

end Tree

/-! ### What the check lets pass -/

namespace Declarations

variable {d : Declarations} {scope : Option String} {t : Tree}

/-- Any type is assumed only for calls and for what is read from their
results. -/
theorem kind_of_typeOf_none (h : d.typeOf scope t = .ok none) :
    t.kind = .call ∨ t.kind = .elementRead := by
  obtain ⟨head, cs⟩ := t
  show head.kind = .call ∨ head.kind = .elementRead
  rw [typeOf.eq_def] at h
  -- the other forms have a type, or their operator is unknown
  cases hk : head.kind with
  | call => exact Or.inl rfl
  | elementRead => exact Or.inr rfl
  | arithmetic =>
    simp only [hk] at h
    cases hinner : ArithmeticOperator.ofTree (.node head cs) <;> rw [hinner] at h <;> cases h
  | logical =>
    simp only [hk] at h
    cases hinner : LogicalOperator.ofTree (.node head cs) <;> rw [hinner] at h <;> cases h
  | arrayLiteral =>
    simp only [hk] at h
    cases cs with
    | nil => cases h
    | cons first rest =>
      simp only at h
      cases hinner : d.typeOf scope first <;> rw [hinner] at h <;> cases h
  | _ =>
    simp only [hk] at h
    cases h

end Declarations

namespace Place

variable {d : Declarations} {p value : Place} {method : String} {found : Option Ty}

/-- A value is returned from a `void` method without a finding just if any type
is assumed for it. -/
theorem checkReturn_eq_pure_iff (hmethod : p.method? = some method)
    (hvoid : (d.returnType? method).getD .void = .void) (hvalue : p.child? 0 = some value)
    (hbound : value.isUnboundIdentifier d = false) (htype : value.type d = .ok found) :
    p.checkReturn d = pure () ↔ found = none := by
  simp only [checkReturn_eq, hmethod, hvoid, hvalue, hbound, Bool.false_eq_true, if_false,
    typed_bind htype, beq_self_eq_true, Bool.true_or]
  cases found with
  | none => exact iff_of_true rfl rfl
  | some actual => exact iff_of_false Review.report_ne_pure (Option.some_ne_none actual)

end Place

namespace ThreeAddress

/-- The line returns a value. -/
def Line.returnsValue : Line → Bool
  | ret _ (some _) => true
  | _ => false

variable {d : Declarations} {scope : Option String} {result : Ty} {t : Tree} {ts : List Tree}
  {ls : List Line} {c c' : Counters}

theorem countP_returnsValue_of_straight (h : ∀ l ∈ ls, l.isStraight) :
    ls.countP Line.returnsValue = 0 := by
  apply List.countP_eq_zero.mpr
  intro l hl hreturns
  have hstraight := h l hl
  cases l with
  | ret tag x => nomatch hstraight
  | _ => nomatch hreturns

/-- As many lines return a value as statements do. -/
def LowersValueReturns (d : Declarations) (scope : Option String) (result : Ty) (t : Tree) : Prop :=
  ∀ c ls c', YieldsLines d scope result t c ls c' →
    ls.countP Line.returnsValue = t.preorder.countP Tree.returnsValue

theorem YieldsBlock.countP_of_each (h : YieldsBlock d scope result ts c ls c')
    (hts : ∀ u ∈ ts, LowersValueReturns d scope result u) :
    ls.countP Line.returnsValue = (Tree.preorderAll ts).countP Tree.returnsValue := by
  induction h with
  | nil => rfl
  | cons hls _ ih =>
    rw [Tree.preorderAll, List.countP_append, List.countP_append,
      hts _ (List.mem_cons_self ..) _ _ _ hls, ih fun u hu => hts u (List.mem_cons_of_mem _ hu)]

theorem lowersValueReturns (d : Declarations) (scope : Option String) (result : Ty) (t : Tree) :
    t.Formed → t.kind.isStatement → LowersValueReturns d scope result t := by
  induction t using Tree.induction with
  | step t ih =>
    intro hformed hk c ls c' h
    have hpart {u : Tree} (hu : u ∈ t.children) (hstatement : u.kind.isStatement) :=
      ih u hu (hformed.child hu) hstatement
    have hnone {e : Tree} (he : e ∈ t.children) (hexpression : e.kind.isExpression) :
        e.preorder.countP Tree.returnsValue = 0 :=
      Tree.countP_returnsValue_of_isExpression (hformed.child he) hexpression
    cases h.laidOut with
    | straight hkind hstraight _ =>
      have hne : t.kind ≠ .returnStmt := fun hreturn => by
        rw [hreturn] at hkind
        simp at hkind
      rw [countP_returnsValue_of_straight hstraight, Tree.countP_preorder hne, eq_comm]
      refine Tree.countP_preorderAll_eq_zero fun u hu => hnone hu ?_
      exact Tree.isExpression_of_child_of_simple hformed.self (by simp at hkind ⊢; tauto) hu
    | @ret code x _ hkind hcode hiff _ =>
      -- the value holds no return, so the statement counts alone
      have hparts : (Tree.preorderAll t.children).countP Tree.returnsValue = 0 :=
        Tree.countP_preorderAll_eq_zero fun u hu => hnone hu
          (Tree.isExpression_of_child_of_simple hformed.self (by simp [hkind]) hu)
      have hvalue : t.returnsValue = !t.children.isEmpty := by
        rw [Tree.returnsValue, hkind, beq_self_eq_true, Bool.true_and]
      rw [List.countP_append, countP_returnsValue_of_straight hcode, Tree.preorder_eq,
        List.countP_cons, List.countP_cons, Tree.descendants, hparts, hvalue]
      cases x with
      | none => rw [hiff.mp rfl]; rfl
      | some x =>
        have hne : t.children.isEmpty = false :=
          List.isEmpty_eq_false_iff.mpr fun hcs => Option.some_ne_none x (hiff.mpr hcs)
        rw [hne]
        rfl
    | conditional hkind hcs hx _ hthen helse =>
      obtain ⟨he, hfirst, second, rfl, hsecond⟩ :=
        Tree.conditional_of_eq_cons hformed.self hkind hcs
      have hthenCount := hpart (by simp [hcs]) hfirst _ _ _ hthen
      have helseCount := helse.countP_of_each fun u hu => by
        rw [List.mem_singleton.mp hu]
        exact hpart (by simp [hcs]) hsecond
      have hcondition := hnone (by simp [hcs]) he
      rw [Tree.countP_preorder (by rw [hkind]; decide), hcs, conditionalLines]
      -- the else-part is written first
      simp only [List.countP_append, countP_returnsValue_of_straight hx, hthenCount, helseCount,
        List.countP_cons, List.countP_nil, List.take_succ_cons, List.take_zero, Line.returnsValue,
        Tree.preorderAll, hcondition]
      simp [Nat.add_comm]
    | loop hkind hcs hx _ hbody =>
      obtain ⟨he, hstatement, rfl⟩ := Tree.loop_of_eq_cons hformed.self hkind hcs
      have hbodyCount := hpart (by simp [hcs]) hstatement _ _ _ hbody
      have hcondition := hnone (by simp [hcs]) he
      rw [Tree.countP_preorder (by rw [hkind]; decide), hcs, loopLines]
      simp [countP_returnsValue_of_straight hx, hbodyCount, Line.returnsValue, Tree.preorderAll,
        hcondition]
    | block hkind hls =>
      rw [Tree.countP_preorder (by rw [hkind]; decide)]
      exact hls.countP_of_each fun u hu =>
        hpart hu (Tree.block_of_isFormed hformed.self hkind u hu)

theorem countP_addedReturn (result : Ty) (ts : List Tree) :
    (addedReturn result ts).countP Line.returnsValue = 0 := by
  rcases addedReturn_cases result ts with ⟨-, hadded⟩ | ⟨hadded, -⟩
  · rw [hadded]
    rfl
  · rw [hadded]
    rfl

/-! ### Methods that are declared to return nothing -/

/-- What a method comes to that is declared to return nothing: its returns are those
of `void`, one with an operand for each statement that returns a value, and of such a
value nothing is known. -/
structure ReturnsVoid (d : Declarations) (t : Tree) (m : Method) : Prop where
  tags : ∀ tag x, .ret tag x ∈ m.body → tag = .void
  count : m.body.countP Line.returnsValue =
    (Tree.preorderAll (statements t)).countP Tree.returnsValue
  values : ∀ s ∈ statements t, ∀ u ∈ s.preorder, u.kind = .returnStmt → ∀ e ∈ u.children,
    d.typeOf (some t.name) e = .ok none ∧ (e.kind = .call ∨ e.kind = .elementRead)

section Program

variable {root : Tree} {m : Method}

/-- The value of a return in a `void` method has no known type. -/
theorem typeOf_of_returned {s u e : Tree} (hgrammar : root.isGrammatical)
    (hclean : d.analyze (.top root) = .ok .empty) (ht : t ∈ root.methodTrees)
    (hvoid : (d.returnType? t.name).getD .void = .void) (hs : s ∈ statements t)
    (hu : u ∈ s.preorder) (hk : u.kind = .returnStmt) (he : e ∈ u.children) :
    d.typeOf (some t.name) e = .ok none := by
  obtain ⟨q, hq, rfl, hmethod⟩ := Place.exists_of_statement hgrammar ht hs hu
  rw [Tree.get?_name_of_mem_methodTrees hgrammar ht] at hmethod
  have hregular : q.tree.Regular := (Tree.regular_of_isGrammatical hgrammar
    ((Declarations.exists_analyze_iff hgrammar).mp ⟨_, hclean⟩)).of_mem_preorder
      (Place.tree_mem_preorder hq)
  obtain ⟨value, hcs, hexpression⟩ :=
    (Tree.returnStmt_of_isFormed hregular.formed.self hk).resolve_left (List.ne_nil_of_mem he)
  obtain rfl : e = value := by rwa [hcs, List.mem_singleton] at he
  let p : Place := ⟨e, q.around⟩
  have hchild : q.child? 0 = some p := by rw [Place.child?_eq, hcs]; rfl
  have hscope : p.method? = some t.name :=
    (Place.method?_of_part he (Or.inl hexpression)).trans hmethod
  have hinside : p ∈ q.preorder :=
    Place.mem_preorder_of_child (Place.mem_children_of_child? hchild) p.mem_preorder_self
  have hp : p ∈ (Place.top root).preorder := Place.mem_preorder_trans hinside root [] hq
  -- a name that denotes nothing is found where it stands
  have hbound : p.isUnboundIdentifier d = false := by
    by_contra hunbound
    have hfound := Place.undefinedVariable_mem (d := d) (by simpa using hunbound)
    rw [Declarations.check_eq_pure hclean p hp] at hfound
    nomatch hfound
  obtain ⟨found, htype⟩ :=
    Tree.Regular.exists_typeOf d (some t.name) e (hregular.child he) hexpression
  have hcheck := Declarations.check_eq_pure hclean q hq
  rw [Place.check_eq, hk] at hcheck
  have hplace : p.type d = .ok found := by rw [Place.type, hscope, htype]
  have hnone := (Place.checkReturn_eq_pure_iff hmethod hvoid hchild hbound hplace).mp hcheck
  rw [htype, hnone]

theorem returnsVoid_of_lowerMethod (hgrammar : root.isGrammatical)
    (hclean : d.analyze (.top root) = .ok .empty) (ht : t ∈ root.methodTrees)
    (hrun : (lowerMethod d t).run c = .ok (m, c'))
    (hvoid : (d.returnType? t.name).getD .void = .void) : ReturnsVoid d t m := by
  obtain ⟨-, hresult, ls, hls, hbody⟩ := lowerMethod_eq_ok hrun
  have hformed := (Tree.formed_of_isGrammatical hgrammar).methodTree ht
  constructor
  · intro tag x hmem
    rw [(ret_of_lowerMethod hgrammar hclean ht hrun hmem).1, hresult, hvoid]
    rfl
  · rw [hbody, List.countP_append, countP_addedReturn, Nat.add_zero]
    exact hls.countP_of_each fun s hs =>
      lowersValueReturns _ _ _ s (hformed.statement hs) (Tree.mem_statements.mp hs).2
  · intro s hs u hu hk e he
    have hnone := typeOf_of_returned hgrammar hclean ht hvoid hs hu hk he
    exact ⟨hnone, Declarations.kind_of_typeOf_none hnone⟩

/-- **Returns from `void`.**  In a program without findings the values that a method
returns which is declared to return nothing are such as any type is assumed for, and
as many of its returns have an operand as there are such values. -/
theorem void_returns (hgrammar : root.isGrammatical) (hroot : Declarations.ofTree root = .ok d)
    (hclean : d.analyze (.top root) = .ok .empty) :
    ∃ p, Program.ofTree d root = .ok p ∧
      List.Forall₂ (fun t m => m.name = t.name ∧
        (t.declaredReturnType = .ok .void → ReturnsVoid d t m)) root.methodTrees p.methods := by
  obtain ⟨p, hp⟩ := exists_ofTree_of_clean hgrammar hclean
  refine ⟨p, hp, ?_⟩
  have hmethods := (List.forall₂_and_left _ _).mpr ⟨fun _ ht => ht, forall₂_methods hp⟩
  refine hmethods.imp ?_
  rintro t m ⟨ht, c, c', hrun⟩
  refine ⟨(lowerMethod_eq_ok hrun).1, fun hdeclared => ?_⟩
  -- the table has what the method declares, since no two have one name
  obtain ⟨s, hs, hsignature⟩ :=
    exists_of_forall₂ (Declarations.forall₂_signatures hgrammar hroot) ht
  have hreturn := (Tree.signature_ok hsignature).2.1
  rw [hdeclared] at hreturn
  refine returnsVoid_of_lowerMethod hgrammar hclean ht hrun ?_
  rw [Declarations.returnType?, Tree.name_of_signature hsignature,
    Declarations.method?_of_mem (Declarations.nodup_methods hroot hclean) hs]
  exact (Except.ok.inj hreturn).symm

end Program

/-! ### A value that is returned from `void`

    class Gate extends Base {
      void open() { return this.inherited(); }
    }
-/

/-- A class with one method, which is declared to return nothing and returns what an
inherited method gives. -/
def gate : Tree :=
  let inherited := (Form.call "inherited" Form.self.tree []).tree
  let method := (Form.methodDecl "open" (Form.typeName "void" false false).tree false
    [(Form.returnStmt (some inherited)).tree]).tree
  (Form.program [(Form.classDecl "Gate" (some "Base") [method]).tree]).tree

def gateDeclarations : Declarations :=
  ⟨"Gate", some "Base", [], [], [⟨"open", .void, [], [], false⟩]⟩

theorem void_returns_gate :
    ∃ p, Program.ofTree gateDeclarations gate = .ok p ∧
      ∃ m ∈ p.methods, m.name = "open" ∧ m.body.countP Line.returnsValue = 1 := by
  have hgrammar : gate.isGrammatical := by decide
  obtain ⟨p, hp, hmethods⟩ := void_returns (d := gateDeclarations) hgrammar rfl rfl
  obtain ⟨t, ht, hname, hdeclared, hcount⟩ : ∃ t ∈ gate.methodTrees, t.name = "open" ∧
      t.declaredReturnType = .ok .void ∧
      (Tree.preorderAll (statements t)).countP Tree.returnsValue = 1 :=
    ⟨_, List.mem_singleton_self _, rfl, rfl, rfl⟩
  obtain ⟨m, hm, heq, hreturns⟩ := exists_of_forall₂ hmethods ht
  exact ⟨p, hp, m, hm, heq.trans hname, (hreturns hdeclared).count.trans hcount⟩

/-- In a program without findings a method that is declared to return nothing has a
return statement with a value. -/
theorem gate_returns_value :
    ¬ ∀ (root : Tree) (d : Declarations), root.isGrammatical → Declarations.ofTree root = .ok d →
      d.analyze (.top root) = .ok .empty → ∀ t ∈ root.methodTrees,
        t.declaredReturnType = .ok .void → ∀ s ∈ statements t, ∀ u ∈ s.preorder,
          u.kind = .returnStmt → u.children = [] := by
  intro h
  have hgrammar : gate.isGrammatical := by decide
  have hbare := h gate gateDeclarations hgrammar rfl rfl _ (List.mem_singleton_self _) rfl _
    (List.mem_singleton_self _) _ (Tree.mem_preorder_self _) rfl
  nomatch hbare

end ThreeAddress

end JavaMinus
