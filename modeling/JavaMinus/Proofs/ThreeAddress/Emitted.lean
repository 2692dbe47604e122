/-
JavaMinus/Proofs/ThreeAddress/Emitted.lean

Where the lines of an expression stand.

An expression that is lowered has its lines in one piece, and they stand in the
lines of whatever the expression is a part of.  So the lines of every expression
of a program stand in the method that the expression belongs to
(`exists_emits_of_ofTree`).  Two forms are left out: the object itself and the
name of a class are not lowered where a call is made on them
(`Kind.isAlwaysLowered`).

A call that is a statement of its own has no value; what stands in the method is
what it consists of, and a line that makes it (`Emits`).
-/
import JavaMinus.Proofs.Bodies
import JavaMinus.Proofs.ThreeAddress.Temporaries

namespace JavaMinus

/-- Whether expressions of this kind are lowered wherever they stand. -/
def Kind.isAlwaysLowered (k : Kind) : Bool := k.isExpression && k != .identifier && k != .self

theorem Kind.isExpression_of_isAlwaysLowered {k : Kind} (h : k.isAlwaysLowered) :
    k.isExpression := by
  cases k <;> first | rfl | nomatch h

namespace ThreeAddress

variable (d : Declarations) (scope : Option String)

/-- The expression was lowered to a value whose lines stand among the given
ones. -/
def HasLinesIn (ls : List Line) (t : Tree) : Prop :=
  ∃ wanted c v c', Yields d scope t wanted c v c' ∧ v.code <:+: ls

/-- The expression was lowered to a value, or is a call that was lowered as a
statement, and its lines stand among the given ones. -/
inductive Emits (ls : List Line) (t : Tree) : Prop
  | value : HasLinesIn d scope ls t → Emits ls t
  | callStmt {c call c'} : t.kind = .call →
      (lowerCall d scope t (partsOfEach d scope t.children) none).run c = .ok (call, c') →
      call.code ++ [.call call.invocation] <:+: ls → Emits ls t

variable {d scope} {ls ls' : List Line} {t u : Tree} {ts : List Tree} {wanted : Option Ty}
  {c c' : Counters} {v : Value}

theorem HasLinesIn.mono (h : HasLinesIn d scope ls t) (hls : ls <:+: ls') :
    HasLinesIn d scope ls' t := by
  obtain ⟨wanted, c, v, c', hv, hcode⟩ := h
  exact ⟨wanted, c, v, c', hv, hcode.trans hls⟩

theorem Emits.mono (h : Emits d scope ls t) (hls : ls <:+: ls') : Emits d scope ls' t := by
  cases h with
  | value h => exact .value (h.mono hls)
  | callStmt hk hcall hcode => exact .callStmt hk hcall (hcode.trans hls)

theorem Yields.hasLinesIn (h : Yields d scope t wanted c v c') (hls : v.code <:+: ls) :
    HasLinesIn d scope ls t := ⟨wanted, c, v, c', h, hls⟩

/-! ### The parts of an expression -/

theorem infix_computed {before : List Line} {n : Nat} {tag : Tag} {source : Source}
    (h : ls <:+: before) : ls <:+: (Value.computed before n tag source).code :=
  h.trans (List.prefix_append _ _).isInfix

theorem YieldsIndex.hasLinesIn (h : YieldsIndex d scope t c v c') :
    HasLinesIn d scope v.code t := by
  cases h with
  | literal _ hx => exact hx.hasLinesIn (infix_computed (List.infix_refl _))
  | other _ hx => exact hx.hasLinesIn (List.infix_refl _)

theorem YieldsStores.hasLinesIn {array i : Nat} {element : Ty} {stores : List Line}
    (h : YieldsStores d scope array element i ts c stores c') :
    ∀ u ∈ ts, HasLinesIn d scope stores u := by
  induction h with
  | nil => exact List.forall_mem_nil _
  | cons hx _ ih =>
    intro u hu
    rcases List.mem_cons.mp hu with rfl | hu
    · refine hx.hasLinesIn ?_
      rw [List.append_assoc]
      exact (List.prefix_append _ _).isInfix
    · exact (ih u hu).mono (List.suffix_append _ _).isInfix

theorem YieldsArray.hasLinesIn {element : Ty} (h : YieldsArray d scope element ts c v c') :
    ∀ u ∈ ts, HasLinesIn d scope v.code u := by
  obtain ⟨hstores⟩ := h
  exact fun u hu => (hstores.hasLinesIn u hu).mono (List.suffix_cons _ _).isInfix

theorem YieldsEach.hasLinesIn {parameters : List Variable} {xs : List Value}
    (h : YieldsEach d scope parameters ts c xs c') :
    ∀ u ∈ ts, HasLinesIn d scope (xs.flatMap (·.code)) u := by
  induction h with
  | nil => exact List.forall_mem_nil _
  | cons hx _ ih =>
    intro u hu
    rw [List.flatMap_cons]
    rcases List.mem_cons.mp hu with rfl | hu
    · exact hx.hasLinesIn (List.prefix_append _ _).isInfix
    · exact (ih u hu).mono (List.suffix_append _ _).isInfix

theorem YieldsTail.hasLinesIn (h : YieldsTail d scope ts c v c') :
    ∀ u ∈ ts, HasLinesIn d scope v.code u := by
  cases h with
  | single hone _ _ hx =>
    subst hone
    intro u hu
    rw [List.mem_singleton.mp hu]
    exact hx.hasLinesIn (List.infix_refl _)
  | packed _ hx => exact hx.hasLinesIn

theorem YieldsArguments.hasLinesIn {parameters : List Variable} {xs : List Value}
    (h : YieldsArguments d scope parameters ts c xs c') :
    ∀ u ∈ ts, HasLinesIn d scope (xs.flatMap (·.code)) u := by
  cases h with
  | each _ hxs => exact hxs.hasLinesIn
  | tail _ hxs hx =>
    intro u hu
    rw [List.flatMap_append, List.flatMap_singleton]
    rw [← List.take_append_drop (Parameters.fixed parameters).length ts, List.mem_append] at hu
    rcases hu with hu | hu
    · exact (hxs.hasLinesIn u hu).mono (List.prefix_append _ _).isInfix
    · exact (hx.hasLinesIn u hu).mono (List.suffix_append _ _).isInfix

theorem YieldsReceiver.hasLinesIn {code : List Line} {target : Receiver}
    (h : YieldsReceiver d scope t c code target c') (hk : t.kind.isAlwaysLowered) :
    HasLinesIn d scope code t := by
  cases h with
  | self hself =>
    rw [hself] at hk
    nomatch hk
  | classRef hidentifier =>
    rw [hidentifier] at hk
    nomatch hk
  | object _ hx => exact hx.hasLinesIn (List.infix_refl _)

theorem YieldsCall.hasLinesIn {call : Call} (h : YieldsCall d scope t wanted c call c') :
    ∀ u ∈ t.children, u.kind.isAlwaysLowered → HasLinesIn d scope call.code u := by
  obtain ⟨hcs, -, hreceiver, hxs⟩ := h
  intro u hu hk
  rw [hcs] at hu
  rcases List.mem_cons.mp hu with rfl | hu
  · exact (hreceiver.hasLinesIn hk).mono (List.prefix_append _ _).isInfix
  · exact (hxs.hasLinesIn u hu).mono (List.suffix_append _ _).isInfix

/-- The parts of an expression have their lines in those of the expression. -/
theorem Yields.part_hasLinesIn (h : Yields d scope t wanted c v c') (hformed : t.isFormed)
    (hu : u ∈ t.children) (hk : u.kind.isAlwaysLowered) : HasLinesIn d scope v.code u := by
  have hleaf : t.kind ∈ [.importDecl, .typeName, .integer, .boolean, .identifier, .self,
      .newObject] → HasLinesIn d scope v.code u := by
    intro hkind
    rw [Tree.children_eq_nil_of_isFormed hformed hkind] at hu
    cases hu
  cases h.expands with
  | integer e | boolean e | self e | unbound e | variable_ e | field e | classRef e | newObject e =>
    exact hleaf (by rw [e]; decide)
  | arithmetic e _ hleft hright hx hy | logical e _ hleft hright hx hy =>
    rcases Tree.eq_or_eq_of_two hu hformed (by rw [e]; decide) hleft hright with rfl | rfl
    · exact hx.hasLinesIn (infix_computed (List.prefix_append _ _).isInfix)
    · exact hy.hasLinesIn (infix_computed (List.suffix_append _ _).isInfix)
  | call _ hcall => exact (hcall.hasLinesIn u hu hk).mono (infix_computed (List.infix_refl _))
  | elementRead e harray hindex _ _ hx hi =>
    rcases Tree.eq_or_eq_of_two hu hformed (by rw [e]; decide) harray hindex with rfl | rfl
    · exact hx.hasLinesIn (infix_computed (List.prefix_append _ _).isInfix)
    · exact hi.hasLinesIn.mono (infix_computed (List.suffix_append _ _).isInfix)
  | emptyLiteral _ hcs =>
    rw [hcs] at hu
    cases hu
  | arrayLiteral _ _ _ hx => exact hx.hasLinesIn u hu
  | newArray e hsize hx =>
    obtain rfl := Tree.eq_of_one hu hformed (by rw [e]; decide) hsize
    exact hx.hasLinesIn (infix_computed (List.infix_refl _))
  | length e harray hx =>
    obtain rfl := Tree.eq_of_one hu hformed (by rw [e]; decide) harray
    exact hx.hasLinesIn (infix_computed (List.infix_refl _))

/-! ### What stands inside -/

/-- Inside an expression that may be left out stands nothing but itself. -/
theorem eq_of_mem_preorder (ht : t.isFormed) (hk : t.kind.isExpression)
    (hout : ¬ t.kind.isAlwaysLowered) (hu : u ∈ t.preorder) : u = t := by
  have hcs : t.children = [] := by
    apply Tree.children_eq_nil_of_isFormed ht
    rcases e : t.kind <;> rw [e] at hk hout <;>
      simp [Kind.isExpression, Kind.isAlwaysLowered] at hk hout ⊢
  rcases Tree.mem_preorder.mp hu with hu | ⟨c, hc, -⟩
  · exact hu
  · rw [hcs] at hc
    cases hc

/-- Everything inside an expression has its lines where the expression has
them. -/
theorem HasLinesIn.inside (hk : u.kind.isAlwaysLowered) :
    ∀ (t : Tree) {ls : List Line}, t.Formed → t.kind.isExpression → HasLinesIn d scope ls t →
      u ∈ t.preorder → HasLinesIn d scope ls u := by
  refine Tree.induction ?_
  intro t ih ls hformed hexpression h hu
  rcases Tree.mem_preorder.mp hu with rfl | ⟨s, hs, hu⟩
  · exact h
  · have hpart := Tree.isExpression_of_child hformed.self hexpression hs
    by_cases hlowered : s.kind.isAlwaysLowered
    · obtain ⟨wanted, c, v, c', hv, hcode⟩ := h
      refine ih s hs (hformed.child hs) hpart ?_ hu
      exact (hv.part_hasLinesIn hformed.self hs hlowered).mono hcode
    · rw [eq_of_mem_preorder (hformed.child hs).self hpart hlowered hu] at hk
      exact absurd hk hlowered

theorem YieldsCall.inside_hasLinesIn {call : Call} (h : YieldsCall d scope t wanted c call c')
    (hformed : t.Formed) (hcall : t.kind = .call) (hk : u.kind.isAlwaysLowered) {s : Tree}
    (hs : s ∈ t.children) (hu : u ∈ s.preorder) : HasLinesIn d scope call.code u := by
  have hpart : s.kind.isExpression :=
    Tree.isExpression_of_child hformed.self (by rw [hcall]; rfl) hs
  by_cases hlowered : s.kind.isAlwaysLowered
  · exact (h.hasLinesIn s hs hlowered).inside hk s (hformed.child hs) hpart hu
  · rw [eq_of_mem_preorder (hformed.child hs).self hpart hlowered hu] at hk
    exact absurd hk hlowered

theorem Emits.inside (h : Emits d scope ls t) (hformed : t.Formed)
    (hexpression : t.kind.isExpression) (hk : u.kind.isAlwaysLowered) (hu : u ∈ t.preorder) :
    Emits d scope ls u := by
  cases h with
  | value h => exact .value (h.inside hk t hformed hexpression hu)
  | callStmt hcall hrun hcode =>
    rcases Tree.mem_preorder.mp hu with rfl | ⟨s, hs, hu⟩
    · exact .callStmt hcall hrun hcode
    · have hlines := (yieldsCall_of_run hrun).inside_hasLinesIn hformed hcall hk hs hu
      exact .value (hlines.mono ((List.prefix_append _ _).isInfix.trans hcode))

/-! ### The parts of a statement -/

variable {result : Ty}

theorem infix_conditionalLines {n : Nat} {x : Value} {thenLines elseLines : List Line} :
    x.code <:+: conditionalLines n x thenLines elseLines ∧
      thenLines <:+: conditionalLines n x thenLines elseLines ∧
      elseLines <:+: conditionalLines n x thenLines elseLines := by
  refine ⟨?_, ⟨_, _, rfl⟩, ?_⟩
  · simp only [conditionalLines, List.append_assoc]
    exact (List.prefix_append _ _).isInfix
  · refine ⟨x.code ++ [.branch x.operand ⟨.thenBranch, n⟩], ?_, ?_⟩
    · exact [.jump ⟨.conditionalEnd, n⟩, .label ⟨.thenBranch, n⟩] ++ thenLines ++
        [.label ⟨.conditionalEnd, n⟩]
    · simp only [conditionalLines, List.append_assoc]

theorem infix_loopLines {n : Nat} {x : Value} {bodyLines : List Line} :
    x.code <:+: loopLines n x bodyLines ∧ bodyLines <:+: loopLines n x bodyLines := by
  refine ⟨?_, ⟨_, _, rfl⟩⟩
  simp only [loopLines, List.append_assoc (_ ++ _) _ _]
  exact ⟨_, _, rfl⟩

/-- The statement was lowered to lines that stand among the given ones. -/
def HasStatementIn (d : Declarations) (scope : Option String) (result : Ty) (ls : List Line)
    (t : Tree) : Prop :=
  ∃ c ls' c', YieldsLines d scope result t c ls' c' ∧ ls' <:+: ls

theorem HasStatementIn.mono (h : HasStatementIn d scope result ls t) (hls : ls <:+: ls') :
    HasStatementIn d scope result ls' t := by
  obtain ⟨c, code, c', hrun, hcode⟩ := h
  exact ⟨c, code, c', hrun, hcode.trans hls⟩

theorem YieldsBlock.hasStatementIn (h : YieldsBlock d scope result ts c ls c') :
    ∀ s ∈ ts, HasStatementIn d scope result ls s := by
  induction h with
  | nil => exact List.forall_mem_nil _
  | cons hls _ ih =>
    intro s hs
    rcases List.mem_cons.mp hs with rfl | hs
    · exact ⟨_, _, _, hls, (List.prefix_append _ _).isInfix⟩
    · exact (ih s hs).mono (List.suffix_append _ _).isInfix

theorem exists_lowerCall_of_callStmt (hk : t.kind = .expressionStmt)
    (hu : t.children[0]? = some u) (hcall : u.kind = .call)
    (h : YieldsLines d scope result t c ls c') :
    ∃ call, (lowerCall d scope u (partsOfEach d scope u.children) none).run c = .ok (call, c') ∧
      call.code ++ [.call call.invocation] = ls := by
  obtain ⟨head, cs⟩ := t
  have hkind : head.kind = .expressionStmt := hk
  rw [YieldsLines, lowerStatement, hkind] at h
  obtain ⟨e, he, h⟩ := run_lift_bind_eq_ok h
  obtain rfl : u = e := Option.some.inj (hu.symm.trans (childAt_eq_ok he))
  rw [if_pos (by rw [hcall]; rfl), partsOf_eq_map] at h
  obtain ⟨call, c₁, hrun, h⟩ := run_bind_eq_ok h
  obtain ⟨hls, rfl⟩ := run_pure_eq_ok h
  exact ⟨call, hrun, hls⟩

/-- The parts of a statement have their lines in those of the statement. -/
theorem YieldsLines.part (h : YieldsLines d scope result t c ls c') (hformed : t.isFormed)
    (hu : u ∈ t.children) :
    (u.kind.isExpression ∧ Emits d scope ls u) ∨
      (u.kind.isStatement ∧ HasStatementIn d scope result ls u) := by
  have hsimple : t.kind ∈ [.assignment, .elementAssignment, .expressionStmt, .returnStmt] →
      u.kind.isExpression := fun hk => Tree.isExpression_of_child_of_simple hformed hk hu
  cases h.expands with
  | assignment e _ _ hw hx | fieldAssignment e _ _ hw hx =>
    have hk := hsimple (by rw [e]; decide)
    obtain rfl := Tree.eq_of_one hu hformed (by rw [e]; decide) hw
    exact Or.inl ⟨hk, .value (hx.hasLinesIn (List.prefix_append _ _).isInfix)⟩
  | elementAssignment e _ _ hw hw' hi hx =>
    have hk := hsimple (by rw [e]; decide)
    refine Or.inl ⟨hk, .value ?_⟩
    rcases Tree.eq_or_eq_of_two hu hformed (by rw [e]; decide) hw hw' with rfl | rfl
    · refine hi.hasLinesIn.mono ?_
      rw [List.append_assoc]
      exact (List.prefix_append _ _).isInfix
    · exact hx.hasLinesIn ⟨_, _, rfl⟩
  | fieldElementAssignment e _ _ _ hw hw' hi hx =>
    have hk := hsimple (by rw [e]; decide)
    refine Or.inl ⟨hk, .value ?_⟩
    rcases Tree.eq_or_eq_of_two hu hformed (by rw [e]; decide) hw hw' with rfl | rfl
    · refine hi.hasLinesIn.mono ?_
      rw [List.append_assoc (_ ++ _)]
      exact ⟨_, _, rfl⟩
    · exact hx.hasLinesIn ⟨_, _, rfl⟩
  | callStmt e hw hcall =>
    -- the value of the call is dropped, so it is not lowered as an expression
    obtain ⟨call, hrun, hls⟩ := exists_lowerCall_of_callStmt e hw hcall h
    have hk := hsimple (by rw [e]; decide)
    obtain rfl := Tree.eq_of_one hu hformed (by rw [e]; decide) hw
    exact Or.inl ⟨hk, .callStmt hcall hrun (hls ▸ List.infix_refl _)⟩
  | expressionStmt e hw _ hx =>
    have hk := hsimple (by rw [e]; decide)
    obtain rfl := Tree.eq_of_one hu hformed (by rw [e]; decide) hw
    exact Or.inl ⟨hk, .value (hx.hasLinesIn (List.infix_refl _))⟩
  | returnNothing _ hcs =>
    rw [hcs] at hu
    cases hu
  | returnValue e hw hx =>
    have hk := hsimple (by rw [e]; decide)
    rcases Tree.returnStmt_of_isFormed hformed e with hcs | ⟨value, hcs, -⟩
    · rw [hcs] at hu
      cases hu
    · rw [hcs] at hw
      rw [hcs, List.mem_singleton] at hu
      obtain rfl := hu.trans (Option.some.inj hw)
      exact Or.inl ⟨hk, .value (hx.hasLinesIn (List.prefix_append _ _).isInfix)⟩
  | conditional e hcs hx hthen helse =>
    obtain ⟨hc, ha, b, rfl, hb⟩ := Tree.conditional_of_eq_cons hformed e hcs
    obtain ⟨hcode, hthenCode, helseCode⟩ := infix_conditionalLines
    simp only [hcs, List.mem_cons, List.not_mem_nil, or_false] at hu
    rcases hu with rfl | rfl | rfl
    · exact Or.inl ⟨hc, .value (hx.hasLinesIn hcode)⟩
    · exact Or.inr ⟨ha, _, _, _, hthen, hthenCode⟩
    · refine Or.inr ⟨hb, (helse.hasStatementIn u ?_).mono helseCode⟩
      exact List.mem_singleton_self u
  | loop e hcs hx hbody =>
    obtain ⟨hc, ha, rfl⟩ := Tree.loop_of_eq_cons hformed e hcs
    obtain ⟨hcode, hbodyCode⟩ := infix_loopLines
    simp only [hcs, List.mem_cons, List.not_mem_nil, or_false] at hu
    rcases hu with rfl | rfl
    · exact Or.inl ⟨hc, .value (hx.hasLinesIn hcode)⟩
    · exact Or.inr ⟨ha, _, _, _, hbody, hbodyCode⟩
  | block e hls =>
    exact Or.inr ⟨Tree.block_of_isFormed hformed e u hu, hls.hasStatementIn u hu⟩

/-- Every expression inside a statement has its lines in those of the
statement. -/
theorem HasStatementIn.emits (hk : u.kind.isAlwaysLowered) :
    ∀ (t : Tree) {ls : List Line}, t.Formed → t.kind.isStatement →
      HasStatementIn d scope result ls t → u ∈ t.preorder → Emits d scope ls u := by
  refine Tree.induction ?_
  intro t ih ls hformed hstatement h hu
  rcases Tree.mem_preorder.mp hu with rfl | ⟨s, hs, hu⟩
  · exact absurd (Kind.isExpression_of_isAlwaysLowered hk)
      (Kind.not_isExpression_of_isStatement hstatement)
  · obtain ⟨c, code, c', hrun, hcode⟩ := h
    rcases hrun.part hformed.self hs with ⟨hexpression, hemits⟩ | ⟨hkind, hlines⟩
    · exact (hemits.mono hcode).inside (hformed.child hs) hexpression hk hu
    · exact ih s hs (hformed.child hs) hkind (hlines.mono hcode) hu

/-! ### Calls -/

/-- The call that a line makes, if it makes one. -/
def Line.invocation? : Line → Option Invocation
  | assign _ _ (.call invocation) | call invocation => some invocation
  | _ => none

/-- The call was lowered, and what it consists of stands among the given lines,
with a line behind it that makes the call. -/
def HasCallIn (d : Declarations) (scope : Option String) (ls : List Line) (t : Tree) : Prop :=
  ∃ wanted c call c' l,
    (lowerCall d scope t (partsOfEach d scope t.children) wanted).run c = .ok (call, c') ∧
      l.invocation? = some call.invocation ∧ call.code ++ [l] <:+: ls

theorem Emits.hasCallIn (h : Emits d scope ls t) (hk : t.kind = .call) :
    HasCallIn d scope ls t := by
  cases h with
  | callStmt _ hrun hcode => exact ⟨_, _, _, _, _, hrun, rfl, hcode⟩
  | value h =>
    obtain ⟨wanted, c, v, c', hv, hcode⟩ := h
    rw [Yields, lower_eq, lowerOver, hk] at hv
    obtain ⟨call, c₁, hrun, hv⟩ := run_bind_eq_ok hv
    obtain ⟨rfl, rfl⟩ := run_compute_eq_ok hv
    exact ⟨_, _, call, _, _, hrun, rfl, hcode⟩

/-! ### Programs -/

/-- What the lowering of a method comes to. -/
theorem lowerMethod_eq_ok {m : Method} (h : (lowerMethod d t).run c = .ok (m, c')) :
    m.name = t.name ∧ m.result = Tag.ofTy ((d.returnType? t.name).getD .void) ∧
      ∃ ls, YieldsBlock d (t.get? "name") ((d.returnType? t.name).getD .void)
        (statements t) c ls c' ∧
        m.body = ls ++ addedReturn ((d.returnType? t.name).getD .void) (statements t) := by
  obtain ⟨ls, c₁, hls, h⟩ := run_bind_eq_ok h
  obtain ⟨rfl, rfl⟩ := run_pure_eq_ok h
  exact ⟨rfl, rfl, ls, yieldsBlock_of_run hls, rfl⟩

/-- The methods of a program are those that its method trees were lowered to. -/
theorem forall₂_methods {root : Tree} {p : Program} (h : Program.ofTree d root = .ok p) :
    List.Forall₂ (fun t m => ∃ c c', (lowerMethod d t).run c = .ok (m, c')) root.methodTrees
      p.methods := by
  obtain ⟨c, hrun⟩ := exists_run_of_ofTree h
  obtain ⟨classes, c₁, hclasses, hrun⟩ := run_bind_eq_ok hrun
  obtain ⟨rfl, rfl⟩ := run_pure_eq_ok hrun
  refine List.rel_flatMap (forall₂_of_run_mapM hclasses) ?_
  rintro cls code ⟨c₂, c₃, hcode⟩
  obtain ⟨ms, c₄, hms, hcode⟩ := run_bind_eq_ok hcode
  obtain ⟨rfl, rfl⟩ := run_pure_eq_ok hcode
  exact forall₂_of_run_mapM hms

/-- The lines of an expression of a program stand in the method that the
expression belongs to. -/
theorem exists_emits_of_ofTree {root : Tree} {p : Program} (hgrammar : root.isGrammatical)
    (h : Program.ofTree d root = .ok p) {q : Place} (hq : q ∈ (Place.top root).preorder)
    (hk : q.tree.kind.isAlwaysLowered) :
    ∃ m ∈ p.methods, q.method? = some m.name ∧ Emits d q.method? m.body q.tree := by
  obtain ⟨t, ht, s, hs, hmem, hmethod⟩ :=
    Place.exists_statement hgrammar hq (Kind.isExpression_of_isAlwaysLowered hk)
  have hformed := (Tree.formed_of_isGrammatical hgrammar).methodTree ht
  obtain ⟨m, hm, c, c', hrun⟩ := exists_of_forall₂ (forall₂_methods h) ht
  obtain ⟨hname, -, ls, hls, hbody⟩ := lowerMethod_eq_ok hrun
  refine ⟨m, hm, ?_, ?_⟩
  · rw [hmethod, hname, Tree.get?_name_of_mem_methodTrees hgrammar ht]
  · have hstatement := (hls.hasStatementIn s hs).emits hk s (hformed.statement hs)
      (Tree.mem_statements.mp hs).2 hmem
    rw [hmethod, hbody]
    exact hstatement.mono (List.prefix_append _ _).isInfix

end ThreeAddress

end JavaMinus
