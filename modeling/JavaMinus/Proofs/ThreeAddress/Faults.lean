/-
JavaMinus/Proofs/ThreeAddress/Faults.lean

Checking and lowering stop at the same programs.

Lowering a regular expression or statement comes to an end, from whatever counters
(`lowerable`, `finishes_lowerStatement`): it asks for a type, an operator or
a part of a node only where the node has one.  On the other hand every operation in
the body of a method is lowered (`exists_emits_of_ofTree`), so an unknown operator
ends the lowering wherever it stands.  The checks end in a fault at the same
programs, and so a program whose checks come to an end has a text, whatever they
report (`faults_agree`).
-/
import JavaMinus.Compiler
import JavaMinus.Proofs.Completion
import JavaMinus.Proofs.ThreeAddress.Emitted
import JavaMinus.Proofs.ThreeAddress.Statements

namespace JavaMinus.ThreeAddress

/-! ### Lowering that comes to an end -/

/-- Lowering comes to a result from whatever counters. -/
def Finishes {α : Type} (x : Lowering α) : Prop := ∀ c, ∃ a c', x.run c = .ok (a, c')

section Combinators

variable {α β : Type} {x : Lowering α} {f : α → Lowering β}

theorem finishes_pure (a : α) : Finishes (pure a : Lowering α) := fun c => ⟨a, c, rfl⟩

theorem Finishes.bind (hx : Finishes x) (hf : ∀ a, Finishes (f a)) : Finishes (x >>= f) := by
  intro c
  obtain ⟨a, c₁, ha⟩ := hx c
  obtain ⟨b, c₂, hb⟩ := hf a c₁
  exact ⟨b, c₂, by rw [run_bind_ok ha, hb]⟩

theorem finishes_lift_bind {outcome : Except Fault α} {a : α} (h : outcome = .ok a)
    (hf : Finishes (f a)) : Finishes ((liftM outcome : Lowering α) >>= f) := by
  intro c
  obtain ⟨b, c', hb⟩ := hf c
  exact ⟨b, c', by rw [run_bind_ok (run_lift_ok c h), hb]⟩

theorem finishes_freshTemporary : Finishes freshTemporary := fun _ => ⟨_, _, rfl⟩

theorem finishes_compute (before : List Line) (tag : Tag) (source : Source) :
    Finishes (compute before tag source) := fun _ => ⟨_, _, rfl⟩

end Combinators

/-! ### Parts -/

/-- A part that is lowered whatever type is wanted. -/
def Part.Finishes (part : Part) : Prop := ∀ wanted, ThreeAddress.Finishes (part.lower wanted)

variable {d : Declarations} {scope : Option String} {t u : Tree} {ts : List Tree}
  {parts : List Part}

theorem finishes_lowerIndex {part : Part} (h : part.Finishes) : Finishes (lowerIndex part) := by
  refine (h none).bind fun x => ?_
  rcases part.tree.kind <;> first | exact finishes_compute _ _ _ | exact finishes_pure _

theorem finishes_storeFrom (array : Nat) (element : Ty) (i : Nat)
    (h : ∀ part ∈ parts, part.Finishes) : Finishes (storeFrom array element i parts) := by
  induction parts generalizing i with
  | nil => exact finishes_pure _
  | cons part rest ih =>
    rw [storeFrom]
    refine (h part (List.mem_cons_self ..) _).bind fun x => finishes_freshTemporary.bind fun n => ?_
    exact (ih (i + 1) fun q hq => h q (List.mem_cons_of_mem _ hq)).bind fun _ => finishes_pure _

theorem finishes_lowerArray (element : Ty) (h : ∀ part ∈ parts, part.Finishes) :
    Finishes (lowerArray element parts) :=
  finishes_freshTemporary.bind fun n =>
    (finishes_storeFrom n element 0 h).bind fun _ => finishes_pure _

theorem finishes_lowerEach {parameters : List Variable} (h : ∀ part ∈ parts, part.Finishes) :
    Finishes (lowerEach parameters parts) := by
  induction parts generalizing parameters with
  | nil => exact finishes_pure _
  | cons part rest ih =>
    rw [lowerEach]
    refine (h part (List.mem_cons_self ..) _).bind fun x => ?_
    exact (ih fun q hq => h q (List.mem_cons_of_mem _ hq)).bind fun _ => finishes_pure _

/-! ### Regular expressions -/

/-- An expression that has a type and is lowered whatever type is wanted. -/
structure Lowerable (d : Declarations) (scope : Option String) (t : Tree) : Prop where
  typeOf : ∃ ty, d.typeOf scope t = .ok ty
  finishes : ∀ wanted, Finishes (lower d scope t wanted)

/-- Trees as parts are lowered if the trees are. -/
theorem finishes_parts (h : ∀ s ∈ ts, Lowerable d scope s) :
    ∀ part ∈ partsOfEach d scope ts, part.Finishes := by
  intro part hpart
  obtain ⟨s, hs, rfl⟩ := List.mem_map.mp hpart
  exact (h s hs).finishes

theorem finishes_lowerIdentifier : Finishes (lowerIdentifier d scope t) := by
  rw [lowerIdentifier]
  split
  · exact finishes_pure _
  · simp only
    split <;> first | exact finishes_pure _ | exact finishes_compute _ _ _

theorem finishes_lowerBinary {left right : Tree} {w : Ty} {tag : Tag}
    {source : Operand → Operand → Source} (hleft : Lowerable d scope left)
    (hright : Lowerable d scope right) :
    Finishes (lowerBinary t (partsOfEach d scope [left, right]) w tag source) := by
  refine finishes_lift_bind (partGet_ok rfl) (finishes_lift_bind (partGet_ok rfl) ?_)
  exact (hleft.finishes _).bind fun x => (hright.finishes _).bind fun y => finishes_compute _ _ _

theorem finishes_lowerElementRead {array index : Tree} (harray : Lowerable d scope array)
    (hindex : Lowerable d scope index) :
    Finishes (lowerElementRead d scope t (partsOfEach d scope [array, index])) := by
  obtain ⟨ty, hty⟩ := harray.typeOf
  refine finishes_lift_bind (partGet_ok rfl) (finishes_lift_bind hty
    (finishes_lift_bind (partGet_ok rfl) ?_))
  have hi : Finishes (lowerIndex ⟨index, lower d scope index⟩) :=
      finishes_lowerIndex hindex.finishes
  exact (harray.finishes none).bind fun x => hi.bind fun i => finishes_compute _ _ _

theorem finishes_lowerArrayLiteral (h : ∀ s ∈ ts, Lowerable d scope s) :
    Finishes (lowerArrayLiteral d scope (partsOfEach d scope ts)) := by
  have hparts := finishes_parts h
  rcases ts with - | ⟨first, rest⟩
  · exact finishes_lowerArray _ hparts
  · obtain ⟨ty, hty⟩ := (h first (List.mem_cons_self ..)).typeOf
    exact finishes_lift_bind hty (finishes_lowerArray _ hparts)

theorem finishes_lowerReceiver (h : Lowerable d scope t) :
    Finishes (lowerReceiver d scope ⟨t, lower d scope t⟩) := by
  have hobject : Finishes (do
      let x ← lower d scope t none
      pure (x.code, Receiver.object x.operand)) := (h.finishes none).bind fun _ => finishes_pure _
  rw [lowerReceiver]
  simp only
  split
  · exact finishes_pure _
  · split
    · split
      · exact hobject
      · exact finishes_pure _
    · exact hobject
  · exact hobject

theorem finishes_lowerOpenTail (h : ∀ s ∈ ts, Lowerable d scope s) :
    Finishes (lowerOpenTail d scope (partsOfEach d scope ts)) := by
  have hparts := finishes_parts h
  rcases ts with - | ⟨single, - | ⟨second, rest⟩⟩
  · exact finishes_lowerArray _ hparts
  · obtain ⟨ty, hty⟩ := (h single (List.mem_singleton_self _)).typeOf
    refine finishes_lift_bind hty ?_
    split
    · exact (h single (List.mem_singleton_self _)).finishes none
    · exact finishes_lowerArray _ hparts
  · exact finishes_lowerArray _ hparts

theorem finishes_lowerArguments {parameters : List Variable} (h : ∀ s ∈ ts, Lowerable d scope s) :
    Finishes (lowerArguments d scope parameters (partsOfEach d scope ts)) := by
  rw [lowerArguments]
  split
  · exact finishes_lowerEach (finishes_parts h)
  · simp only [partsOfEach, ← List.map_take, ← List.map_drop]
    refine Finishes.bind ?_ fun xs => Finishes.bind ?_ fun x => finishes_pure _
    · exact finishes_lowerEach (finishes_parts fun s hs => h s (List.mem_of_mem_take hs))
    · exact finishes_lowerOpenTail fun s hs => h s (List.mem_of_mem_drop hs)

theorem finishes_lowerCall {wanted : Option Ty} {receiver : Tree} {arguments : List Tree}
    (hcs : t.children = receiver :: arguments) (h : ∀ s ∈ t.children, Lowerable d scope s) :
    Finishes (lowerCall d scope t (partsOfEach d scope t.children) wanted) := by
  rw [hcs] at h ⊢
  have hreceiver := h receiver (List.mem_cons_self ..)
  obtain ⟨ty, hty⟩ := hreceiver.typeOf
  refine finishes_lift_bind (partGet_ok rfl)
    (finishes_lift_bind (Declarations.callType_ok hcs hty) ?_)
  refine (finishes_lowerReceiver hreceiver).bind fun target => ?_
  refine Finishes.bind ?_ fun xs => finishes_pure _
  exact finishes_lowerArguments fun s hs => h s (List.mem_cons_of_mem _ hs)

/-- Regular expressions are lowered. -/
theorem lowerable (d : Declarations) (scope : Option String) :
    ∀ t : Tree, t.Regular → t.kind.isExpression → Lowerable d scope t := by
  refine Tree.induction ?_
  intro t ih h hk
  refine ⟨Tree.Regular.exists_typeOf d scope t h hk, fun wanted => ?_⟩
  have hformed := h.formed.self
  have hpart : ∀ s ∈ t.children, Lowerable d scope s := fun s hs =>
    ih s hs (h.child hs) (Tree.isExpression_of_child hformed hk hs)
  have hone : t.kind ∈ [.assignment, .expressionStmt, .newArray, .length] →
      ∃ s, t.children = [s] ∧ Lowerable d scope s := by
    intro hkind
    obtain ⟨s, hcs, -⟩ := Tree.exists_one_of_isFormed hformed hkind
    exact ⟨s, hcs, hpart s (by rw [hcs]; exact List.mem_singleton_self s)⟩
  have htwo : t.kind ∈ [.elementAssignment, .arithmetic, .logical, .elementRead] →
      ∃ s s', t.children = [s, s'] ∧ Lowerable d scope s ∧ Lowerable d scope s' := by
    intro hkind
    obtain ⟨s, s', hcs, -⟩ := Tree.exists_two_of_isFormed hformed hkind
    refine ⟨s, s', hcs, hpart s ?_, hpart s' ?_⟩ <;> simp [hcs]
  rw [lower_eq, lowerOver]
  -- by form; only operators are looked up, and these are known
  rcases e : t.kind <;> rw [e] at hk <;> try cases hk
  case integer | boolean | self => exact finishes_pure _
  case identifier => exact finishes_lowerIdentifier
  case arithmetic =>
    obtain ⟨op, hop⟩ := (Tree.exists_arithmetic_iff e).mpr h.self_known
    obtain ⟨left, right, hcs, hleft, hright⟩ := htwo (by rw [e]; decide)
    rw [hcs]
    exact finishes_lift_bind hop (finishes_lowerBinary hleft hright)
  case logical =>
    obtain ⟨op, hop⟩ := (Tree.exists_logical_iff e).mpr h.self_known
    obtain ⟨left, right, hcs, hleft, hright⟩ := htwo (by rw [e]; decide)
    rw [hcs]
    exact finishes_lift_bind hop (finishes_lowerBinary hleft hright)
  case call =>
    obtain ⟨receiver, arguments, hcs, -⟩ := Tree.call_of_isFormed hformed e
    exact (finishes_lowerCall hcs hpart).bind fun call => finishes_compute _ _ _
  case elementRead =>
    obtain ⟨array, index, hcs, harray, hindex⟩ := htwo (by rw [e]; decide)
    rw [hcs]
    exact finishes_lowerElementRead harray hindex
  case arrayLiteral => exact finishes_lowerArrayLiteral hpart
  case newObject => exact (finishes_compute _ _ _).bind fun _ => finishes_pure _
  case newArray =>
    obtain ⟨size, hcs, hsize⟩ := hone (by rw [e]; decide)
    rw [hcs]
    refine finishes_lift_bind (partGet_ok rfl) ?_
    exact (hsize.finishes none).bind fun x => finishes_compute _ _ _
  case length =>
    obtain ⟨array, hcs, harray⟩ := hone (by rw [e]; decide)
    rw [hcs]
    refine finishes_lift_bind (partGet_ok rfl) ?_
    exact (harray.finishes none).bind fun x => finishes_compute _ _ _

/-! ### Regular statements -/

variable {result : Ty}

theorem finishes_lowerBlock (h : ∀ s ∈ ts, Finishes (lowerStatement d scope result s)) :
    Finishes (lowerBlock d scope result ts) := by
  induction ts with
  | nil =>
    rw [lowerBlock]
    exact finishes_pure _
  | cons s rest ih =>
    rw [lowerBlock]
    refine (h s (List.mem_cons_self ..)).bind fun ls => ?_
    exact (ih fun u hu => h u (List.mem_cons_of_mem _ hu)).bind fun _ => finishes_pure _

theorem finishes_lowerAssignment {value : Tree} (hcs : t.children = [value])
    (h : Lowerable d scope value) : Finishes (lowerAssignment d scope t) := by
  refine finishes_lift_bind (childAt_ok hcs) ((h.finishes _).bind fun x => ?_)
  split <;> exact finishes_pure _

theorem finishes_lowerElementAssignment {index value : Tree} (hcs : t.children = [index, value])
    (hindex : Lowerable d scope index) (hvalue : Lowerable d scope value) :
    Finishes (lowerElementAssignment d scope t) := by
  have harray : Finishes (lowerAssignedArray t (assigned? d scope t)) := by
    rw [lowerAssignedArray.eq_def]
    split
    · exact finishes_freshTemporary.bind fun _ => finishes_pure _
    · exact finishes_pure _
  have hi : Finishes (lowerIndex ⟨index, lower d scope index⟩) :=
      finishes_lowerIndex hindex.finishes
  refine harray.bind fun fetched => ?_
  refine finishes_lift_bind (childAt_ok hcs) (hi.bind fun i => ?_)
  refine finishes_lift_bind (childAt_one_ok hcs) ((hvalue.finishes _).bind fun x => ?_)
  exact finishes_pure _

theorem finishes_lowerExpressionStmt {e : Tree} (hcs : t.children = [e]) (hformed : e.isFormed)
    (h : Lowerable d scope e) (hparts : ∀ s ∈ e.children, Lowerable d scope s) :
    Finishes (lowerExpressionStmt d scope t) := by
  refine finishes_lift_bind (childAt_ok hcs) ?_
  split
  · next hcall =>
    obtain ⟨receiver, arguments, hcs', -⟩ := Tree.call_of_isFormed hformed (eq_of_beq hcall)
    rw [partsOf_eq_map]
    exact (finishes_lowerCall hcs' hparts).bind fun _ => finishes_pure _
  · exact (h.finishes none).bind fun _ => finishes_pure _

/-- Regular statements are lowered. -/
theorem finishes_lowerStatement (d : Declarations) (scope : Option String) (result : Ty) :
    ∀ t : Tree, t.Regular → t.kind.isStatement → Finishes (lowerStatement d scope result t) := by
  refine Tree.induction ?_
  intro t ih h hk
  have hformed := h.formed.self
  have hvalue : ∀ s ∈ t.children, s.kind.isExpression → Lowerable d scope s := fun s hs hs' =>
    lowerable d scope s (h.child hs) hs'
  have hpart : ∀ s ∈ t.children, s.kind.isStatement → Finishes (lowerStatement d scope result s) :=
    fun s hs hs' => ih s hs (h.child hs) hs'
  -- by form; the expressions are lowered, the statements by induction
  rcases e : t.kind <;> rw [e] at hk <;> try cases hk
  case assignment =>
    obtain ⟨value, hcs, hvalueKind⟩ := Tree.exists_one_of_isFormed hformed (by rw [e]; decide)
    rw [lowerStatement_assignment e]
    exact finishes_lowerAssignment hcs (hvalue value (by simp [hcs]) hvalueKind)
  case elementAssignment =>
    obtain ⟨index, value, hcs, hi, hv⟩ := Tree.exists_two_of_isFormed hformed (by rw [e]; decide)
    rw [lowerStatement_elementAssignment e]
    exact finishes_lowerElementAssignment hcs (hvalue index (by simp [hcs]) hi)
      (hvalue value (by simp [hcs]) hv)
  case expressionStmt =>
    obtain ⟨s, hcs, hs⟩ := Tree.exists_one_of_isFormed hformed (by rw [e]; decide)
    have hmem : s ∈ t.children := by simp [hcs]
    have hregular := h.child hmem
    rw [lowerStatement_expressionStmt e]
    refine finishes_lowerExpressionStmt hcs hregular.formed.self (hvalue s hmem hs) fun r hr => ?_
    exact lowerable d scope r (hregular.child hr)
      (Tree.isExpression_of_child hregular.formed.self hs hr)
  case returnStmt =>
    rw [lowerStatement_return e, lowerReturn]
    rcases Tree.returnStmt_of_isFormed hformed e with hcs | ⟨value, hcs, hv⟩
    · rw [hcs]
      exact finishes_pure _
    · have hlowerable := hvalue value (by simp [hcs]) hv
      rw [hcs]
      exact (hlowerable.finishes _).bind fun _ => finishes_pure _
  case conditional =>
    obtain ⟨condition, a, b, hcs, hc, ha, hb⟩ := Tree.conditional_of_isFormed hformed e
    intro c
    have hcondition := hvalue condition (by simp [hcs]) hc
    obtain ⟨x, c₀, hx⟩ := hcondition.finishes (some .boolean) ⟨c.temporaries, c.labels + 1⟩
    obtain ⟨thenLines, c₁, hthen⟩ := hpart a (by simp [hcs]) ha c₀
    obtain ⟨elseLines, c₂, helse⟩ := hpart b (by simp [hcs]) hb c₁
    have helse : (lowerFirst d scope result [b]).run c₁ = .ok (elseLines, c₂) := by
      rw [lowerFirst]
      exact helse
    exact ⟨_, c₂, run_lowerStatement_conditional e hcs hx hthen helse⟩
  case loop =>
    obtain ⟨condition, a, hcs, hc, ha⟩ := Tree.loop_of_isFormed hformed e
    intro c
    have hcondition := hvalue condition (by simp [hcs]) hc
    obtain ⟨x, c₀, hx⟩ := hcondition.finishes (some .boolean) ⟨c.temporaries, c.labels + 1⟩
    obtain ⟨bodyLines, c₁, hbody⟩ := hpart a (by simp [hcs]) ha c₀
    exact ⟨_, c₁, run_lowerStatement_loop e hcs hx hbody⟩
  case block =>
    rw [lowerStatement_block e]
    exact finishes_lowerBlock fun s hs => hpart s hs (Tree.block_of_isFormed hformed e s hs)

/-! ### Programs -/

variable {root : Tree}

theorem finishes_mapM {α β : Type} {f : α → Lowering β} {xs : List α}
    (h : ∀ x ∈ xs, Finishes (f x)) : Finishes (xs.mapM f) := by
  induction xs with
  | nil => exact finishes_pure []
  | cons x rest ih =>
    rw [List.mapM_cons]
    refine (h x (List.mem_cons_self ..)).bind fun y => Finishes.bind ?_ fun ys => finishes_pure _
    exact ih fun x hx => h x (List.mem_cons_of_mem _ hx)

theorem finishes_lowerMethod {m : Tree} (h : m.Regular) : Finishes (lowerMethod d m) := by
  refine Finishes.bind ?_ fun ls => finishes_pure _
  refine finishes_lowerBlock fun s hs => ?_
  obtain ⟨hmem, hk⟩ := Tree.mem_statements.mp hs
  exact finishes_lowerStatement d _ _ s (h.child hmem) hk

/-- A regular program is lowered. -/
theorem exists_ofTree (h : root.Regular) : ∃ p, Program.ofTree d root = .ok p := by
  have hclasses : ∀ cls ∈ root.childrenOf .classDecl, Finishes (lowerClass d cls) := by
    intro cls hcls
    refine Finishes.bind (finishes_mapM fun m hm => finishes_lowerMethod ?_)
      fun ms => finishes_pure _
    exact (h.child (Tree.mem_childrenOf.mp hcls).1).child (Tree.mem_childrenOf.mp hm).1
  have hprogram : Finishes (lowerProgram d root) :=
    (finishes_mapM hclasses).bind fun _ => finishes_pure _
  obtain ⟨p, c, hp⟩ := hprogram ⟨0, 0⟩
  exact ⟨p, run'_ok hp⟩

/-- An operation that is lowered has a known operator. -/
theorem Emits.hasKnownOperator {ls : List Line} (h : Emits d scope ls t) : t.hasKnownOperator := by
  by_contra hunknown
  have hunknown : t.hasKnownOperator = false := by simpa using hunknown
  refine absurd ?_ (ne_true_of_eq_false hunknown)
  have hoperation := Tree.isOperation_of_hasKnownOperator_eq_false hunknown
  cases h with
  | callStmt hcall =>
    rw [hcall] at hoperation
    simp at hoperation
  | value h =>
    obtain ⟨wanted, c, v, c', hv, -⟩ := h
    cases hv.expands with
    | arithmetic hk hop => exact (Tree.exists_arithmetic_iff hk).mp ⟨_, hop⟩
    | logical hk hop => exact (Tree.exists_logical_iff hk).mp ⟨_, hop⟩
    | integer hk | boolean hk | self hk | unbound hk | variable_ hk | field hk | classRef hk
    | call hk | elementRead hk | emptyLiteral hk | arrayLiteral hk | newObject hk | newArray hk
    | length hk =>
      rw [hk] at hoperation
      simp at hoperation

/-- A grammatical program is lowered just if its operators are all known. -/
theorem exists_ofTree_iff (hgrammar : root.isGrammatical) :
    (∃ p, Program.ofTree d root = .ok p) ↔ ¬ ∃ u ∈ root.bodyTrees, u.hasKnownOperator = false := by
  constructor
  · rintro ⟨p, hp⟩ ⟨u, hu, hunknown⟩
    obtain ⟨q, hq, rfl⟩ :=
      Place.exists_of_mem_preorder (p := .top root) (Tree.mem_preorder_of_bodyTrees hu)
    have hk : q.tree.kind.isAlwaysLowered := by
      rcases Tree.isOperation_of_hasKnownOperator_eq_false hunknown with hk | hk <;> rw [hk] <;> rfl
    obtain ⟨m, -, -, hemits⟩ := exists_emits_of_ofTree hgrammar hp hq hk
    rw [hemits.hasKnownOperator] at hunknown
    nomatch hunknown
  · intro hknown
    exact exists_ofTree (Tree.regular_of_isGrammatical hgrammar hknown)

/-- A program without findings is lowered. -/
theorem exists_ofTree_of_clean (hgrammar : root.isGrammatical)
    (hclean : d.analyze (.top root) = .ok .empty) : ∃ p, Program.ofTree d root = .ok p :=
  (exists_ofTree_iff hgrammar).mpr ((Declarations.exists_analyze_iff hgrammar).mp ⟨_, hclean⟩)

theorem exists_error_iff {ε α : Type} {x : Except ε α} :
    (∃ e, x = .error e) ↔ ¬ ∃ a, x = .ok a := by
  cases x with
  | error e => simp
  | ok a => simp

open Compiler in
/-- **Faults.**  The checks of a grammatical program end in a fault just if its
lowering does, and both do just if an operation in the body of a method has an
operator that its kind does not know.  So where the checks come to an end, whatever
they report, the program has a text, and a compilation that generates code in
spite of errors asks the builder with it. -/
theorem faults_agree (hgrammar : root.isGrammatical) (hroot : Declarations.ofTree root = .ok d) :
    ((∃ fault, d.analyze (.top root) = .error fault) ↔
      ∃ fault, Program.ofTree d root = .error fault) ∧
    ((∃ fault, d.analyze (.top root) = .error fault) ↔
      ∃ u ∈ root.bodyTrees, u.hasKnownOperator = false) ∧
    ∀ diagnostics, d.analyze (.top root) = .ok diagnostics →
      ∃ text, lowerText d (.top root) = .ok text ∧
        ∀ (μ : Type → Type) [Monad μ] (config : Config)
          (build : String → μ (Except String Graph.ClassUnit)), config.emitOnErrors →
          compile config build (.top root) = (do
            match ← build text with
            | .error reason => pure (.error (.build reason))
            | .ok unit =>
              pure ((assemblyText config unit).map fun assembly =>
                ⟨d, diagnostics, some text, some assembly⟩)) := by
  have hchecks := Declarations.exists_analyze_iff (d := d) hgrammar
  have hlowering := exists_ofTree_iff (d := d) hgrammar
  refine ⟨?_, ?_, ?_⟩
  · rw [exists_error_iff, exists_error_iff, hchecks, hlowering]
  · rw [exists_error_iff, hchecks, not_not]
  · intro diagnostics hdiagnostics
    obtain ⟨p, hp⟩ := hlowering.mpr (hchecks.mp ⟨diagnostics, hdiagnostics⟩)
    have htext : lowerText d (.top root) = .ok p.text := by
      show ((Program.ofTree d root).map (·.text)).mapError CompileError.fault = .ok p.text
      rw [hp]
      rfl
    refine ⟨p.text, htext, ?_⟩
    intro μ _ config build hemit
    have hanalyze : analyze (.top root) = .ok (d, diagnostics) := by
      have hdeclare : declare (.top root) = .ok d := by
        show (Declarations.ofTree root).mapError CompileError.malformed = .ok d
        rw [hroot]
        rfl
      rw [analyze, hdeclare]
      show ((d.analyze (.top root)).mapError CompileError.fault >>= _) = _
      rw [hdiagnostics]
      rfl
    rw [compile, hanalyze]
    simp only [hemit, Bool.not_true, Bool.and_false]
    rw [generate, htext]
    rfl

/-! ### An operator that is not known, and a method that is not

    class Clock {
      int hour(int minutes) { return minutes % 60; }
    }

    class Clock {
      int hour(int minutes) { return this.divided(minutes); }   // not declared
    }
-/

/-- A class with one method, which returns the given expression. -/
def clock (value : Tree) : Tree :=
  let int := (Form.typeName "int" false false).tree
  let hour := (Form.methodDecl "hour" int false
    [(Form.parameter "minutes" int).tree, (Form.returnStmt (some value)).tree]).tree
  (Form.program [(Form.classDecl "Clock" none [hour]).tree]).tree

def clockDeclarations : Declarations :=
  ⟨"Clock", none, [], [], [⟨"hour", .int, [⟨"minutes", .int⟩], [], false⟩]⟩

def remainder : Tree :=
  (Form.arithmetic "%" (Form.identifier "minutes").tree (Form.integer 60).tree).tree

def undeclaredCall : Tree :=
  (Form.call "divided" Form.self.tree [(Form.identifier "minutes").tree]).tree

theorem clock_faults_agree :
    ((∃ fault, clockDeclarations.analyze (.top (clock remainder)) = .error fault) ∧
      ∃ fault, Program.ofTree clockDeclarations (clock remainder) = .error fault) ∧
    ∃ diagnostics, clockDeclarations.analyze (.top (clock undeclaredCall)) = .ok diagnostics ∧
      diagnostics.hasErrors ∧
      ∃ text, Compiler.lowerText clockDeclarations (.top (clock undeclaredCall)) = .ok text := by
  constructor
  · have hgrammar : (clock remainder).isGrammatical := by decide
    obtain ⟨hagree, hunknown, -⟩ := faults_agree (d := clockDeclarations) hgrammar rfl
    have hchecks := hunknown.mpr (by decide)
    exact ⟨hchecks, hagree.mp hchecks⟩
  · have hgrammar : (clock undeclaredCall).isGrammatical := by decide
    obtain ⟨-, -, hlowered⟩ := faults_agree (d := clockDeclarations) hgrammar rfl
    obtain ⟨diagnostics, hdiagnostics, herrors⟩ : ∃ diagnostics,
        clockDeclarations.analyze (.top (clock undeclaredCall)) = .ok diagnostics ∧
          diagnostics.hasErrors := ⟨_, rfl, rfl⟩
    obtain ⟨text, htext, -⟩ := hlowered diagnostics hdiagnostics
    exact ⟨diagnostics, hdiagnostics, herrors, text, htext⟩

end JavaMinus.ThreeAddress
