/-
JavaMinus/Proofs/Acceptance.lean

What passes the checks is well typed.

The checks say nothing about some expressions whose type they do not know, and
about some names that they do not expect.  A place is explicit if it has none
of these (`Place.isExplicit`): then what a clean check of its node establishes
is what a well-typed expression or statement asks for there
(`Place.Accepted.wellTyped`, `Place.Accepted.wellTypedStatement`).
-/
import JavaMinus.Proofs.Declarations
import JavaMinus.Proofs.Grammar
import JavaMinus.Proofs.Checks
import JavaMinus.Proofs.WellTyped

namespace JavaMinus

/-! ### Explicit programs -/

namespace Place

variable (d : Declarations)

/-- Whether an expression has a value, or none is known of it. -/
def mayBeValue (scope : Option String) (t : Tree) : Bool := d.known? scope t != some .void

/-- Whether an expression is an object or a class. -/
def isObject (scope : Option String) (t : Tree) : Bool :=
  (d.known? scope t).any fun ty => !ty.isArray && !Ty.reserved.contains ty.name

/-- Whether the elements of an array literal have values, and are numbers as
far as is known if nothing is known of the first one. -/
def explicitElements (scope : Option String) (elements : List Tree) : Bool :=
  elements.all (fun e => mayBeValue d scope e && !d.namesClass scope e) &&
    ((elements.head?.bind (d.known? scope)).isSome ||
      elements.all fun e => (d.known? scope e).all (· == .int))

/-- Whether an array literal without an element of known type is assigned to
an array of numbers only. -/
def explicitLiteral (scope : Option String) (target : String) (value : Tree) : Bool :=
  !(value.kind == .arrayLiteral && (value.children.filterMap (d.known? scope)).isEmpty) ||
    (d.variableOf? scope target).all (·.ty.name == "int")

/-- Whether a node leaves nothing open that its check passes over. -/
def isExplicit (p : Place) : Bool :=
  let scope := p.method?
  match p.tree.kind with
  | .newObject => !Ty.reserved.contains p.tree.name
  | .newArray => p.tree.children.all fun size => (d.known? scope size).all (· == .int)
  | .elementRead | .length => p.tree.children.head?.all fun array => (d.known? scope array).isSome
  | .call =>
    p.tree.children.head?.all (isObject d scope) &&
      (p.tree.children.drop 1).all (mayBeValue d scope)
  | .arrayLiteral => explicitElements d scope p.tree.children
  | .assignment =>
    p.tree.children.all fun value =>
      !d.namesClass scope value && explicitLiteral d scope p.tree.name value
  | .elementAssignment => p.tree.children.all fun value => !d.namesClass scope value
  | .expressionStmt => p.tree.children.all fun e => e.kind == .call || mayBeValue d scope e
  | .returnStmt =>
    p.tree.children.all (fun value => !d.namesClass scope value) &&
      (p.tree.children.isEmpty || (scope.bind d.returnType?).getD .void != .void)
  | _ => true

/-- A place inside of which all nodes are formed, pass their checks and are
explicit. -/
structure Accepted (p : Place) : Prop where
  formed : ∀ q ∈ p.preorder, q.tree.isFormed
  clean : ∀ q ∈ p.preorder, q.check d = pure ()
  explicit : ∀ q ∈ p.preorder, q.isExplicit d

theorem Accepted.child {d : Declarations} {p c : Place} (h : p.Accepted d)
    (hc : c ∈ p.children) : c.Accepted d where
  formed q hq := h.formed q (mem_preorder_of_child hc hq)
  clean q hq := h.clean q (mem_preorder_of_child hc hq)
  explicit q hq := h.explicit q (mem_preorder_of_child hc hq)

end Place

/-! ### What clean checks establish -/

namespace Place

variable {d : Declarations} {p value site : Place} {ty : Ty}

theorem typeOf_of_typed {found : Option Ty} (h : value.typed d = pure found) :
    d.typeOf value.method? value.tree = .ok found :=
  Review.ofExcept_eq_pure h

theorem mayBe_of_wantType {problem : Ty → Problem}
    (h : wantType d ty problem value site = pure ()) :
    d.MayBe value.method? value.tree ty := by
  rw [wantType_eq] at h
  obtain ⟨found, hfound, h⟩ := Review.bind_eq_pure h
  rcases found with - | found
  · exact Or.inl (typeOf_of_typed hfound)
  · have heq := bne_eq_false_iff_eq.mp (Review.reportIf_eq_pure h)
    exact Or.inr (by rw [typeOf_of_typed hfound, heq])

theorem compatible_of_wantCompatible (h : wantCompatible d ty value site = pure ()) :
    ∀ found, d.typeOf value.method? value.tree = .ok (some found) → d.compatible found ty := by
  rw [wantCompatible_eq] at h
  obtain ⟨found, hfound, h⟩ := Review.bind_eq_pure h
  intro found' hfound'
  rw [typeOf_of_typed hfound] at hfound'
  injection hfound' with hfound'
  subst hfound'
  simpa using Review.reportIf_eq_pure h

theorem isArray_of_wantArray {problem : String → Problem}
    (h : wantArray d problem value site = pure ()) :
    ∀ found, d.typeOf value.method? value.tree = .ok (some found) → found.isArray := by
  rw [wantArray_eq] at h
  obtain ⟨found, hfound, h⟩ := Review.bind_eq_pure h
  intro found' hfound'
  rw [typeOf_of_typed hfound] at hfound'
  injection hfound' with hfound'
  subst hfound'
  simpa using Review.reportIf_eq_pure h

theorem child?_eq (p : Place) (i : Nat) :
    p.child? i = (p.tree.children[i]?).map (⟨·, p.around⟩) := by
  rw [child?, children, List.getElem?_map]

theorem mayBe_of_checkOperands {left right : Tree} (hcs : p.tree.children = [left, right])
    (h : checkOperands d ty p = pure ()) :
    d.MayBe (Place.mk left p.around).method? left ty ∧
      d.MayBe (Place.mk right p.around).method? right ty := by
  rw [checkOperands_eq, child?_eq, child?_eq, hcs] at h
  obtain ⟨x, hx, h⟩ := Review.bind_eq_pure h
  obtain ⟨y, hy, h⟩ := Review.bind_eq_pure h
  obtain ⟨hl, hr⟩ := Bool.or_eq_false_iff.mp (Review.reportIf_eq_pure h)
  have hof : ∀ {found : Option Ty} {q : Place}, q.typed d = pure found →
      (found.getD ty != ty) = false → d.MayBe q.method? q.tree ty := by
    intro found q hq hfound
    rcases found with - | found
    · exact Or.inl (typeOf_of_typed hq)
    · have heq : found = ty := bne_eq_false_iff_eq.mp hfound
      exact Or.inr (by rw [typeOf_of_typed hq, heq])
  exact ⟨hof hx hl, hof hy hr⟩

end Place

/-! ### Accepted expressions -/

namespace Place

open Declarations

variable {d : Declarations} {p : Place} {u : Tree}

theorem mem_children_of_mem (hu : u ∈ p.tree.children) : Place.mk u p.around ∈ p.children :=
  List.mem_map_of_mem hu

/-- An expression or a statement belongs to the method that its parent belongs
to. -/
theorem method?_of_part (hu : u ∈ p.tree.children)
    (hk : u.kind.isExpression ∨ u.kind.isStatement) :
    (Place.mk u p.around).method? = p.method? := by
  refine method?_of_child (mem_children_of_mem hu) ?_
  intro hmethod
  have hmethod : u.kind = .methodDecl := hmethod
  rw [hmethod] at hk
  rcases hk with hk | hk <;> cases hk

/-- What an expression below a node can be shown to be, since it is smaller. -/
def PartsWellTyped (d : Declarations) (p : Place) : Prop :=
  ∀ u ∈ p.tree.children, u.kind.isExpression → WellTyped d p.method? u

/-- An expression below a node, in the terms of the node. -/
theorem PartsWellTyped.part (ih : p.PartsWellTyped d) (hu : u ∈ p.tree.children)
    (hk : u.kind.isExpression) :
    WellTyped d p.method? u ∧ (Place.mk u p.around).method? = p.method? :=
  ⟨ih u hu hk, method?_of_part hu (Or.inl hk)⟩

theorem mayBe_of_all {scope : Option String} {t : Tree} {ty : Ty} (ht : WellTyped d scope t)
    (h : (d.known? scope t).all (· == ty)) : d.MayBe scope t ty := by
  obtain ⟨found, hfound⟩ := ht.typeOf_ok
  rw [known?_eq hfound] at h
  rcases found with - | found
  · exact Or.inl hfound
  · exact Or.inr (by rw [hfound, eq_of_beq h])

theorem not_isVoid_of_mayBeValue {scope : Option String} {t : Tree}
    (h : mayBeValue d scope t) : ¬ d.IsVoid scope t := by
  intro hvoid
  rw [mayBeValue, known?_eq hvoid] at h
  cases h

namespace Accepted

variable (h : p.Accepted d)
include h

theorem formed_self : p.tree.isFormed := h.formed p p.mem_preorder_self

theorem clean_self : p.check d = pure () := h.clean p p.mem_preorder_self

theorem explicit_self : p.isExplicit d := h.explicit p p.mem_preorder_self

theorem identifier (hk : p.tree.kind = .identifier) : WellTyped d p.method? p.tree := by
  have hclean := h.clean_self
  rw [check_eq, hk, checkIdentifier_eq] at hclean
  obtain ⟨hbound, -⟩ := Review.bind_unit_eq_pure hclean
  have hsome := Review.reportIf_eq_pure hbound
  rcases e : p.binding? d with - | b
  · rw [e] at hsome
    cases hsome
  · exact .identifier hk e

theorem one_part (ih : p.PartsWellTyped d)
    (hk : p.tree.kind ∈ [.assignment, .expressionStmt, .newArray, .length]) :
    ∃ e, p.tree.children = [e] ∧ WellTyped d p.method? e ∧
      (Place.mk e p.around).method? = p.method? := by
  obtain ⟨e, hcs, he⟩ := Tree.exists_one_of_isFormed h.formed_self hk
  have hmem : e ∈ p.tree.children := by
    rw [hcs]
    exact List.mem_singleton_self e
  exact ⟨e, hcs, ih.part hmem he⟩

theorem two_parts (ih : p.PartsWellTyped d)
    (hk : p.tree.kind ∈ [.elementAssignment, .arithmetic, .logical, .elementRead]) :
    ∃ left right, p.tree.children = [left, right] ∧
      (WellTyped d p.method? left ∧ (Place.mk left p.around).method? = p.method?) ∧
      (WellTyped d p.method? right ∧ (Place.mk right p.around).method? = p.method?) := by
  obtain ⟨left, right, hcs, hleft, hright⟩ := Tree.exists_two_of_isFormed h.formed_self hk
  have hl : left ∈ p.tree.children := Tree.mem_children_of_eq_cons hcs
  have hr : right ∈ p.tree.children := by
    rw [hcs]
    exact List.mem_cons_of_mem _ (List.mem_singleton_self _)
  exact ⟨left, right, hcs, ih.part hl hleft, ih.part hr hright⟩

theorem arithmetic (hk : p.tree.kind = .arithmetic) (ih : p.PartsWellTyped d) :
    WellTyped d p.method? p.tree := by
  obtain ⟨left, right, hcs, ⟨hleft, hml⟩, hright, hmr⟩ := h.two_parts ih (by rw [hk]; decide)
  have hclean := h.clean_self
  rw [check_eq, hk, checkArithmetic_eq] at hclean
  obtain ⟨op, hop, hclean⟩ := Review.bind_eq_pure hclean
  obtain ⟨hl, hr⟩ := mayBe_of_checkOperands hcs hclean
  rw [hml] at hl
  rw [hmr] at hr
  exact .arithmetic hk (Review.ofExcept_eq_pure hop) hcs hleft hright hl hr

theorem logical (hk : p.tree.kind = .logical) (ih : p.PartsWellTyped d) :
    WellTyped d p.method? p.tree := by
  obtain ⟨left, right, hcs, ⟨hleft, hml⟩, hright, hmr⟩ := h.two_parts ih (by rw [hk]; decide)
  have hclean := h.clean_self
  rw [check_eq, hk, checkLogical_eq] at hclean
  obtain ⟨op, hop, hclean⟩ := Review.bind_eq_pure hclean
  obtain ⟨hl, hr⟩ := mayBe_of_checkOperands hcs hclean
  rw [hml] at hl
  rw [hmr] at hr
  exact .logical hk (Review.ofExcept_eq_pure hop) hcs rfl hleft hright hl hr

theorem elementRead (hk : p.tree.kind = .elementRead) (ih : p.PartsWellTyped d) :
    WellTyped d p.method? p.tree := by
  obtain ⟨array, index, hcs, ⟨harray, hma⟩, hindex, hmi⟩ := h.two_parts ih (by rw [hk]; decide)
  have hclean := h.clean_self
  rw [check_eq, hk] at hclean
  simp only [checkElementRead_eq, child?_eq, hcs] at hclean
  obtain ⟨hwanted, hi⟩ := Review.bind_unit_eq_pure hclean
  have hexplicit := h.explicit_self
  rw [isExplicit, hk, hcs] at hexplicit
  obtain ⟨ty, hty⟩ := Option.isSome_iff_exists.mp hexplicit
  have htype := typeOf_of_known? hty
  have hisArray := isArray_of_wantArray hwanted ty (by rw [hma]; exact htype)
  have hindexType := mayBe_of_wantType hi
  rw [hmi] at hindexType
  exact .elementRead hk hcs harray hindex htype hisArray hindexType

theorem length (hk : p.tree.kind = .length) (ih : p.PartsWellTyped d) :
    WellTyped d p.method? p.tree := by
  obtain ⟨array, hcs, harray, hma⟩ := h.one_part ih (by rw [hk]; decide)
  have hclean := h.clean_self
  rw [check_eq, hk] at hclean
  simp only [checkLength_eq, child?_eq, hcs] at hclean
  have hexplicit := h.explicit_self
  rw [isExplicit, hk, hcs] at hexplicit
  obtain ⟨ty, hty⟩ := Option.isSome_iff_exists.mp hexplicit
  have htype := typeOf_of_known? hty
  exact .length hk hcs harray htype (isArray_of_wantArray hclean ty (by rw [hma]; exact htype))

theorem newArray (hk : p.tree.kind = .newArray) (ih : p.PartsWellTyped d) :
    WellTyped d p.method? p.tree := by
  obtain ⟨size, hcs, hsize, -⟩ := h.one_part ih (by rw [hk]; decide)
  have hexplicit := h.explicit_self
  rw [isExplicit, hk, hcs] at hexplicit
  obtain ⟨hs, -⟩ := Bool.and_eq_true_iff.mp hexplicit
  exact .newArray hk hcs hsize (mayBe_of_all hsize hs)

end Accepted

/-! ### Accepted array literals -/

/-- The known types among those of some trees. -/
theorem filterMap_of_typed {around us : List Tree} {scope : Option String}
    {types : List (Option Ty)}
    (hscope : ∀ u ∈ us, (Place.mk u around).method? = scope)
    (h : List.Forall₂ (fun q ty => q.type d = .ok ty) (us.map (Place.mk · around)) types) :
    types.filterMap id = us.filterMap (d.known? scope) := by
  induction us generalizing types with
  | nil =>
    cases h
    rfl
  | cons u rest ih =>
    rcases h with - | ⟨hty, hrest⟩
    have htype : d.typeOf (Place.mk u around).method? u = .ok _ := hty
    rw [hscope u (List.mem_cons_self ..)] at htype
    rw [List.filterMap_cons, List.filterMap_cons, known?_eq htype,
      ih (fun v hv => hscope v (List.mem_cons_of_mem _ hv)) hrest]
    rfl

/-- What a clean check of an array literal establishes. -/
theorem Accepted.elements (h : p.Accepted d) (hk : p.tree.kind = .arrayLiteral) :
    p.unlikeElements (p.tree.children.filterMap (d.known? p.method?)) = [] ∧
      p.literalAssigned d (p.tree.children.filterMap (d.known? p.method?)).head? = [] := by
  have hclean := h.clean_self
  rw [check_eq, hk, checkArrayLiteral_eq] at hclean
  obtain ⟨types, htypes, hclean⟩ := Review.bind_eq_pure hclean
  have hexpressions := Tree.arrayLiteral_of_isFormed h.formed_self hk
  rw [filterMap_of_typed (fun u hu => method?_of_part hu (Or.inl (hexpressions u hu)))
    (forall₂_of_mapM_ok (Review.ofExcept_eq_pure htypes))] at hclean
  obtain ⟨hunlike, hassigned⟩ := Review.bind_unit_eq_pure hclean
  exact ⟨Review.found_eq_pure hunlike, Review.found_eq_pure hassigned⟩

theorem eq_of_unlikeElements {first ty : Ty} {known : List Ty} (h : p.unlikeElements known = [])
    (hfirst : known.head? = some first) (hty : ty ∈ known) : ty = first := by
  obtain ⟨rest, rfl⟩ := List.head?_eq_some_iff.mp hfirst
  have hnone := List.filter_eq_nil_iff.mp (List.map_eq_nil_iff.mp h)
  rcases List.mem_cons.mp hty with rfl | hty
  · rfl
  · by_contra hne
    exact hnone ty hty (bne_iff_ne.mpr hne)

theorem Accepted.arrayLiteral (h : p.Accepted d) (hk : p.tree.kind = .arrayLiteral)
    (ih : p.PartsWellTyped d) : WellTyped d p.method? p.tree := by
  have hexpressions := Tree.arrayLiteral_of_isFormed h.formed_self hk
  have helements := fun e he => ih e he (hexpressions e he)
  have hexplicit := h.explicit_self
  rw [isExplicit, hk] at hexplicit
  obtain ⟨hvalues, hfirst⟩ := Bool.and_eq_true_iff.mp hexplicit
  have hvalue : ∀ e ∈ p.tree.children,
      mayBeValue d p.method? e ∧ d.namesClass p.method? e = false := by
    intro e he
    have := List.all_eq_true.mp hvalues e he
    simpa using this
  obtain ⟨hunlike, -⟩ := h.elements hk
  rcases hcs : p.tree.children with - | ⟨first, rest⟩
  · exact .emptyLiteral hk hcs
  · have hmem : ∀ e ∈ first :: rest, e ∈ p.tree.children := fun e he => hcs ▸ he
    obtain ⟨element, helement⟩ := (helements first (hmem _ (List.mem_cons_self ..))).typeOf_ok
    refine .arrayLiteral hk hcs helement (fun e he => helements e (hmem e he))
      (fun e he => ⟨?_, (hvalue e (hmem e he)).2⟩) ?_
    · rcases element with - | ty
      · -- nothing is known of the first element
        have hall : p.tree.children.all fun e => (d.known? p.method? e).all (· == .int) := by
          rw [hcs] at hfirst ⊢
          simpa [known?_eq helement] using hfirst
        exact mayBe_of_all (helements e (hmem e he)) (List.all_eq_true.mp hall e (hmem e he))
      -- what is known of another element is what is known of the first one
      · refine mayBe_of_all (helements e (hmem e he)) ?_
        rcases eknown : d.known? p.method? e with - | found
        · rfl
        · have hhead : (p.tree.children.filterMap (d.known? p.method?)).head? = some ty := by
            rw [hcs, List.filterMap_cons, known?_eq helement]
            rfl
          have heq := eq_of_unlikeElements hunlike hhead
            (List.mem_filterMap.mpr ⟨e, hmem e he, eknown⟩)
          rw [heq]
          exact beq_self_eq_true ty
    · rintro rfl
      exact not_isVoid_of_mayBeValue (hvalue first (hmem _ (List.mem_cons_self ..))).1 helement

/-! ### Accepted calls -/

/-- A call on an object of the class is no call on something imported. -/
theorem callsImport_eq_false (hown : d.isImported d.className = false) {receiver : Tree}
    {rest : List Tree} (hcs : p.tree.children = receiver :: rest)
    (hmethod : (Place.mk receiver p.around).method? = p.method?)
    (htype : d.typeOf p.method? receiver = .ok (some (.scalar d.className))) :
    p.callsImport d = .ok false := by
  have hbyType : (do
      let ty ← (Place.mk receiver p.around).type d
      pure (ty.any fun ty => d.isImported ty.name) : Except Fault Bool) = .ok false := by
    show (d.typeOf (Place.mk receiver p.around).method? receiver >>= _) = _
    rw [hmethod, htype]
    exact congrArg Except.ok hown
  simp only [callsImport, child?_eq, hcs]
  change (if receiver.kind == .identifier then _ else _) = _
  split
  · next hk =>
    rcases e : (Place.mk receiver p.around).binding? d with - | b
    · rfl
    · have hb : d.identifier? p.method? receiver = some b := by
        rw [← hmethod]
        exact e
      have horigin : (b.origin == .importedClass) = false := by
        rw [beq_eq_false_iff_ne]
        intro himported
        have htype' := typeOf_identifier (eq_of_beq hk) hb
        rw [htype] at htype'
        injection htype' with htype'
        injection htype' with htype'
        obtain ⟨hty, hclass⟩ := class?_eq_some (class?_of_identifier? hb (by rw [himported]; rfl))
        rcases hclass with ⟨-, hclass⟩ | ⟨hnot, -⟩
        · rw [← htype', Ty.scalar.injEq] at hty
          rw [← hty, hown] at hclass
          cases hclass
        · exact hnot himported
      simp only [horigin]
      exact hbyType
  · exact hbyType

/-- A clean check of a call of one of the class's own methods checks its
arguments. -/
theorem checkArguments_of_check (hown : d.isImported d.className = false)
    (hk : p.tree.kind = .call) {receiver : Tree} {rest : List Tree}
    (hcs : p.tree.children = receiver :: rest)
    (hmethod : (Place.mk receiver p.around).method? = p.method?)
    (htype : d.typeOf p.method? receiver = .ok (some (.scalar d.className)))
    (hdeclared : d.hasMethod p.tree.name) (h : p.check d = pure ()) :
    p.checkArguments d p.tree.name = pure () := by
  rw [check_eq, hk, checkCall_eq] at h
  have htarget : d.targetsOwnClass p.method? p.tree = .ok true := by
    rw [targetsOwnClass, hcs]
    simp only [htype, Except.map, isOwnType, beq_self_eq_true]
  rw [callsImport_eq_false hown hcs hmethod htype, hdeclared, htarget] at h
  exact h

/-- What is left for an open tail of numbers is a single array of numbers, or
consists of numbers, as far as is known. -/
theorem single_or_each_of_checkOpenArguments {around us : List Tree} {scope : Option String}
    (hscope : ∀ u ∈ us, (Place.mk u around).method? = scope)
    (h : checkOpenArguments d .int (us.map (Place.mk · around)) = pure ()) :
    (∃ u ty, us = [u] ∧ d.typeOf scope u = .ok (some ty) ∧ ty.isArray ∧ ty.name = "int") ∨
      ∀ u ∈ us, d.MayBe scope u .int := by
  rw [checkOpenArguments_eq] at h
  obtain ⟨single, hsingle, h⟩ := Review.bind_eq_pure h
  have hsingle := Review.ofExcept_eq_pure hsingle
  cases single with
  | false =>
    right
    intro u hu
    have hwanted := Review.forM_eq_pure h _ (List.mem_map_of_mem hu)
    rw [← hscope u hu]
    exact mayBe_of_wantType hwanted
  | true =>
    left
    -- only one argument that is left can be an array
    rcases us with - | ⟨u, - | ⟨v, rest⟩⟩
    · cases hsingle
    · obtain ⟨found, htype, hany⟩ := bind_eq_ok hsingle
      have hany := Except.ok.inj hany
      rcases found with - | ty
      · cases hany
      have htype : d.typeOf (Place.mk u around).method? u = .ok (some ty) := htype
      rw [hscope u (List.mem_singleton_self u)] at htype
      obtain ⟨hisArray, hname⟩ := Bool.and_eq_true_iff.mp hany
      exact ⟨u, ty, rfl, htype, hisArray, eq_of_beq hname⟩
    · cases hsingle

theorem arguments_eq {receiver : Tree} {rest : List Tree}
    (hcs : p.tree.children = receiver :: rest) :
    p.arguments = rest.map (Place.mk · p.around) := by
  rw [Place.arguments, children, hcs, List.map_cons, List.drop_succ_cons, List.drop_zero]

/-- The arguments of an accepted call fill the open tail, if there is one. -/
theorem Accepted.fitsTail (h : p.Accepted d) (hd : d.ClearNames) {root : Tree}
    (hroot : Declarations.ofTree root = .ok d) (hk : p.tree.kind = .call) {receiver : Tree}
    {arguments : List Tree} (hcs : p.tree.children = receiver :: arguments)
    (hparts : ∀ u ∈ p.tree.children, u.kind.isExpression) {className : String}
    (hobject : d.typeOf p.method? receiver = .ok (some (.scalar className))) :
    d.FitsTail p.method? p.tree arguments := by
  intro ty tail hty htail
  have hmethod : ∀ u ∈ p.tree.children, (Place.mk u p.around).method? = p.method? :=
    fun u hu => method?_of_part hu (Or.inl (hparts u hu))
  have hreceiver : receiver ∈ p.tree.children := Tree.mem_children_of_eq_cons hcs
  rw [callType_ok hcs hobject] at hty
  -- the call is one of the class's own
  have hown : d.hasMethod p.tree.name = true ∧ d.isOwnType (some (.scalar className)) = true := by
    rw [← Bool.and_eq_true_iff]
    by_contra hnot
    rw [if_neg hnot] at hty
    cases hty
  have hclass : className = d.className := by
    have heq := eq_of_beq hown.2
    injection heq with heq
    injection heq
  have harguments := checkArguments_of_check hd.notImported hk hcs (hmethod receiver hreceiver)
    (hclass ▸ hobject) hown.1 h.clean_self
  simp only [checkArguments_eq, htail] at harguments
  split at harguments
  · obtain ⟨-, hrest⟩ := Review.bind_unit_eq_pure harguments
    obtain ⟨hlast, hopen⟩ := Option.filter_eq_some_iff.mp htail
    have hint : tail.ty = .intVarargs :=
      eq_intVarargs_of_parameters hroot (List.mem_of_getLast? hlast) hopen
    rw [hint, arguments_eq hcs, ← List.map_drop] at hrest
    have hscope : ∀ u ∈ arguments.drop (Parameters.fixed (d.parameters p.tree.name)).length,
        (Place.mk u p.around).method? = p.method? := by
      intro u hu
      apply hmethod u
      rw [hcs]
      exact List.mem_cons_of_mem _ (List.mem_of_mem_drop hu)
    rcases single_or_each_of_checkOpenArguments hscope hrest with
      ⟨u, ty, hone, hty, hisArray, -⟩ | heach
    · exact Or.inl ⟨u, ty, hone, hty, hisArray⟩
    · exact Or.inr heach
  · exact absurd harguments Review.report_ne_pure

theorem Accepted.call (h : p.Accepted d) (hd : d.ClearNames) {root : Tree}
    (hroot : Declarations.ofTree root = .ok d) (hk : p.tree.kind = .call)
    (ih : p.PartsWellTyped d) : WellTyped d p.method? p.tree := by
  obtain ⟨receiver, arguments, hcs, hparts⟩ := Tree.call_of_isFormed h.formed_self hk
  have hmem : ∀ u ∈ receiver :: arguments, u ∈ p.tree.children := fun u hu => hcs ▸ hu
  have hexplicit := h.explicit_self
  rw [isExplicit, hk] at hexplicit
  simp only [hcs, List.head?_cons, Option.all_some, List.drop_succ_cons, List.drop_zero,
    Bool.and_eq_true, List.all_eq_true] at hexplicit
  obtain ⟨hobject, hvalues⟩ := hexplicit
  -- the receiver has to be a known object, which also gives its type
  rcases e : d.known? p.method? receiver with - | ty
  · rw [isObject, e] at hobject
    cases hobject
  · rw [isObject, e] at hobject
    obtain ⟨hscalar, hname⟩ := Bool.and_eq_true_iff.mp hobject
    have hscalar := Ty.isArray_eq_false_iff.mp (by simpa using hscalar)
    have htype := typeOf_of_known? e
    rw [hscalar] at htype
    have hreceiver := hmem receiver (List.mem_cons_self ..)
    refine .call hk hcs (ih receiver hreceiver (hparts receiver hreceiver)) htype
      (by simpa using hname) ?_ ?_
      (h.fitsTail hd hroot hk hcs hparts htype)
    · intro a ha
      have ha := hmem a (List.mem_cons_of_mem _ ha)
      exact ih a ha (hparts a ha)
    · intro a ha
      exact not_isVoid_of_mayBeValue (hvalues a ha)

/-- An accepted expression is well typed. -/
theorem Accepted.wellTyped (hd : d.ClearNames) {root : Tree}
    (hroot : Declarations.ofTree root = .ok d) :
    ∀ (t : Tree) (above : List Tree), (Place.mk t above).Accepted d → t.kind.isExpression →
      WellTyped d (Place.mk t above).method? t := by
  -- on the tree; the parts of an accepted place are accepted, so they are well typed already
  refine Tree.induction ?_
  intro t ih above h hexpression
  have hparts : (Place.mk t above).PartsWellTyped d := by
    intro u hu hk
    rw [← method?_of_part (p := ⟨t, above⟩) hu (Or.inl hk)]
    exact ih u hu _ (h.child (mem_children_of_mem (p := ⟨t, above⟩) hu)) hk
  rcases e : t.kind <;> rw [e] at hexpression <;> try cases hexpression
  · exact .integer e
  · exact .boolean e
  · exact h.identifier e
  · exact .self e
  · exact h.arithmetic e hparts
  · exact h.logical e hparts
  · exact h.call hd hroot e hparts
  · exact h.elementRead e hparts
  · exact h.arrayLiteral e hparts
  · have hexplicit := h.explicit_self
    rw [isExplicit, e] at hexplicit
    exact .newObject e (by simpa using hexplicit)
  · exact h.newArray e hparts
  · exact h.length e hparts

/-! ### Accepted statements -/

/-- A value that denotes something is not passed over. -/
theorem not_isUnboundIdentifier {c : Place} (h : WellTyped d c.method? c.tree) :
    c.isUnboundIdentifier d = false := by
  rw [isUnboundIdentifier, Bool.and_eq_false_iff]
  by_cases hk : c.tree.kind = .identifier
  · obtain ⟨b, hb⟩ := h.identifier?_isSome hk
    right
    rw [Place.binding?, hb]
    rfl
  · left
    exact beq_eq_false_iff_ne.mpr hk

/-- The target of an accepted assignment is a variable. -/
theorem target_of_checkTarget (h : p.checkTarget d = pure ()) :
    ∃ b, p.target? d = some b ∧ d.variableOf? p.method? p.tree.name = some b := by
  rw [checkTarget_eq] at h
  obtain ⟨hbound, -⟩ := Review.bind_unit_eq_pure h
  have hsome := Review.reportIf_eq_pure hbound
  rcases e : p.target? d with - | b
  · rw [e] at hsome
    cases hsome
  · obtain ⟨x, hx, hb⟩ := Option.bind_eq_some_iff.mp e
    have hname : p.tree.name = x := by rw [Tree.name, hx, Option.getD_some]
    exact ⟨b, rfl, by rw [hname, hb]⟩

theorem compatible_of_assignmentProblem? {x : String} {source destination : Ty}
    (h : assignmentProblem? d x source destination = none) : d.compatible source destination := by
  rw [assignmentProblem?] at h
  split at h
  · cases h
  · split at h
    · cases h
    · split at h
      · cases h
      · next hcompatible => simpa using hcompatible

/-- The types of array literals whose known elements agree with an array. -/
theorem typeOf_literal {scope : Option String} {value : Tree} {destination : Ty}
    (hvalue : WellTyped d scope value) (hk : value.kind = .arrayLiteral)
    (hhead : ∀ ty, (value.children.filterMap (d.known? scope)).head? = some ty →
      ty.name = destination.name)
    (hnone : value.children.filterMap (d.known? scope) = [] → destination.name = "int") :
    d.typeOf scope value = .ok (some (.array destination.name)) := by
  rcases hvalue.elements hk with hcs | ⟨first, rest, element, hcs, hfirst, helements⟩
  · rw [typeOf_emptyLiteral hk hcs, hnone (by rw [hcs]; rfl)]
    rfl
  · rw [typeOf_arrayLiteral hk hcs hfirst]
    have hname : (element.getD .int).name = destination.name := by
      rcases element with - | ty
      · -- whatever is known of the elements, they are numbers
        rcases e : (value.children.filterMap (d.known? scope)).head? with - | ty
        · rw [hnone (List.head?_eq_none_iff.mp e)]
          rfl
        · obtain ⟨u, hu, hty⟩ := List.mem_filterMap.mp (List.mem_of_head? e)
          rcases helements u hu with hint | hint
          · rw [known?_eq hint] at hty
            cases hty
          · rw [known?_eq hint] at hty
            rw [← hhead ty e, ← Option.some.inj hty]
      · refine hhead ty ?_
        rw [hcs, List.filterMap_cons, known?_eq hfirst]
        rfl
    rw [hname]

/-- An array literal fits the variable that it is assigned to. -/
theorem compatible_of_literal {value : Tree} {b : Binding} {ty : Ty}
    (hc : (Place.mk value p.around).Accepted d) (hk : value.kind = .arrayLiteral)
    (hstatement : p.tree.kind = .assignment) (hb : p.target? d = some b)
    (hm : (Place.mk value p.around).method? = p.method?) (hvalue : WellTyped d p.method? value)
    (hliteral : explicitLiteral d p.method? p.tree.name value)
    (hname : d.variableOf? p.method? p.tree.name = some b)
    (hty : d.typeOf p.method? value = .ok (some ty)) : d.compatible ty b.ty := by
  obtain ⟨-, hassigned⟩ := hc.elements hk
  have hproblem : literalProblem? p.tree.name b.ty
      (value.children.filterMap (d.known? p.method?)).head? = none := by
    have hparent : (Place.mk value p.around).parent? = some p := rfl
    rw [literalAssigned, hm, hparent] at hassigned
    simp only [hstatement, beq_self_eq_true, if_true, hb] at hassigned
    simpa using hassigned
  -- the variable is an array, and the elements have its name
  rw [literalProblem?.eq_def] at hproblem
  split at hproblem
  · cases hproblem
  · next hdestination =>
    have htype : d.typeOf p.method? value = .ok (some (.array b.ty.name)) := by
      refine typeOf_literal hvalue hk ?_ ?_
      · intro found hfound
        rw [hfound] at hproblem
        by_contra hne
        simp only [bne_iff_ne.mpr hne, if_true] at hproblem
        cases hproblem
      · intro hnone
        rw [explicitLiteral, hname, hk, hnone] at hliteral
        simpa using hliteral
    rw [htype] at hty
    injection hty with hty
    injection hty with hty
    have hisArray : b.ty.isArray = true := by
      simpa only [Bool.not_eq_true', Bool.not_eq_false] using hdestination
    rw [← hty]
    show (b.ty.name == b.ty.name && true == b.ty.isArray || _) = true
    rw [hisArray, beq_self_eq_true]
    rfl

namespace Accepted

variable (h : p.Accepted d)
include h

theorem assignment (hk : p.tree.kind = .assignment) (ih : p.PartsWellTyped d) (result : Ty) :
    WellTypedStatement d p.method? result p.tree := by
  obtain ⟨value, hcs, hvalue, hm⟩ := h.one_part ih (by rw [hk]; decide)
  have hclean := h.clean_self
  rw [check_eq, hk, checkAssignment_eq] at hclean
  obtain ⟨htarget, hassigned⟩ := Review.bind_unit_eq_pure hclean
  obtain ⟨b, hb, hname⟩ := target_of_checkTarget htarget
  have hexplicit := h.explicit_self
  rw [isExplicit, hk] at hexplicit
  simp only [hcs, List.all_cons, List.all_nil, Bool.and_true, Bool.and_eq_true,
    Bool.not_eq_true'] at hexplicit
  obtain ⟨hclass, hliteral⟩ := hexplicit
  refine .assignment hk hcs hname hvalue ⟨hclass, fun ty hty => ?_⟩
  have hmem : Place.mk value p.around ∈ p.children := by
    refine mem_children_of_mem ?_
    rw [hcs]
    exact List.mem_singleton_self value
  -- a literal is compared where it stands, and not by the check of the assignment
  by_cases hliteralKind : value.kind = .arrayLiteral
  · exact compatible_of_literal (h.child hmem) hliteralKind hk hb hm hvalue hliteral hname hty
  · have hbound := not_isUnboundIdentifier (c := ⟨value, p.around⟩) (by rw [hm]; exact hvalue)
    simp only [checkAssignedValue_eq, hb, child?_eq, hcs] at hassigned
    change (if value.kind == .arrayLiteral || (Place.mk value p.around).isUnboundIdentifier d
      then _ else _) = pure () at hassigned
    rw [hbound, Bool.or_false, if_neg (by simpa using hliteralKind)] at hassigned
    obtain ⟨found, hfound, hassigned⟩ := Review.bind_eq_pure hassigned
    have hfound := typeOf_of_typed hfound
    rw [hm, hty] at hfound
    injection hfound with hfound
    subst hfound
    simp only at hassigned
    split at hassigned
    · next hproblem => exact compatible_of_assignmentProblem? hproblem
    · exact absurd hassigned Review.report_ne_pure

theorem elementAssignment (hk : p.tree.kind = .elementAssignment) (ih : p.PartsWellTyped d)
    (result : Ty) : WellTypedStatement d p.method? result p.tree := by
  obtain ⟨index, value, hcs, ⟨hindex, hmi⟩, hvalue, hmv⟩ := h.two_parts ih (by rw [hk]; decide)
  have hclean := h.clean_self
  rw [check_eq, hk, checkElementAssignment_eq] at hclean
  obtain ⟨htarget, hassigned⟩ := Review.bind_unit_eq_pure hclean
  obtain ⟨b, hb, hname⟩ := target_of_checkTarget htarget
  have hexplicit := h.explicit_self
  rw [isExplicit, hk] at hexplicit
  simp only [hcs, List.all_cons, List.all_nil, Bool.and_true, Bool.and_eq_true,
    Bool.not_eq_true'] at hexplicit
  simp only [checkAssignedElement_eq, hb, child?_eq, hcs] at hassigned
  rcases e : b.ty.element? with - | element
  · rw [e] at hassigned
    -- storing into what is not an array is reported
    exact absurd hassigned Review.report_ne_pure
  · rw [e] at hassigned
    obtain ⟨hi, hassigned⟩ := Review.bind_unit_eq_pure hassigned
    have hindexType := mayBe_of_wantType hi
    rw [hmi] at hindexType
    refine .elementAssignment hk hcs hname e hindex hindexType hvalue ⟨hexplicit.2, ?_⟩
    have hcompatible := compatible_of_wantCompatible hassigned
    rwa [hmv] at hcompatible

theorem expressionStmt (hk : p.tree.kind = .expressionStmt) (ih : p.PartsWellTyped d)
    (result : Ty) : WellTypedStatement d p.method? result p.tree := by
  obtain ⟨e, hcs, he, -⟩ := h.one_part ih (by rw [hk]; decide)
  have hexplicit := h.explicit_self
  rw [isExplicit, hk] at hexplicit
  simp only [hcs, List.all_cons, List.all_nil, Bool.and_true, Bool.or_eq_true] at hexplicit
  refine .expressionStmt hk hcs he ?_
  rcases hexplicit with hcall | hvalue
  · exact Or.inl (eq_of_beq hcall)
  · exact Or.inr (not_isVoid_of_mayBeValue hvalue)

theorem returnStmt (hk : p.tree.kind = .returnStmt) (ih : p.PartsWellTyped d) {method : String}
    (hmethod : p.method? = some method) :
    WellTypedStatement d p.method? ((d.returnType? method).getD .void) p.tree := by
  have hclean := h.clean_self
  rw [check_eq, hk] at hclean
  simp only [checkReturn_eq, hmethod] at hclean
  have hexplicit := h.explicit_self
  rw [isExplicit, hk] at hexplicit
  rcases Tree.returnStmt_of_isFormed h.formed_self hk with hcs | ⟨value, hcs, hexpression⟩
  · rw [child?_eq, hcs] at hclean
    have hvoid := bne_eq_false_iff_eq.mp (Review.reportIf_eq_pure hclean)
    exact .returnNothing hk hcs hvoid
  · have hmem : value ∈ p.tree.children := by
      rw [hcs]
      exact List.mem_singleton_self value
    obtain ⟨hvalue, hm⟩ := ih.part hmem hexpression
    simp only [hcs, List.all_cons, List.all_nil, Bool.and_true, Bool.and_eq_true, hmethod,
      Bool.not_eq_true', List.isEmpty_cons, Bool.false_or, Option.bind_some] at hexplicit
    obtain ⟨hclass, hresult⟩ := hexplicit
    refine .returnValue hk hcs (bne_iff_ne.mp hresult) hvalue ⟨by rw [hmethod]; exact hclass, ?_⟩
    intro ty hty
    -- the check says nothing of an unbound name, which is reported where it stands
    have hbound := not_isUnboundIdentifier (c := ⟨value, p.around⟩) (by rw [hm]; exact hvalue)
    rw [child?_eq, hcs] at hclean
    change (if (Place.mk value p.around).isUnboundIdentifier d then _ else _) = pure () at hclean
    rw [hbound] at hclean
    obtain ⟨found, hfound, hclean⟩ := Review.bind_eq_pure hclean
    have hfound := typeOf_of_typed hfound
    rw [hm, hty] at hfound
    injection hfound with hfound
    subst hfound
    have hcompatible := (Bool.or_eq_false_iff.mp (Review.reportIf_eq_pure hclean)).2
    simpa using hcompatible

end Accepted

theorem Accepted.partsWellTyped (h : p.Accepted d) (hd : d.ClearNames) {root : Tree}
    (hroot : Declarations.ofTree root = .ok d) : p.PartsWellTyped d := by
  intro u hu hk
  have hm := method?_of_part hu (Or.inl hk)
  rw [← hm]
  exact Accepted.wellTyped hd hroot u p.around (h.child (mem_children_of_mem hu)) hk

/-- A condition is a truth value, as far as is known. -/
theorem condition_of_checkCondition {condition : Tree} {rest : List Tree}
    (hcs : p.tree.children = condition :: rest)
    (hm : (Place.mk condition p.around).method? = p.method?)
    (h : p.checkCondition d = pure ()) : d.MayBe p.method? condition .boolean := by
  simp only [checkCondition_eq, child?_eq, hcs] at h
  have htype := mayBe_of_wantType h
  rwa [hm] at htype

/-- An accepted statement is well typed. -/
theorem Accepted.wellTypedStatement (hd : d.ClearNames) {root : Tree}
    (hroot : Declarations.ofTree root = .ok d) {method : String} :
    ∀ (t : Tree) (above : List Tree), (Place.mk t above).Accepted d → t.kind.isStatement →
      (Place.mk t above).method? = some method →
      WellTypedStatement d (some method) ((d.returnType? method).getD .void) t := by
  refine Tree.induction ?_
  intro t ih above h hstatement hmethod
  -- the statements in it are left to the induction, the expressions are done
  have hparts := h.partsWellTyped hd hroot
  have hpart : ∀ u ∈ t.children, u.kind.isStatement →
      WellTypedStatement d (some method) ((d.returnType? method).getD .void) u := by
    intro u hu hk
    refine ih u hu _ (h.child (mem_children_of_mem (p := ⟨t, above⟩) hu)) hk ?_
    rw [← hmethod]
    exact method?_of_part (p := ⟨t, above⟩) hu (Or.inr hk)
  have hclean := h.clean_self
  rw [check_eq] at hclean
  rcases e : t.kind <;> rw [e] at hstatement hclean <;> try cases hstatement
  · exact hmethod ▸ h.assignment e hparts _
  · exact hmethod ▸ h.elementAssignment e hparts _
  · exact hmethod ▸ h.expressionStmt e hparts _
  · exact hmethod ▸ h.returnStmt e hparts hmethod
  · obtain ⟨c, a, b, hcs, hc, ha, hb⟩ := Tree.conditional_of_isFormed h.formed_self e
    have hmem : ∀ u ∈ [c, a, b], u ∈ t.children := fun u hu => hcs ▸ hu
    obtain ⟨hcondition, hm⟩ := hparts.part (hmem c (by simp)) hc
    have htype := condition_of_checkCondition hcs hm hclean
    rw [hmethod] at hcondition htype
    exact .conditional e hcs hcondition htype (hpart a (hmem a (by simp)) ha)
      (hpart b (hmem b (by simp)) hb)
  · obtain ⟨c, a, hcs, hc, ha⟩ := Tree.loop_of_isFormed h.formed_self e
    have hmem : ∀ u ∈ [c, a], u ∈ t.children := fun u hu => hcs ▸ hu
    obtain ⟨hcondition, hm⟩ := hparts.part (hmem c (by simp)) hc
    rw [checkLoop_eq] at hclean
    obtain ⟨hclean, -⟩ := Review.bind_unit_eq_pure hclean
    have htype := condition_of_checkCondition hcs hm hclean
    rw [hmethod] at hcondition htype
    exact .loop e hcs hcondition htype (hpart a (hmem a (by simp)) ha)
  · exact .block e fun u hu => hpart u hu (Tree.block_of_isFormed h.formed_self e u hu)

end Place

end JavaMinus
