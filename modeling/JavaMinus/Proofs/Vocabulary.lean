/-
JavaMinus/Proofs/Vocabulary.lean

What a program is written with.

A vocabulary is a property of texts which those have that the compiler writes of its own
accord: the names of the types of the language, numbers, and nothing where a name is
missing.  If the names, the types and the numerals in a tree are in a vocabulary, so are
the names and types that it declares (`Declarations.areIn_of_isIn`) and the types of its
expressions (`Declarations.AreIn.typeOf`).  Nothing is asked of the tree but that its
declarations can be read; it may be none that the language can write.
-/
import JavaMinus.Proofs.Bodies
import JavaMinus.Proofs.Declarations
import JavaMinus.Proofs.Typing

namespace JavaMinus

/-- What may be written: texts with a property and, or not, the object that a method
works on. -/
structure Vocabulary where
  Has : String → Prop
  /-- Whether the object that a method works on may be written. -/
  object : Prop
  nameless : Has ""
  int : Has Ty.int.name
  boolean : Has Ty.boolean.name
  void : Has Ty.void.name
  number : ∀ n : Nat, Has (toString n)

variable {V : Vocabulary}

/-- An element has the type name of its array. -/
theorem Vocabulary.element {ty : Ty} (h : V.Has ty.name) :
    V.Has (ty.element?.getD .int).name := by
  cases ty with
  | scalar name => exact V.int
  | array name | varargs name => exact h

/-! ### Trees -/

/-- The name in a node is in a vocabulary, and so is the name of a type and a numeral. -/
structure Tree.IsNamedIn (V : Vocabulary) (t : Tree) : Prop where
  name : ∀ x ∈ t.get? "name", V.Has x
  typeName : t.kind = .typeName → ∀ x ∈ t.get? "value", V.Has x
  numeral : t.kind = .integer → ∀ x ∈ t.get? "value", V.Has x

/-- All names, types and numerals in a tree are in a vocabulary. -/
def Tree.IsIn (V : Vocabulary) (t : Tree) : Prop := ∀ u ∈ t.preorder, u.IsNamedIn V

/-- The name and the type of a variable are in a vocabulary. -/
structure Variable.IsIn (V : Vocabulary) (v : Variable) : Prop where
  name : V.Has v.name
  type : V.Has v.ty.name

namespace Tree.IsIn

variable {t u : Tree}

theorem child (h : t.IsIn V) (hu : u ∈ t.children) : u.IsIn V :=
  fun v hv => h v (mem_preorder_of_child hu hv)

theorem self (h : t.IsIn V) : t.IsNamedIn V := h t t.mem_preorder_self

theorem name (h : t.IsIn V) : V.Has t.name := by
  rw [Tree.name]
  rcases e : t.get? "name" with - | x
  · exact V.nameless
  · exact h.self.name x e

/-- A number is written by its literal, or by a zero where there is none. -/
theorem digits (h : t.IsIn V) (hk : t.kind = .integer) : V.Has ((t.get? "value").getD "0") := by
  rcases e : t.get? "value" with - | x
  · exact V.number 0
  · exact h.self.numeral hk x e

theorem denotedType (h : t.IsIn V) (hk : t.kind = .typeName) {ty : Ty}
    (hty : t.denotedType = .ok ty) : V.Has ty.name := by
  obtain ⟨x, hx, hty⟩ := bind_eq_ok hty
  injection hty with hty
  have hname := h.self.typeName hk x (get?_of_require hx)
  rw [← hty, Ty.denoted]
  split
  · exact V.int
  · split <;> exact hname

theorem typeExpression (h : t.IsIn V) (hu : t.firstChildOf? .typeName = some u) {ty : Ty}
    (hty : u.denotedType = .ok ty) : V.Has ty.name := by
  have hkind := List.find?_some hu
  exact (h.child (List.mem_of_find?_eq_some hu)).denotedType (eq_of_beq hkind) hty

theorem declaredVariable (h : t.IsIn V) {v : Variable} (hv : t.declaredVariable = .ok v) :
    v.IsIn V := by
  rw [Tree.declaredVariable] at hv
  split at hv
  · contradiction
  · next type htype =>
    obtain ⟨ty, hty, hv⟩ := bind_eq_ok hv
    obtain ⟨x, hx, hv⟩ := bind_eq_ok hv
    injection hv with hv
    rw [← hv]
    exact ⟨h.self.name x (get?_of_require hx), h.typeExpression htype hty⟩

theorem declaredReturnType (h : t.IsIn V) {ty : Ty} (hty : t.declaredReturnType = .ok ty) :
    V.Has ty.name := by
  rw [Tree.declaredReturnType] at hty
  split at hty
  · injection hty with hty
    rw [← hty]
    exact V.void
  · next type htype => exact h.typeExpression htype hty

/-- What was read from the children of a kind. -/
theorem declaredVariables (h : t.IsIn V) {k : Kind} {vs : List Variable}
    (hvs : (t.childrenOf k).mapM Tree.declaredVariable = .ok vs) : ∀ v ∈ vs, v.IsIn V := by
  intro v hv
  obtain ⟨u, hu, hread⟩ := exists_of_forall₂ (forall₂_of_mapM_ok hvs).flip hv
  exact (h.child (mem_childrenOf.mp hu).1).declaredVariable hread

end Tree.IsIn

/-! ### Declarations -/

namespace Declarations

/-- The name of the class and all names and types that it declares are in a vocabulary. -/
structure AreIn (V : Vocabulary) (d : Declarations) : Prop where
  className : V.Has d.className
  fields : ∀ v ∈ d.fields, v.IsIn V
  results : ∀ s ∈ d.methods, V.Has s.returnType.name
  parameters : ∀ s ∈ d.methods, ∀ v ∈ s.parameters, v.IsIn V
  locals : ∀ s ∈ d.methods, ∀ v ∈ s.locals, v.IsIn V

/-- What a program declares is in the vocabulary that it is written with. -/
theorem areIn_of_isIn {d : Declarations} {root : Tree} (hroot : ofTree root = .ok d)
    (hnames : root.IsIn V) : d.AreIn V := by
  -- the class is a child of the program, and what it declares is read from its children
  obtain ⟨cls, hcls⟩ := exists_class_of_ofTree hroot
  obtain ⟨-, -, hfields, hmethods, hname, -⟩ := ofTree_ok hroot hcls
  have hclass : cls.IsIn V := hnames.child (List.mem_of_getLast? hcls)
  have hread : ∀ s ∈ d.methods, ∃ t : Tree, t.IsIn V ∧ t.signature = .ok s := by
    intro s hs
    obtain ⟨t, ht, hsignature⟩ := exists_of_forall₂ (forall₂_of_mapM_ok hmethods).flip hs
    exact ⟨t, hclass.child (Tree.mem_childrenOf.mp ht).1, hsignature⟩
  constructor
  · exact hclass.self.name _ (Tree.get?_of_require hname)
  · exact hclass.declaredVariables hfields
  · intro s hs
    obtain ⟨t, ht, hsignature⟩ := hread s hs
    exact ht.declaredReturnType (Tree.signature_ok hsignature).2.1
  · intro s hs
    obtain ⟨t, ht, hsignature⟩ := hread s hs
    exact ht.declaredVariables (Tree.signature_ok hsignature).2.2.1
  · intro s hs
    obtain ⟨t, ht, hsignature⟩ := hread s hs
    exact ht.declaredVariables (Tree.signature_ok hsignature).2.2.2.1

namespace AreIn

variable {d : Declarations} {scope : Option String} {t : Tree} {b : Binding} {ty : Ty}

theorem returnType? (h : d.AreIn V) {method : String} (hty : d.returnType? method = some ty) :
    V.Has ty.name := by
  obtain ⟨s, hs, rfl⟩ := Option.map_eq_some_iff.mp hty
  exact h.results s (List.mem_of_find?_eq_some hs)

theorem resultType (h : d.AreIn V) (method : String) :
    V.Has ((d.returnType? method).getD .void).name := by
  rcases e : d.returnType? method with - | ty
  · exact V.void
  · exact h.returnType? e

theorem ofMethod {method : String} {among : Signature → List Variable}
    (hamong : ∀ s ∈ d.methods, ∀ v ∈ among s, v.IsIn V) :
    ∀ v ∈ ((d.method? method).map among).getD [], v.IsIn V := by
  rcases e : d.method? method with - | s
  · exact List.forall_mem_nil _
  · exact hamong s (List.mem_of_find?_eq_some e)

theorem ofParameters (h : d.AreIn V) (method : String) :
    ∀ v ∈ d.parameters method, v.IsIn V := ofMethod h.parameters

theorem variableOf? (h : d.AreIn V) {x : String} (hb : d.variableOf? scope x = some b) :
    V.Has b.ty.name := by
  have hfound : ∀ {vs : List Variable} {origin : Origin}, (∀ v ∈ vs, v.IsIn V) →
      (Variable.find? vs x).map (Binding.mk origin ·.ty) = some b → V.Has b.ty.name := by
    intro vs origin hvs hb
    obtain ⟨v, hv, rfl⟩ := Option.map_eq_some_iff.mp hb
    exact (hvs v (List.mem_of_find?_eq_some hv)).type
  rcases Option.or_eq_some_iff.mp hb with hb | ⟨-, hb⟩
  · obtain ⟨method, -, hb⟩ := Option.bind_eq_some_iff.mp hb
    rcases Option.or_eq_some_iff.mp hb with hb | ⟨-, hb⟩
    · exact hfound (ofMethod h.locals) hb
    · exact hfound (h.ofParameters method) hb
  · exact hfound h.fields hb

theorem identifier? (h : d.AreIn V) (ht : t.IsIn V) (hb : d.identifier? scope t = some b) :
    V.Has b.ty.name := by
  by_cases hvariable : b.origin.isVariable
  · exact h.variableOf? (variableOf?_of_identifier? hb hvariable)
  · -- the type of a class is its name
    have hclass := class?_of_identifier? hb (by simpa using hvariable)
    rw [(class?_eq_some hclass).1]
    exact ht.name

theorem callType (h : d.AreIn V) (hty : d.callType scope t = .ok (some ty)) : V.Has ty.name := by
  -- only calls of methods of the class itself have a known type
  rw [Declarations.callType] at hty
  split at hty
  · obtain ⟨own, -, hdeclared⟩ := map_eq_ok hty
    split at hdeclared
    · exact h.returnType? hdeclared
    · contradiction
  · cases hty

/-- The types of expressions are in the vocabulary that a program is written with. -/
theorem typeOf (h : d.AreIn V) (ht : t.IsIn V) :
    ∀ ty, d.typeOf scope t = .ok (some ty) → V.Has ty.name := by
  induction t using Tree.induction with
  | step t ih => ?_
  intro ty hty
  by_cases hk : t.kind = .call
  · rw [typeOf_call _ _ _ hk] at hty
    exact h.callType hty
  -- of any other expression at most the leftmost part decides the type
  obtain ⟨head, cs⟩ := t
  rw [Declarations.typeOf.eq_def] at hty
  have hsame : ∀ {found : Ty}, (.ok (some found) : Except Fault (Option Ty)) = .ok (some ty) →
      V.Has found.name → V.Has ty.name := by
    intro found heq hfound
    injection heq with heq
    rwa [← Option.some.inj heq]
  cases e : head.kind <;> simp only [e] at hty
  case call => exact absurd e hk
  case self => exact hsame hty h.className
  case integer | newArray | length => exact hsame hty V.int
  case boolean => exact hsame hty V.boolean
  case newObject => exact hsame hty ht.name
  case arithmetic =>
    obtain ⟨op, -, hty⟩ := map_eq_ok hty
    rw [← Option.some.inj hty]
    exact V.int
  case logical =>
    obtain ⟨op, -, hty⟩ := map_eq_ok hty
    rw [← Option.some.inj hty]
    exact V.boolean
  case identifier =>
    apply hsame hty
    rcases hb : d.identifier? scope (.node head cs) with - | b
    · exact V.int
    · exact h.identifier? ht hb
  case elementRead =>
    rcases cs with - | ⟨array, rest⟩
    · exact hsame hty V.int
    · obtain ⟨found, hfound, hty⟩ := map_eq_ok hty
      obtain ⟨held, rfl, rfl⟩ := Option.map_eq_some_iff.mp hty
      have harray := List.mem_cons_self (a := array) (l := rest)
      exact Vocabulary.element (ih array harray (ht.child harray) held hfound)
  case arrayLiteral =>
    rcases cs with - | ⟨first, rest⟩
    · exact hsame hty V.int
    · obtain ⟨found, hfound, hty⟩ := map_eq_ok hty
      rw [← Option.some.inj hty]
      rcases found with - | element
      · exact V.int
      · have hmem := List.mem_cons_self (a := first) (l := rest)
        exact ih first hmem (ht.child hmem) element hfound
  all_goals nomatch hty

end AreIn

end Declarations

end JavaMinus
