/-
JavaMinus/Proofs/Typing.lean

Facts about names and types.

A name that is found among variables denotes a variable, and one that is found
among imports an imported class.  For each form of expression there is one
equation for its type, under the condition that the part which decides the
type has one.
-/
import JavaMinus.Typing

namespace JavaMinus

namespace Declarations

variable {d : Declarations} {scope : Option String} {t : Tree}

/-! ### Names -/

/-- A variable of a method is a local or a parameter. -/
theorem origin_of_methodVariable? {method x : String} {b : Binding}
    (h : d.methodVariable? method x = some b) : b.origin = .local ∨ b.origin = .parameter := by
  rw [methodVariable?] at h
  rcases Option.or_eq_some_iff.mp h with h | ⟨-, h⟩
  · obtain ⟨v, -, rfl⟩ := Option.map_eq_some_iff.mp h
    exact Or.inl rfl
  · obtain ⟨v, -, rfl⟩ := Option.map_eq_some_iff.mp h
    exact Or.inr rfl

theorem isVariable_of_variableOf? {x : String} {b : Binding}
    (h : d.variableOf? scope x = some b) : b.origin.isVariable := by
  rw [variableOf?] at h
  rcases Option.or_eq_some_iff.mp h with h | ⟨-, h⟩
  · obtain ⟨method, -, h⟩ := Option.bind_eq_some_iff.mp h
    rcases origin_of_methodVariable? h with h | h <;> rw [h] <;> rfl
  · obtain ⟨v, -, rfl⟩ := Option.map_eq_some_iff.mp h
    rfl

/-- A class is imported, or the class itself, or the one that it extends. -/
theorem class?_eq_some {x : String} {b : Binding} (h : d.class? x = some b) :
    b.ty = .scalar x ∧ (b.origin = .importedClass ∧ d.isImported x ∨
      b.origin ≠ .importedClass ∧ b.origin.isVariable = false ∧ d.isOwnOrSuper x) := by
  rw [class?] at h
  split at h
  · next himported =>
    injection h with h
    subst h
    exact ⟨rfl, Or.inl ⟨rfl, himported⟩⟩
  · split at h
    · next hown =>
      injection h with h
      subst h
      refine ⟨rfl, Or.inr ⟨nofun, rfl, ?_⟩⟩
      rw [isOwnOrSuper, hown, Bool.true_or]
    · split at h
      · next hsuper =>
        injection h with h
        subst h
        refine ⟨rfl, Or.inr ⟨nofun, rfl, ?_⟩⟩
        rw [isOwnOrSuper, hsuper, Bool.or_true]
      · cases h

/-- A name that denotes no variable denotes a class. -/
theorem class?_of_identifier? {b : Binding} (hb : d.identifier? scope t = some b)
    (hclass : b.origin.isVariable = false) : d.class? t.name = some b := by
  obtain ⟨x, hx, hb⟩ := Option.bind_eq_some_iff.mp hb
  have hname : t.name = x := by rw [Tree.name, hx, Option.getD_some]
  rw [binding?] at hb
  rcases Option.or_eq_some_iff.mp hb with hb | ⟨-, hb⟩
  · rw [isVariable_of_variableOf? hb] at hclass
    cases hclass
  · rw [hname, hb]

theorem variableOf?_of_identifier? {b : Binding} (hb : d.identifier? scope t = some b)
    (hvariable : b.origin.isVariable) : d.variableOf? scope t.name = some b := by
  obtain ⟨x, hx, hb⟩ := Option.bind_eq_some_iff.mp hb
  have hname : t.name = x := by rw [Tree.name, hx, Option.getD_some]
  rw [binding?] at hb
  rcases Option.or_eq_some_iff.mp hb with hb | ⟨-, hb⟩
  · rw [hname, hb]
  · obtain ⟨-, h⟩ := class?_eq_some hb
    rcases h with ⟨h, -⟩ | ⟨-, h, -⟩
    · rw [h] at hvariable
      cases hvariable
    · rw [h] at hvariable
      cases hvariable

/-- A variable that is no field is one of the method. -/
theorem methodVariable?_of_variableOf? {method x : String} {b : Binding}
    (h : d.variableOf? (some method) x = some b) (hfield : b.origin ≠ .field) :
    d.methodVariable? method x = some b := by
  rw [variableOf?] at h
  rcases Option.or_eq_some_iff.mp h with h | ⟨-, h⟩
  · exact h
  · obtain ⟨v, -, rfl⟩ := Option.map_eq_some_iff.mp h
    exact absurd rfl hfield

/-! ### Known types -/

/-- The type of an expression, if it has one and it is known. -/
def known? (d : Declarations) (scope : Option String) (t : Tree) : Option Ty :=
  (d.typeOf scope t).toOption.join

theorem typeOf_of_known? {ty : Ty} (h : d.known? scope t = some ty) :
    d.typeOf scope t = .ok (some ty) := by
  rw [known?] at h
  rcases e : d.typeOf scope t with fault | found
  · rw [e] at h
    cases h
  · rw [e] at h
    have heq : found = some ty := h
    rw [heq]

theorem known?_eq {found : Option Ty} (h : d.typeOf scope t = .ok found) :
    d.known? scope t = found := by
  rw [known?, h]
  rfl

/-! ### Types of the forms of expressions -/

theorem typeOf_integer (hk : t.kind = .integer) : d.typeOf scope t = .ok (some .int) := by
  obtain ⟨h, cs⟩ := t
  have hkind : h.kind = .integer := hk
  rw [typeOf.eq_def]
  simp only [hkind]

theorem typeOf_boolean (hk : t.kind = .boolean) : d.typeOf scope t = .ok (some .boolean) := by
  obtain ⟨h, cs⟩ := t
  have hkind : h.kind = .boolean := hk
  rw [typeOf.eq_def]
  simp only [hkind]

theorem typeOf_self (hk : t.kind = .self) :
    d.typeOf scope t = .ok (some (.scalar d.className)) := by
  obtain ⟨h, cs⟩ := t
  have hkind : h.kind = .self := hk
  rw [typeOf.eq_def]
  simp only [hkind]

theorem typeOf_identifier (hk : t.kind = .identifier) {b : Binding}
    (hb : d.identifier? scope t = some b) : d.typeOf scope t = .ok (some b.ty) := by
  obtain ⟨h, cs⟩ := t
  have hkind : h.kind = .identifier := hk
  rw [typeOf.eq_def]
  simp only [hkind, hb, Option.map_some, Option.getD_some]

theorem typeOf_unbound (hk : t.kind = .identifier) (hb : d.identifier? scope t = none) :
    d.typeOf scope t = .ok (some .int) := by
  obtain ⟨h, cs⟩ := t
  have hkind : h.kind = .identifier := hk
  rw [typeOf.eq_def]
  simp only [hkind, hb, Option.map_none, Option.getD_none]

theorem typeOf_arithmetic (hk : t.kind = .arithmetic) {op : ArithmeticOperator}
    (hop : ArithmeticOperator.ofTree t = .ok op) : d.typeOf scope t = .ok (some .int) := by
  obtain ⟨h, cs⟩ := t
  have hkind : h.kind = .arithmetic := hk
  rw [typeOf.eq_def]
  simp only [hkind, hop]
  rfl

theorem typeOf_logical (hk : t.kind = .logical) {op : LogicalOperator}
    (hop : LogicalOperator.ofTree t = .ok op) : d.typeOf scope t = .ok (some .boolean) := by
  obtain ⟨h, cs⟩ := t
  have hkind : h.kind = .logical := hk
  rw [typeOf.eq_def]
  simp only [hkind, hop]
  rfl

/-- What is read from an array of which no type is known has none either. -/
theorem typeOf_elementRead_eq (hk : t.kind = .elementRead) {array : Tree} {rest : List Tree}
    (hcs : t.children = array :: rest) {found : Option Ty} (ha : d.typeOf scope array = .ok found) :
    d.typeOf scope t = .ok (found.map fun ty => ty.element?.getD .int) := by
  obtain ⟨h, cs⟩ := t
  have hkind : h.kind = .elementRead := hk
  have hchildren : cs = array :: rest := hcs
  rw [typeOf.eq_def]
  simp only [hkind, hchildren, ha]
  rfl

theorem typeOf_elementRead (hk : t.kind = .elementRead) {array : Tree} {rest : List Tree}
    (hcs : t.children = array :: rest) {ty : Ty} (ha : d.typeOf scope array = .ok (some ty)) :
    d.typeOf scope t = .ok (some (ty.element?.getD .int)) :=
  typeOf_elementRead_eq hk hcs ha

theorem typeOf_emptyLiteral (hk : t.kind = .arrayLiteral) (hcs : t.children = []) :
    d.typeOf scope t = .ok (some .intArray) := by
  obtain ⟨h, cs⟩ := t
  have hkind : h.kind = .arrayLiteral := hk
  have hchildren : cs = [] := hcs
  rw [typeOf.eq_def]
  simp only [hkind, hchildren]

theorem typeOf_arrayLiteral (hk : t.kind = .arrayLiteral) {first : Tree} {rest : List Tree}
    (hcs : t.children = first :: rest) {element : Option Ty}
    (hfirst : d.typeOf scope first = .ok element) :
    d.typeOf scope t = .ok (some (.array (element.getD .int).name)) := by
  obtain ⟨h, cs⟩ := t
  have hkind : h.kind = .arrayLiteral := hk
  have hchildren : cs = first :: rest := hcs
  rw [typeOf.eq_def]
  simp only [hkind, hchildren, hfirst]
  cases element <;> rfl

theorem typeOf_newObject (hk : t.kind = .newObject) :
    d.typeOf scope t = .ok (some (.scalar t.name)) := by
  obtain ⟨h, cs⟩ := t
  have hkind : h.kind = .newObject := hk
  rw [typeOf.eq_def]
  simp only [hkind]

theorem typeOf_newArray (hk : t.kind = .newArray) :
    d.typeOf scope t = .ok (some .intArray) := by
  obtain ⟨h, cs⟩ := t
  have hkind : h.kind = .newArray := hk
  rw [typeOf.eq_def]
  simp only [hkind]

theorem typeOf_length (hk : t.kind = .length) : d.typeOf scope t = .ok (some .int) := by
  obtain ⟨h, cs⟩ := t
  have hkind : h.kind = .length := hk
  rw [typeOf.eq_def]
  simp only [hkind]

/-- A call has a type, or any type is assumed, if its receiver has one. -/
theorem callType_ok {receiver : Tree} {arguments : List Tree}
    (hcs : t.children = receiver :: arguments) {ty : Option Ty}
    (hreceiver : d.typeOf scope receiver = .ok ty) :
    d.callType scope t =
      .ok (if d.hasMethod t.name && d.isOwnType ty then d.returnType? t.name else none) := by
  rw [callType, targetsOwnClass, hcs]
  simp only [hreceiver]
  cases d.hasMethod t.name <;> rfl

end Declarations

end JavaMinus
