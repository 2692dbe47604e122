/-
JavaMinus/Proofs/WellTyped.lean

Well-typed expressions and statements.

An expression is well typed if each of its parts is and has the type that is
wanted of it where it stands (`WellTyped`); a statement likewise
(`WellTypedStatement`).  Nothing is wanted of a call of a method that the class
does not declare: its type is not known, and it goes wherever a value may go
(`MayBe`, `Suits`).  It cannot be taken apart, though: what is indexed or
measured is known to be an array, and what a method is called on is known to be
an object or a class.

All this is asked of programs in which no name is that of a class and of
something else at a time (`Declarations.ClearNames`).
-/
import JavaMinus.Check.Valued
import JavaMinus.Proofs.Typing

namespace JavaMinus

/-! ### Names -/

/-- The names of types that are not classes. -/
def Ty.reserved : List String := ["int", "boolean", "void"]

namespace Declarations

/-- The names in a program say which types they stand for. -/
structure ClearNames (d : Declarations) : Prop where
  /-- No class has a name that is not that of a class. -/
  notReserved : ∀ name ∈ Ty.reserved, d.isImported name = false ∧ d.isOwnOrSuper name = false
  /-- The class is not confused with an imported one. -/
  notImported : d.isImported d.className = false
  /-- A variable holds something. -/
  notVoid : ∀ v ∈ d.fields ++ d.methods.flatMap (fun s => s.parameters ++ s.locals),
    v.ty.name ≠ "void"

namespace ClearNames

variable {d : Declarations} (hd : d.ClearNames) {method : String} {v : Variable}
include hd

theorem notVoid_of_method {s : Signature} (hs : d.method? method = some s)
    (hv : v ∈ s.parameters ∨ v ∈ s.locals) : v.ty.name ≠ "void" := by
  refine hd.notVoid v (List.mem_append_right _ (List.mem_flatMap.mpr ⟨s, ?_, ?_⟩))
  · exact List.mem_of_find?_eq_some hs
  · exact List.mem_append.mpr hv

theorem notVoid_of_parameters (hv : v ∈ d.parameters method) : v.ty.name ≠ "void" := by
  rw [parameters] at hv
  rcases e : d.method? method with - | s
  · rw [e] at hv
    cases hv
  · rw [e] at hv
    exact hd.notVoid_of_method e (Or.inl hv)

theorem notVoid_of_locals (hv : v ∈ d.locals method) : v.ty.name ≠ "void" := by
  rw [locals] at hv
  rcases e : d.method? method with - | s
  · rw [e] at hv
    cases hv
  · rw [e] at hv
    exact hd.notVoid_of_method e (Or.inr hv)

/-- A variable holds something, wherever it is declared. -/
theorem notVoid_of_variableOf? {scope : Option String} {x : String} {b : Binding}
    (h : d.variableOf? scope x = some b) : b.ty.name ≠ "void" := by
  rw [variableOf?] at h
  rcases Option.or_eq_some_iff.mp h with h | ⟨-, h⟩
  · obtain ⟨m, -, h⟩ := Option.bind_eq_some_iff.mp h
    rw [methodVariable?] at h
    rcases Option.or_eq_some_iff.mp h with h | ⟨-, h⟩
    · obtain ⟨v, hv, rfl⟩ := Option.map_eq_some_iff.mp h
      exact hd.notVoid_of_locals (List.mem_of_find?_eq_some hv)
    · obtain ⟨v, hv, rfl⟩ := Option.map_eq_some_iff.mp h
      exact hd.notVoid_of_parameters (List.mem_of_find?_eq_some hv)
  · obtain ⟨v, hv, rfl⟩ := Option.map_eq_some_iff.mp h
    exact hd.notVoid v (List.mem_append_left _ (List.mem_of_find?_eq_some hv))

end ClearNames

variable (d : Declarations) (scope : Option String)

/-! ### What is known of the type of an expression -/

/-- The type of an expression is the given one, as far as it is known. -/
def MayBe (t : Tree) (ty : Ty) : Prop :=
  d.typeOf scope t = .ok none ∨ d.typeOf scope t = .ok (some ty)

/-- An expression without a value. -/
def IsVoid (t : Tree) : Prop := d.typeOf scope t = .ok (some .void)

/-- Whether an expression is the name of a class. -/
def namesClass (t : Tree) : Bool :=
  t.kind == .identifier && (d.identifier? scope t).any (!·.origin.isVariable)

/-- An expression has a value, and it may go where a type is declared. -/
structure Suits (t : Tree) (declared : Ty) : Prop where
  isValue : d.namesClass scope t = false
  compatible : ∀ ty, d.typeOf scope t = .ok (some ty) → d.compatible ty declared

/-- Arguments are a single array, or go into an array of numbers. -/
def FillTail (arguments : List Tree) : Prop :=
  (∃ t ty, arguments = [t] ∧ d.typeOf scope t = .ok (some ty) ∧ ty.isArray) ∨
    ∀ t ∈ arguments, d.MayBe scope t .int

/-- If a call is one of the class's own, the arguments behind those that have
a parameter each go into the open tail, where there is one. -/
def FitsTail (call : Tree) (arguments : List Tree) : Prop :=
  ∀ ty tail, d.callType scope call = .ok (some ty) →
    Parameters.openTail? (d.parameters call.name) = some tail →
    d.FillTail scope (arguments.drop (Parameters.fixed (d.parameters call.name)).length)

end Declarations

/-! ### Well-typed trees -/

/-- A well-typed expression in a method. -/
inductive WellTyped (d : Declarations) (scope : Option String) : Tree → Prop
  | integer {t : Tree} (hk : t.kind = .integer) : WellTyped d scope t
  | boolean {t : Tree} (hk : t.kind = .boolean) : WellTyped d scope t
  | self {t : Tree} (hk : t.kind = .self) : WellTyped d scope t
  | identifier {t : Tree} {b : Binding} (hk : t.kind = .identifier)
      (hb : d.identifier? scope t = some b) : WellTyped d scope t
  | arithmetic {t left right : Tree} {op : ArithmeticOperator} (hk : t.kind = .arithmetic)
      (hop : ArithmeticOperator.ofTree t = .ok op) (hcs : t.children = [left, right])
      (hleft : WellTyped d scope left) (hright : WellTyped d scope right)
      (hl : d.MayBe scope left .int) (hr : d.MayBe scope right .int) : WellTyped d scope t
  | logical {t left right : Tree} {op : LogicalOperator} {wanted : Ty} (hk : t.kind = .logical)
      (hop : LogicalOperator.ofTree t = .ok op) (hcs : t.children = [left, right])
      (hw : wanted = if op.isConnective then .boolean else .int)
      (hleft : WellTyped d scope left) (hright : WellTyped d scope right)
      (hl : d.MayBe scope left wanted) (hr : d.MayBe scope right wanted) : WellTyped d scope t
  | call {t receiver : Tree} {arguments : List Tree} {className : String} (hk : t.kind = .call)
      (hcs : t.children = receiver :: arguments) (hreceiver : WellTyped d scope receiver)
      (hobject : d.typeOf scope receiver = .ok (some (.scalar className)))
      (hname : className ∉ Ty.reserved)
      (harguments : ∀ a ∈ arguments, WellTyped d scope a)
      (hvalues : ∀ a ∈ arguments, ¬ d.IsVoid scope a)
      (htail : d.FitsTail scope t arguments) : WellTyped d scope t
  | elementRead {t array index : Tree} {ty : Ty} (hk : t.kind = .elementRead)
      (hcs : t.children = [array, index]) (harray : WellTyped d scope array)
      (hindex : WellTyped d scope index) (ha : d.typeOf scope array = .ok (some ty))
      (hty : ty.isArray) (hi : d.MayBe scope index .int) : WellTyped d scope t
  | emptyLiteral {t : Tree} (hk : t.kind = .arrayLiteral) (hcs : t.children = []) :
      WellTyped d scope t
  | arrayLiteral {t first : Tree} {rest : List Tree} {element : Option Ty}
      (hk : t.kind = .arrayLiteral) (hcs : t.children = first :: rest)
      (hfirst : d.typeOf scope first = .ok element)
      (helements : ∀ e ∈ first :: rest, WellTyped d scope e)
      (hvalues : ∀ e ∈ first :: rest,
        d.MayBe scope e (element.getD .int) ∧ d.namesClass scope e = false)
      (hvoid : element ≠ some .void) : WellTyped d scope t
  | newObject {t : Tree} (hk : t.kind = .newObject) (hname : t.name ∉ Ty.reserved) :
      WellTyped d scope t
  | newArray {t size : Tree} (hk : t.kind = .newArray) (hcs : t.children = [size])
      (hsize : WellTyped d scope size) (hs : d.MayBe scope size .int) : WellTyped d scope t
  | length {t array : Tree} {ty : Ty} (hk : t.kind = .length) (hcs : t.children = [array])
      (harray : WellTyped d scope array) (ha : d.typeOf scope array = .ok (some ty))
      (hty : ty.isArray) : WellTyped d scope t

/-- A well-typed statement in a method with the given result. -/
inductive WellTypedStatement (d : Declarations) (scope : Option String) (result : Ty) :
    Tree → Prop
  | assignment {t value : Tree} {b : Binding} (hk : t.kind = .assignment)
      (hcs : t.children = [value]) (hb : d.variableOf? scope t.name = some b)
      (hvalue : WellTyped d scope value) (hsuits : d.Suits scope value b.ty) :
      WellTypedStatement d scope result t
  | elementAssignment {t index value : Tree} {b : Binding} {element : Ty}
      (hk : t.kind = .elementAssignment) (hcs : t.children = [index, value])
      (hb : d.variableOf? scope t.name = some b) (helement : b.ty.element? = some element)
      (hindex : WellTyped d scope index) (hi : d.MayBe scope index .int)
      (hvalue : WellTyped d scope value) (hsuits : d.Suits scope value element) :
      WellTypedStatement d scope result t
  | expressionStmt {t e : Tree} (hk : t.kind = .expressionStmt) (hcs : t.children = [e])
      (he : WellTyped d scope e) (hvalue : e.kind = .call ∨ ¬ d.IsVoid scope e) :
      WellTypedStatement d scope result t
  | returnNothing {t : Tree} (hk : t.kind = .returnStmt) (hcs : t.children = [])
      (hresult : result = .void) : WellTypedStatement d scope result t
  | returnValue {t value : Tree} (hk : t.kind = .returnStmt) (hcs : t.children = [value])
      (hresult : result ≠ .void) (hvalue : WellTyped d scope value)
      (hsuits : d.Suits scope value result) : WellTypedStatement d scope result t
  | conditional {t condition thenPart elsePart : Tree} (hk : t.kind = .conditional)
      (hcs : t.children = [condition, thenPart, elsePart])
      (hcondition : WellTyped d scope condition) (hc : d.MayBe scope condition .boolean)
      (hthen : WellTypedStatement d scope result thenPart)
      (helse : WellTypedStatement d scope result elsePart) : WellTypedStatement d scope result t
  | loop {t condition body : Tree} (hk : t.kind = .loop) (hcs : t.children = [condition, body])
      (hcondition : WellTyped d scope condition) (hc : d.MayBe scope condition .boolean)
      (hbody : WellTypedStatement d scope result body) : WellTypedStatement d scope result t
  | block {t : Tree} (hk : t.kind = .block)
      (hbody : ∀ u ∈ t.children, WellTypedStatement d scope result u) :
      WellTypedStatement d scope result t

open Declarations in
/-- Typing a well-typed expression ends in no fault. -/
theorem WellTyped.typeOf_ok {d : Declarations} {scope : Option String} {t : Tree}
    (h : WellTyped d scope t) : ∃ ty, d.typeOf scope t = .ok ty := by
  cases h with
  | integer hk => exact ⟨_, typeOf_integer hk⟩
  | boolean hk => exact ⟨_, typeOf_boolean hk⟩
  | self hk => exact ⟨_, typeOf_self hk⟩
  | identifier hk hb => exact ⟨_, typeOf_identifier hk hb⟩
  | arithmetic hk hop => exact ⟨_, typeOf_arithmetic hk hop⟩
  | logical hk hop => exact ⟨_, typeOf_logical hk hop⟩
  | call hk hcs _ hobject =>
    rw [typeOf_call _ _ _ hk]
    exact ⟨_, callType_ok hcs hobject⟩
  | elementRead hk hcs _ _ ha => exact ⟨_, typeOf_elementRead hk hcs ha⟩
  | emptyLiteral hk hcs => exact ⟨_, typeOf_emptyLiteral hk hcs⟩
  | arrayLiteral hk hcs hfirst => exact ⟨_, typeOf_arrayLiteral hk hcs hfirst⟩
  | newObject hk => exact ⟨_, typeOf_newObject hk⟩
  | newArray hk => exact ⟨_, typeOf_newArray hk⟩
  | length hk => exact ⟨_, typeOf_length hk⟩

/-- A well-typed identifier denotes something. -/
theorem WellTyped.identifier?_isSome {d : Declarations} {scope : Option String} {t : Tree}
    (h : WellTyped d scope t) (hk : t.kind = .identifier) :
    ∃ b, d.identifier? scope t = some b := by
  cases h with
  | identifier _ hb => exact ⟨_, hb⟩
  | _ => simp_all

/-- The elements of a well-typed array literal are of the type of the first
one, or numbers if that has none. -/
theorem WellTyped.elements {d : Declarations} {scope : Option String} {t : Tree}
    (h : WellTyped d scope t) (hk : t.kind = .arrayLiteral) :
    t.children = [] ∨ ∃ first rest element, t.children = first :: rest ∧
      d.typeOf scope first = .ok element ∧
      ∀ e ∈ t.children, d.MayBe scope e (element.getD .int) := by
  cases h with
  | emptyLiteral _ hcs => exact Or.inl hcs
  | arrayLiteral _ hcs hfirst _ hvalues =>
    exact Or.inr ⟨_, _, _, hcs, hfirst, fun e he => (hvalues e (hcs ▸ he)).1⟩
  | _ => simp_all

end JavaMinus
