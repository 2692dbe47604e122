/-
JavaMinus/Proofs/Assignments.lean

Assignments of one variable to another, and the other way round.

Which of two types is that of the value does not matter to whether they are compatible:
names and shapes are compared for being the same, and what is assumed of classes is
assumed of both sides alike (`Declarations.compatible_comm`).  The same is true of `int`
and `boolean`, which are never assigned to each other (`Ty.crosses_comm`); only the
message tells which of them was the value.

So what an assignment of a variable to a variable is found fault with hangs on their
types alone (`checkAssignedValue_of_assigns`), and two variables of a method can be
assigned to each other in both directions or in none (`assignments_are_symmetric`).
-/
import JavaMinus.Proofs.Crossing

namespace JavaMinus

/-! ### Types -/

variable {d : Declarations} {s t : Ty} {x y : String}

theorem Ty.crosses_comm : s.Crosses t ↔ t.Crosses s := by
  rw [Crosses, Crosses, or_comm, and_comm, and_comm (a := s = .int)]

theorem Declarations.compatible_comm (d : Declarations) (s t : Ty) :
    d.compatible s t = d.compatible t s := by
  have himported : (d.isImported s.name && d.isImported t.name) =
      (d.isImported t.name && d.isImported s.name) := Bool.and_comm _ _
  have hrelated : (s.name != t.name && d.isOwnOrSuper s.name && d.isOwnOrSuper t.name) =
      (t.name != s.name && d.isOwnOrSuper t.name && d.isOwnOrSuper s.name) := by
    rw [bne_comm, Bool.and_right_comm]
  rw [compatible, compatible, Ty.sameShape_comm, Bool.beq_comm, himported, hrelated]

namespace Place

/-- A value fits a target just if the types are compatible and are not the two that never
mix. -/
theorem assignmentProblem?_eq_none_iff :
    assignmentProblem? d x s t = none ↔ ¬ s.Crosses t ∧ d.compatible s t := by
  rw [assignmentProblem?]
  -- the two types that never mix are asked for in either order before anything else
  split
  · next h =>
    rw [Bool.and_eq_true, beq_iff_eq, beq_iff_eq] at h
    exact iff_of_false (Option.some_ne_none _) fun hfits => hfits.1 (.inr ⟨h.2, h.1⟩)
  · next hint =>
    split
    · next h =>
      rw [Bool.and_eq_true, beq_iff_eq, beq_iff_eq] at h
      exact iff_of_false (Option.some_ne_none _) fun hfits => hfits.1 (.inl ⟨h.2, h.1⟩)
    · next hboolean =>
      have happart : ¬ s.Crosses t := by
        rintro (⟨rfl, rfl⟩ | ⟨rfl, rfl⟩)
        · exact hboolean rfl
        · exact hint rfl
      rw [and_iff_right happart]
      cases d.compatible s t <;> simp

/-! ### Variables -/

open Review

/-- A place assigns the variable of one name to that of another one. -/
structure Assigns (p : Place) (x y : String) : Prop where
  kind : p.tree.kind = .assignment
  target : p.tree.get? "name" = some x
  value : ∃ value, p.child? 0 = some value ∧ value.tree.kind = .identifier ∧
    value.tree.get? "name" = some y

variable {p q : Place} {a b : Binding}

/-- An assignment of a variable to a variable is looked at to the end, and what is found
is the problem, if there is one, with their types. -/
theorem checkAssignedValue_of_assigns (h : p.Assigns x y)
    (hx : d.variableOf? p.method? x = some a) (hy : d.variableOf? p.method? y = some b) :
    p.checkAssignedValue d =
      found ((assignmentProblem? d x b.ty a.ty).toList.map p.finding) := by
  obtain ⟨value, hvalue, hkind, hname⟩ := h.value
  have hmethod : value.method? = p.method? :=
    method?_of_child (mem_children_of_child? hvalue) (by rw [hkind]; decide)
  have htarget : p.target? d = some a := by rw [target?, h.target, Option.bind_some, hx]
  have hbinding : d.identifier? value.method? value.tree = some b := by
    rw [hmethod, Declarations.identifier?, hname, Option.bind_some, Declarations.binding?, hy,
      Option.some_or]
  have hbound : value.isUnboundIdentifier d = false := by
    rw [isUnboundIdentifier, binding?, hbinding, Option.isNone_some, Bool.and_false]
  have hliteral : (value.tree.kind == .arrayLiteral) = false := by rw [hkind]; rfl
  have htype : value.type d = .ok (some b.ty) := Declarations.typeOf_identifier hkind hbinding
  have hx : p.tree.name = x := by rw [Tree.name, h.target, Option.getD_some]
  simp only [checkAssignedValue_eq, htarget, hvalue, hliteral, hbound, Bool.or_self,
    Bool.false_eq_true, if_false, typed_bind htype, hx]
  cases assignmentProblem? d x b.ty a.ty <;> rfl

theorem findings_of_assigns_eq_nil_iff (h : p.Assigns x y)
    (hx : d.variableOf? p.method? x = some a) (hy : d.variableOf? p.method? y = some b) :
    (p.checkAssignedValue d).findings = [] ↔ ¬ b.ty.Crosses a.ty ∧ d.compatible b.ty a.ty := by
  rw [checkAssignedValue_of_assigns h hx hy, findings_found, List.map_eq_nil_iff,
    Option.toList_eq_nil_iff, assignmentProblem?_eq_none_iff]

/-- **Assignments between variables go both ways or none.**  Types are compatible in both
orders or in none.  The assignment of one variable of a method to another one is checked
to the end, as is the assignment the other way round, and one is found fault with just if
the other one is.  A truth value is found in front of a number and a number in front of a
truth value, whatever the program declares. -/
theorem assignments_are_symmetric (d : Declarations) :
    (∀ s t : Ty, d.compatible s t = d.compatible t s) ∧
    ∀ (p q : Place) (x y : String) (a b : Binding), p.Assigns x y → q.Assigns y x →
      q.method? = p.method? → d.variableOf? p.method? x = some a →
      d.variableOf? p.method? y = some b →
      (p.checkAssignedValue d).Completes ∧ (q.checkAssignedValue d).Completes ∧
      ((p.checkAssignedValue d).findings = [] ↔ (q.checkAssignedValue d).findings = []) ∧
      (a.ty = .int → b.ty = .boolean →
        (p.checkAssignedValue d).findings = [p.finding (.booleanToInt x)] ∧
        (q.checkAssignedValue d).findings = [q.finding (.intToBoolean y)]) := by
  refine ⟨d.compatible_comm, ?_⟩
  intro p q x y a b hp hq hmethod hx hy
  have hcheck := checkAssignedValue_of_assigns hp hx hy
  have hx' : d.variableOf? q.method? x = some a := by rw [hmethod, hx]
  have hy' : d.variableOf? q.method? y = some b := by rw [hmethod, hy]
  have hcheck' := checkAssignedValue_of_assigns hq hy' hx'
  refine ⟨?_, ?_, ?_, ?_⟩
  · rw [hcheck]
    exact completes_found _
  · rw [hcheck']
    exact completes_found _
  · rw [findings_of_assigns_eq_nil_iff hp hx hy, findings_of_assigns_eq_nil_iff hq hy' hx',
      Ty.crosses_comm, d.compatible_comm]
  · intro ha hb
    rw [hcheck, hcheck', ha, hb]
    exact ⟨rfl, rfl⟩

/-! ### A number and a truth value

With `int` and `boolean` among the imports:

    class Swap {
      int swap(int n, boolean b) { n = b; b = n; return n; }
    }
-/

def assigned (x y : String) : Tree := (Form.assignment x (Form.identifier y).tree).tree

def swap : Tree :=
  let number := (Form.typeName "int" false false).tree
  let truth := (Form.typeName "boolean" false false).tree
  (Form.methodDecl "swap" number false
    [(Form.parameter "n" number).tree, (Form.parameter "b" truth).tree, assigned "n" "b",
      assigned "b" "n", (Form.returnStmt (some (Form.identifier "n").tree)).tree]).tree

def swapClass : Tree := (Form.classDecl "Swap" none [swap]).tree

def swapping : Tree :=
  (Form.program [(Form.importDecl "int").tree, (Form.importDecl "boolean").tree, swapClass]).tree

def swapDeclarations : Declarations :=
  ⟨"Swap", none, ["int", "boolean"], [],
    [⟨"swap", .int, [⟨"n", .int⟩, ⟨"b", .boolean⟩], [], false⟩]⟩

/-- An assignment in the method of the class. -/
def swapPlace (x y : String) : Place := ⟨assigned x y, [swap, swapClass, swapping]⟩

theorem assigns_swapPlace (x y : String) : (swapPlace x y).Assigns x y :=
  ⟨rfl, rfl, _, rfl, rfl, rfl⟩

/-- Imports by the names of the two types make them compatible, but are of no use to an
assignment. -/
theorem assignments_are_symmetric_swapping :
    swapDeclarations.compatible .boolean .int ∧ swapDeclarations.compatible .int .boolean ∧
    (swapPlace "n" "b").Assigns "n" "b" ∧ (swapPlace "b" "n").Assigns "b" "n" ∧
    (swapPlace "b" "n").method? = (swapPlace "n" "b").method? ∧
    ((swapPlace "n" "b").checkAssignedValue swapDeclarations).findings =
      [(swapPlace "n" "b").finding (.booleanToInt "n")] ∧
    ((swapPlace "b" "n").checkAssignedValue swapDeclarations).findings =
      [(swapPlace "b" "n").finding (.intToBoolean "b")] := by
  obtain ⟨hcomm, hboth⟩ := assignments_are_symmetric swapDeclarations
  have hcompatible : swapDeclarations.compatible .boolean .int := by decide
  have hn := assigns_swapPlace "n" "b"
  have hb := assigns_swapPlace "b" "n"
  obtain ⟨-, -, -, hreported⟩ :=
    hboth _ _ _ _ ⟨.parameter, .int⟩ ⟨.parameter, .boolean⟩ hn hb rfl rfl rfl
  obtain ⟨hfirst, hsecond⟩ := hreported rfl rfl
  exact ⟨hcompatible, hcomm .boolean .int ▸ hcompatible, hn, hb, rfl, hfirst, hsecond⟩

end Place

end JavaMinus
