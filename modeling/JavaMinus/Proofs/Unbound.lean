/-
JavaMinus/Proofs/Unbound.lean

Names that denote nothing.

A name is looked up wherever an identifier or the target of an assignment stands,
and looked up again by the rules for the values, receivers and conditions that it
is a part of.  Only the node that carries the name is found fault with: in the
report of a program the messages about undefined variables are, in reading order,
one for each node whose name is unbound (`unbound_names_are_reported`).

What is unbound is said here by the lists of declared names (`Place.isUnbound`);
that the lookup finds nothing for just these names is `isNone_binding?` and
`isNone_target?`.
-/
import JavaMinus.Proofs.Reports

namespace JavaMinus

/-! ### Declared names -/

namespace Declarations

variable (d : Declarations)

/-- The names of the variables that can be used in a method, or outside of all
methods. -/
def variableNames (scope : Option String) : List String :=
  (scope.elim [] fun method => (d.locals method ++ d.parameters method).map (·.name)) ++
    d.fields.map (·.name)

/-- Whether a name is imported, or that of the class or of the class it extends. -/
def isClassName (name : String) : Bool := d.isImported name || d.isOwnOrSuper name

theorem isSome_find? (vs : List Variable) (name : String) :
    (Variable.find? vs name).isSome = (vs.map (·.name)).contains name := by
  induction vs with
  | nil => rfl
  | cons v rest ih =>
    rw [List.map_cons, List.contains_cons, ← ih, Variable.find?, List.find?_cons, BEq.comm]
    cases name == v.name <;> rfl

theorem isSome_variableOf? (scope : Option String) (name : String) :
    (d.variableOf? scope name).isSome = (d.variableNames scope).contains name := by
  rw [variableOf?, variableNames, Option.isSome_or, Option.isSome_map, field?, isSome_find?,
    List.contains_append]
  cases scope with
  | none => rfl
  | some method =>
    simp only [Option.bind_some, Option.elim_some, methodVariable?, Option.isSome_or,
      Option.isSome_map, isSome_find?, List.map_append, List.contains_append]

theorem isSome_class? (name : String) : (d.class? name).isSome = d.isClassName name := by
  rw [class?, isClassName, isOwnOrSuper]
  cases d.isImported name <;> cases name == d.className <;> cases d.superName == some name <;> rfl

theorem isSome_binding? (scope : Option String) (name : String) :
    (d.binding? scope name).isSome =
      ((d.variableNames scope).contains name || d.isClassName name) := by
  rw [binding?, Option.isSome_or, isSome_variableOf?, isSome_class?]

end Declarations

/-! ### Nodes with an unbound name -/

namespace Place

variable (d : Declarations) (p : Place)

/-- Whether the name at a place is unbound: on an identifier it is the name of no
variable and of no class, on an assignment it is the name of no variable.  A node
of another kind has no name to be bound. -/
def isUnbound : Bool :=
  let names := d.variableNames p.method?
  match p.tree.kind with
  | .identifier => !(p.tree.get? "name").any fun name => names.contains name || d.isClassName name
  | .assignment | .elementAssignment => !(p.tree.get? "name").any names.contains
  | _ => false

theorem isNone_binding? :
    (p.binding? d).isNone = !(p.tree.get? "name").any fun name =>
      (d.variableNames p.method?).contains name || d.isClassName name := by
  rw [binding?, Declarations.identifier?, ← Option.not_isSome]
  cases p.tree.get? "name" with
  | none => rfl
  | some name => rw [Option.bind_some, d.isSome_binding?, Option.any_some]

theorem isNone_target? :
    (p.target? d).isNone = !(p.tree.get? "name").any (d.variableNames p.method?).contains := by
  rw [target?, ← Option.not_isSome]
  cases p.tree.get? "name" with
  | none => rfl
  | some name => rw [Option.bind_some, d.isSome_variableOf?, Option.any_some]

end Place

/-! ### What is found at a node -/

def Problem.isUndefinedVariable : Problem → Bool
  | undefinedVariable _ => true
  | _ => false

/-- Undefined variables concern the nodes whose name can be unbound. -/
theorem Problem.concerns_of_isUndefinedVariable {problem : Problem}
    (h : problem.isUndefinedVariable) {k : Kind} (hk : problem.concerns k) :
    k = .identifier ∨ k = .assignment ∨ k = .elementAssignment := by
  cases problem <;> cases h
  simpa [concerns, or_assoc] using hk

namespace Place

open Review

variable (d : Declarations) (p : Place)

/-- The findings about undefined variables among others. -/
def undefinedAmong (fs : List Finding) : List Finding := fs.filter (·.problem.isUndefinedVariable)

theorem undefinedAmong_append (fs gs : List Finding) :
    undefinedAmong (fs ++ gs) = undefinedAmong fs ++ undefinedAmong gs := List.filter_append ..

theorem not_isUndefinedVariable_of_isAboutTypes (problem : Problem) (h : problem.isAboutTypes) :
    ¬ problem.isUndefinedVariable := by
  cases problem <;> first | exact Bool.false_ne_true | nomatch h

/-- The rules for the target of an assignment find an undefined variable just if
the target is unbound, and the rules for what is assigned add no other. -/
theorem undefinedAmong_assigned {x : Review Unit} (hx : x.Finds (p.IsAbout Problem.isAboutTypes)) :
    undefinedAmong (p.checkTarget d >>= fun _ => x).findings =
      if (p.target? d).isNone then [p.finding (.undefinedVariable p.tree.name)] else [] := by
  have hvalue : undefinedAmong x.findings = [] :=
    filter_eq_nil_of_isAbout hx not_isUndefinedVariable_of_isAboutTypes
  rw [checkTarget_eq, bind_assoc, findings_reportIf_bind, findings_reportIf_bind,
    undefinedAmong_append, undefinedAmong_append, hvalue]
  cases (p.target? d).isNone <;>
    cases p.isStatic d && (d.field? p.tree.name).isSome <;> rfl

theorem undefinedAmong_identifier :
    undefinedAmong (p.checkIdentifier d).findings =
      if (p.binding? d).isNone then [p.finding (.undefinedVariable p.tree.name)] else [] := by
  rw [checkIdentifier_eq, findings_reportIf_bind, findings_reportIf, undefinedAmong_append]
  cases (p.binding? d).isNone <;>
    cases p.isStatic d && (p.binding? d).any (·.origin == .field) <;> rfl

/-- The check of a node finds an undefined variable just if the name at the node is
unbound, and then finds it once. -/
theorem undefinedAmong_check :
    undefinedAmong (p.check d).findings =
      if p.isUnbound d then [p.finding (.undefinedVariable p.tree.name)] else [] := by
  by_cases hnamed : p.tree.kind = .identifier ∨ p.tree.kind = .assignment ∨
      p.tree.kind = .elementAssignment
  · rcases hnamed with e | e | e <;> simp only [check_eq, isUnbound, e]
    · rw [undefinedAmong_identifier, isNone_binding?]
    · rw [← isNone_target?, checkAssignment_eq]
      exact undefinedAmong_assigned d p finds_checkAssignedValue
    · rw [← isNone_target?, checkElementAssignment_eq]
      exact undefinedAmong_assigned d p (finds_checkAssignedElement (isAbout_self rfl)
        (fun _ => isAbout_self rfl) fun _ _ _ => isAbout_self rfl)
  -- nothing else carries a name that is looked up
  · have hbound : p.isUnbound d = false := by
      rw [isUnbound]
      split
      · next e => exact absurd (Or.inl e) hnamed
      · next e => exact absurd (Or.inr (Or.inl e)) hnamed
      · next e => exact absurd (Or.inr (Or.inr e)) hnamed
      · rfl
    rw [hbound]
    refine filter_eq_nil_of_isAbout (finds_check d p) fun problem hconcerns hundefined => ?_
    exact hnamed (Problem.concerns_of_isUndefinedVariable hundefined hconcerns)

end Place

/-! ### What is reported -/

/-- Only messages about undefined variables begin as these do. -/
theorem Problem.isPrefixOf_message (problem : Problem) :
    "Variable not defined: ".toList.isPrefixOf problem.message.toList =
      problem.isUndefinedVariable := by
  cases problem
  case duplicate scope name => exact isPrefixOf_message_duplicate_eq_false rfl scope name
  all_goals exact isPrefixOf_message_of_letters rfl rfl rfl

namespace Declarations

variable {d : Declarations} {root : Place} {ds : Diagnostics}

/-- In the report of a program the messages about undefined variables are those of
the nodes with an unbound name, one for each in reading order. -/
theorem unbound_names_are_reported (h : d.analyze root = .ok ds) :
    ds.startingWith "Variable not defined: " =
      (root.preorder.filter (·.isUnbound d)).map fun p =>
        .error p.tree.position s!"Variable not defined: {p.tree.name}" := by
  rw [List.map_eq_flatMap]
  refine startingWith_of_analyze h Problem.isPrefixOf_message fun p => ?_
  have hp : (p.check d).findings.filter (·.problem.isUndefinedVariable) = _ :=
    p.undefinedAmong_check d
  rw [hp]
  split <;> rfl

/-! ### A program with unbound names

    class Lost {
      int find(int n) {
        sum = missing;
        n = missing + n;
        found[n] = 1;
        return true;
      }
    }
-/

def lost : Tree :=
  let int := (Form.typeName "int" false false).tree
  let identifier (name : String) := (Form.identifier name).tree
  (Form.program [(Form.classDecl "Lost" none
    [(Form.methodDecl "find" int false
      [(Form.parameter "n" int).tree,
        (Form.assignment "sum" (identifier "missing")).tree,
        (Form.assignment "n" (Form.arithmetic "+" (identifier "missing")
          (identifier "n")).tree).tree,
        (Form.elementAssignment "found" (identifier "n") (Form.integer 1).tree).tree,
        (Form.returnStmt (some (Form.boolean true).tree)).tree]).tree]).tree]).tree

def lostDeclarations : Declarations :=
  ⟨"Lost", none, [], [], [⟨"find", .int, [⟨"n", .int⟩], [], false⟩]⟩

theorem unbound_names_are_reported_lost :
    ∃ ds, lostDeclarations.analyze (.top lost) = .ok ds ∧ ds.size = 5 ∧
      ds.startingWith "Variable not defined: " =
        ((Place.top lost).preorder.filter (·.isUnbound lostDeclarations)).map fun p =>
          .error p.tree.position s!"Variable not defined: {p.tree.name}" := by
  obtain ⟨ds, h, hsize⟩ :
      ∃ ds, lostDeclarations.analyze (.top lost) = .ok ds ∧ ds.size = 5 := ⟨_, rfl, rfl⟩
  exact ⟨ds, h, hsize, unbound_names_are_reported h⟩

end Declarations

end JavaMinus
