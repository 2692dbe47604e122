/-
JavaMinus/Proofs/Bodies.lean

Where expressions stand in a program.

In a grammatical program the expressions stand in the statements of the methods
of its class, and nowhere else (`Place.exists_statement`): the declarations around
them hold only type expressions.  Inside a statement there are only statements
and expressions, and all of them belong to the method of the statement
(`Place.inside_of_mem_preorder`).
-/
import JavaMinus.Proofs.Grammar
import JavaMinus.ThreeAddress.Program

namespace JavaMinus

/-! ### What stands inside a tree -/

namespace Tree

theorem mem_preorderAll {u : Tree} {ts : List Tree} :
    u ∈ preorderAll ts ↔ ∃ t ∈ ts, u ∈ t.preorder := by
  induction ts with
  | nil => simp [preorderAll]
  | cons t rest ih => simp [preorderAll, ih]

/-- Inside a tree stands the tree itself, and what stands inside its
children. -/
theorem mem_preorder {t u : Tree} : u ∈ t.preorder ↔ u = t ∨ ∃ c ∈ t.children, u ∈ c.preorder := by
  rw [preorder_eq, List.mem_cons, descendants, mem_preorderAll]

theorem mem_preorder_self (t : Tree) : t ∈ t.preorder := mem_preorder.mpr (Or.inl rfl)

theorem mem_preorder_of_child {t c u : Tree} (hc : c ∈ t.children) (hu : u ∈ c.preorder) :
    u ∈ t.preorder := mem_preorder.mpr (Or.inr ⟨c, hc, hu⟩)

/-- What stands inside a tree that stands inside another one stands inside
that. -/
theorem mem_preorder_trans {u v : Tree} (hv : v ∈ u.preorder) :
    ∀ t : Tree, u ∈ t.preorder → v ∈ t.preorder := by
  refine Tree.induction ?_
  intro t ih hu
  rcases mem_preorder.mp hu with rfl | ⟨c, hc, hu⟩
  · exact hv
  · exact mem_preorder_of_child hc (ih c hc hu)

/-- A tree all of whose nodes are formed. -/
def Formed (t : Tree) : Prop := ∀ u ∈ t.preorder, u.isFormed

theorem Formed.self {t : Tree} (h : t.Formed) : t.isFormed := h t t.mem_preorder_self

theorem Formed.child {t c : Tree} (h : t.Formed) (hc : c ∈ t.children) : c.Formed :=
  fun u hu => h u (mem_preorder_of_child hc hu)

theorem Formed.of_mem_preorder {t u : Tree} (h : t.Formed) (hu : u ∈ t.preorder) : u.Formed :=
  fun v hv => h v (mem_preorder_trans hv t hu)

theorem formed_of_isGrammatical {root : Tree} (h : root.isGrammatical) : root.Formed := by
  obtain ⟨-, hformed⟩ := Bool.and_eq_true_iff.mp h
  exact List.all_eq_true.mp hformed

theorem kind_of_isGrammatical {root : Tree} (h : root.isGrammatical) : root.kind = .program :=
  eq_of_beq (Bool.and_eq_true_iff.mp h).1

/-! ### The children of formed nodes -/

variable {t u : Tree}

/-- Nodes that nothing stands below. -/
theorem children_eq_nil_of_isFormed (h : t.isFormed)
    (hk : t.kind ∈ [.importDecl, .typeName, .integer, .boolean, .identifier, .self, .newObject]) :
    t.children = [] := by
  have hwanted := wanted_of_isFormed h
  have hnone : areWanted [] t.children := by
    rw [hasWantedChildren] at hwanted
    simp only [List.mem_cons, List.not_mem_nil, or_false] at hk
    rcases hk with hk | hk | hk | hk | hk | hk | hk <;> rw [hk] at hwanted <;> exact hwanted
  exact List.length_eq_zero_iff.mp (length_of_areWanted hnone)

/-- A declaration of a variable stands over its type. -/
theorem typeName_of_isFormed (h : t.isFormed) (hk : t.kind = .variableDecl ∨ t.kind = .parameter) :
    ∃ u, t.children = [u] ∧ u.kind = .typeName := by
  have hwanted := wanted_of_isFormed h
  obtain ⟨u, hcs, hu⟩ : ∃ u, t.children = [u] ∧ (u.kind == .typeName) = true := by
    refine exists_of_areWanted_one (p := (· == .typeName)) ?_
    rw [hasWantedChildren] at hwanted
    rcases hk with hk | hk <;> rw [hk] at hwanted <;> exact hwanted
  exact ⟨u, hcs, eq_of_beq hu⟩

/-- All parts of an expression are expressions. -/
theorem isExpression_of_child (h : t.isFormed) (hk : t.kind.isExpression) (hu : u ∈ t.children) :
    u.kind.isExpression := by
  rcases e : t.kind <;> rw [e] at hk <;> try cases hk
  case integer | boolean | identifier | self | newObject =>
    rw [children_eq_nil_of_isFormed h (by rw [e]; decide)] at hu
    cases hu
  case arithmetic | logical | elementRead => exact isExpression_of_two hu h (by rw [e]; decide)
  case newArray | length => exact isExpression_of_one hu h (by rw [e]; decide)
  case call =>
    obtain ⟨receiver, arguments, -, hparts⟩ := call_of_isFormed h e
    exact hparts u hu
  case arrayLiteral => exact arrayLiteral_of_isFormed h e u hu

/-- All parts of a statement without statements in it are expressions. -/
theorem isExpression_of_child_of_simple (h : t.isFormed)
    (hk : t.kind ∈ [.assignment, .elementAssignment, .expressionStmt, .returnStmt])
    (hu : u ∈ t.children) : u.kind.isExpression := by
  simp only [List.mem_cons, List.not_mem_nil, or_false] at hk
  rcases hk with e | e | e | e
  · exact isExpression_of_one hu h (by rw [e]; decide)
  · exact isExpression_of_two hu h (by rw [e]; decide)
  · exact isExpression_of_one hu h (by rw [e]; decide)
  · rcases returnStmt_of_isFormed h e with hcs | ⟨value, hcs, hvalue⟩
    · rw [hcs] at hu
      cases hu
    · rw [hcs, List.mem_singleton] at hu
      rwa [hu]

/-- All parts of a statement are expressions or statements. -/
theorem isExpression_or_isStatement_of_child (h : t.isFormed) (hk : t.kind.isStatement)
    (hu : u ∈ t.children) : u.kind.isExpression ∨ u.kind.isStatement := by
  rcases e : t.kind <;> rw [e] at hk <;> try cases hk
  case assignment | elementAssignment | expressionStmt | returnStmt =>
    exact Or.inl (isExpression_of_child_of_simple h (by rw [e]; decide) hu)
  case conditional =>
    obtain ⟨c, a, b, hcs, hc, ha, hb⟩ := conditional_of_isFormed h e
    simp only [hcs, List.mem_cons, List.not_mem_nil, or_false] at hu
    rcases hu with rfl | rfl | rfl
    · exact Or.inl hc
    · exact Or.inr ha
    · exact Or.inr hb
  case loop =>
    obtain ⟨c, a, hcs, hc, ha⟩ := loop_of_isFormed h e
    simp only [hcs, List.mem_cons, List.not_mem_nil, or_false] at hu
    rcases hu with rfl | rfl
    · exact Or.inl hc
    · exact Or.inr ha
  case block => exact Or.inr (block_of_isFormed h e u hu)

/-- Below a program stand imports, and a class behind them. -/
theorem kind_of_child_of_program (h : t.isFormed) (hk : t.kind = .program)
    (hu : u ∈ t.children) : u.kind = .importDecl ∨ u.kind = .classDecl := by
  have hwanted := wanted_of_isFormed h
  rw [hasWantedChildren, hk] at hwanted
  obtain ⟨-, hlast⟩ := Bool.and_eq_true_iff.mp hwanted
  obtain ⟨last, hget, hclass⟩ := (Option.any_eq_true _ _).mp hlast
  obtain ⟨imports, hsplit⟩ := List.getLast?_eq_some_iff.mp hget
  rw [hsplit, List.mem_append, List.mem_singleton] at hu
  rcases hu with hu | rfl
  · refine Or.inl (kind_of_mem_program h hk u ?_)
    rwa [hsplit, List.dropLast_concat]
  · exact Or.inr (eq_of_beq hclass)

/-- A declaration that holds no statements holds no expressions. -/
theorem isExpression_eq_false_of_declaration (h : t.Formed)
    (hk : t.kind ∈ [.importDecl, .typeName, .variableDecl, .parameter]) (hu : u ∈ t.preorder) :
    u.kind.isExpression = false := by
  have hleaf : ∀ {s : Tree}, s.Formed → s.kind = .importDecl ∨ s.kind = .typeName →
      u ∈ s.preorder → u.kind.isExpression = false := by
    intro s hs hkind hmem
    have hnil : s.children = [] := by
      apply children_eq_nil_of_isFormed hs.self
      rcases hkind with hkind | hkind <;> rw [hkind] <;> decide
    rcases mem_preorder.mp hmem with rfl | ⟨c, hc, -⟩
    · rcases hkind with hkind | hkind <;> rw [hkind] <;> rfl
    · rw [hnil] at hc
      cases hc
  -- variables and parameters hold the name of a type, which holds nothing
  simp only [List.mem_cons, List.not_mem_nil, or_false] at hk
  rcases hk with hk | hk | hk
  · exact hleaf h (Or.inl hk) hu
  · exact hleaf h (Or.inr hk) hu
  · obtain ⟨type, hcs, htype⟩ := typeName_of_isFormed h.self hk
    rcases mem_preorder.mp hu with rfl | ⟨c, hc, hmem⟩
    · rcases hk with hk | hk <;> rw [hk] <;> rfl
    · have hformed := h.child hc
      rw [hcs, List.mem_singleton] at hc
      subst hc
      exact hleaf hformed (Or.inr htype) hmem

/-! ### The bodies of methods -/

open ThreeAddress (statements)

/-- The methods of the classes of a program. -/
def methodTrees (root : Tree) : List Tree :=
  (root.childrenOf .classDecl).flatMap (·.childrenOf .methodDecl)

/-- The nodes in the bodies of the methods of a program. -/
def bodyTrees (root : Tree) : List Tree :=
  root.methodTrees.flatMap fun m => (statements m).flatMap preorder

theorem mem_childrenOf {k : Kind} : u ∈ t.childrenOf k ↔ u ∈ t.children ∧ u.kind = k := by
  rw [childrenOf, List.mem_filter, beq_iff_eq]

theorem mem_statements {s : Tree} : s ∈ statements t ↔ s ∈ t.children ∧ s.kind.isStatement := by
  rw [statements, List.mem_filter]

theorem mem_methodTrees {root m : Tree} :
    m ∈ root.methodTrees ↔
      ∃ cls ∈ root.childrenOf .classDecl, m ∈ cls.childrenOf .methodDecl := by
  rw [methodTrees, List.mem_flatMap]

theorem mem_bodyTrees {root : Tree} :
    u ∈ root.bodyTrees ↔ ∃ m ∈ root.methodTrees, ∃ s ∈ statements m, u ∈ s.preorder := by
  simp only [bodyTrees, List.mem_flatMap]

theorem mem_preorder_of_methodTrees {root m : Tree} (hm : m ∈ root.methodTrees)
    (hu : u ∈ m.preorder) : u ∈ root.preorder := by
  obtain ⟨cls, hcls, hm⟩ := mem_methodTrees.mp hm
  exact mem_preorder_of_child (mem_childrenOf.mp hcls).1
    (mem_preorder_of_child (mem_childrenOf.mp hm).1 hu)

theorem mem_preorder_of_bodyTrees {root : Tree} (hu : u ∈ root.bodyTrees) :
    u ∈ root.preorder := by
  obtain ⟨m, hm, s, hs, hu⟩ := mem_bodyTrees.mp hu
  exact mem_preorder_of_methodTrees hm (mem_preorder_of_child (mem_statements.mp hs).1 hu)

theorem Formed.methodTree {root m : Tree} (h : root.Formed) (hm : m ∈ root.methodTrees) :
    m.Formed := h.of_mem_preorder (mem_preorder_of_methodTrees hm m.mem_preorder_self)

theorem Formed.statement {m s : Tree} (h : m.Formed) (hs : s ∈ statements m) : s.Formed :=
  h.child (mem_statements.mp hs).1

theorem get?_name_of_mem_methodTrees {root m : Tree} (hgrammar : root.isGrammatical)
    (hm : m ∈ root.methodTrees) : m.get? "name" = some m.name := by
  obtain ⟨cls, -, hmethod⟩ := mem_methodTrees.mp hm
  have hkey : "name" ∈ m.kind.keys := by
    rw [(mem_childrenOf.mp hmethod).2]
    decide
  obtain ⟨x, hx⟩ := has_of_isFormed ((formed_of_isGrammatical hgrammar).methodTree hm).self hkey
  rw [name, hx, Option.getD_some]

end Tree

/-! ### Places in the bodies of methods -/

namespace Place

open ThreeAddress (statements)

theorem mem_withinAll_iff {above : List Tree} {ts : List Tree} {q : Place} :
    q ∈ withinAll above ts ↔ ∃ t ∈ ts, q ∈ within above t := by
  induction ts with
  | nil => simp [withinAll]
  | cons t rest ih => simp [withinAll, ih]

/-- Inside a place is the place itself, and what is inside its children. -/
theorem mem_preorder {p q : Place} :
    q ∈ p.preorder ↔ q = p ∨ ∃ c ∈ p.children, q ∈ c.preorder := by
  rw [preorder_eq, List.mem_cons, descendants, mem_withinAll_iff, children]
  simp only [List.mem_map, exists_exists_and_eq_and]
  rfl

theorem exists_of_mem_preorder {p : Place} {t : Tree} (ht : t ∈ p.tree.preorder) :
    ∃ q ∈ p.preorder, q.tree = t := by
  rw [← map_tree_preorder] at ht
  exact List.mem_map.mp ht

/-- What is inside a place that is inside another one is inside that. -/
theorem mem_preorder_trans {p q : Place} (hq : q ∈ p.preorder) :
    ∀ (t : Tree) (above : List Tree), p ∈ (Place.mk t above).preorder →
      q ∈ (Place.mk t above).preorder := by
  refine Tree.induction ?_
  intro t ih above hp
  rcases mem_preorder.mp hp with rfl | ⟨c, hc, hp⟩
  · exact hq
  · obtain ⟨u, hu, rfl⟩ := List.mem_map.mp hc
    exact mem_preorder_of_child hc (ih u hu _ hp)

/-- What is inside an expression or a statement is one of the two, and belongs
to the same method. -/
theorem inside_of_mem_preorder {q : Place} : ∀ (t : Tree) (above : List Tree), t.Formed →
    t.kind.isExpression ∨ t.kind.isStatement → q ∈ (Place.mk t above).preorder →
    (q.tree.kind.isExpression ∨ q.tree.kind.isStatement) ∧
      q.method? = (Place.mk t above).method? := by
  refine Tree.induction ?_
  intro t ih above hformed hk hq
  rcases mem_preorder.mp hq with rfl | ⟨c, hc, hq⟩
  · exact ⟨hk, rfl⟩
  · obtain ⟨u, hu, rfl⟩ := List.mem_map.mp hc
    have hpart : u.kind.isExpression ∨ u.kind.isStatement := by
      rcases hk with hk | hk
      · exact Or.inl (Tree.isExpression_of_child hformed.self hk hu)
      · exact Tree.isExpression_or_isStatement_of_child hformed.self hk hu
    obtain ⟨hkind, hmethod⟩ := ih u hu _ (hformed.child hu) hpart hq
    refine ⟨hkind, hmethod.trans (method?_of_child hc ?_)⟩
    intro hdecl
    have hdecl : u.kind = .methodDecl := hdecl
    rw [hdecl] at hpart
    rcases hpart with hpart | hpart <;> nomatch hpart

/-- An expression in a method stands in one of its statements. -/
theorem exists_statement_of_method {p q : Place} (hformed : p.tree.Formed)
    (hk : p.tree.kind = .methodDecl) (hq : q ∈ p.preorder)
    (hexpression : q.tree.kind.isExpression) :
    ∃ s ∈ statements p.tree, q.tree ∈ s.preorder ∧ q.method? = p.tree.get? "name" := by
  rcases mem_preorder.mp hq with rfl | ⟨c, hc, hq⟩
  · rw [hk] at hexpression
    nomatch hexpression
  · obtain ⟨u, hu, rfl⟩ := List.mem_map.mp hc
    have hdeclared : u.kind ∈ [.importDecl, .typeName, .variableDecl, .parameter] → False := by
      intro hdeclared
      have hnone := Tree.isExpression_eq_false_of_declaration (hformed.child hu) hdeclared
        (tree_mem_preorder hq)
      rw [hnone] at hexpression
      nomatch hexpression
    rcases Tree.kind_of_mem_method hformed.self hk u hu with hkind | hkind | hkind | hkind
    · exact (hdeclared (by rw [hkind]; decide)).elim
    · exact (hdeclared (by rw [hkind]; decide)).elim
    · exact (hdeclared (by rw [hkind]; decide)).elim
    · obtain ⟨-, hmethod⟩ := inside_of_mem_preorder u _ (hformed.child hu) (Or.inr hkind) hq
      refine ⟨u, Tree.mem_statements.mpr ⟨hu, hkind⟩, tree_mem_preorder hq, ?_⟩
      rw [hmethod, method?_of_child hc (fun h => by rw [h] at hkind; nomatch hkind),
        method?_of_methodDecl hk]

/-- An expression in a grammatical program stands in a statement of one of its
methods, and belongs to this method. -/
theorem exists_statement {root : Tree} (hgrammar : root.isGrammatical) {q : Place}
    (hq : q ∈ (Place.top root).preorder) (hexpression : q.tree.kind.isExpression) :
    ∃ m ∈ root.methodTrees, ∃ s ∈ statements m, q.tree ∈ s.preorder ∧
      q.method? = m.get? "name" := by
  have hformed := Tree.formed_of_isGrammatical hgrammar
  have hprogram := Tree.kind_of_isGrammatical hgrammar
  have hdeclared : ∀ {t : Tree}, t.Formed →
      t.kind ∈ [.importDecl, .typeName, .variableDecl, .parameter] → q.tree ∈ t.preorder →
      False := by
    intro t ht hkind hmem
    rw [Tree.isExpression_eq_false_of_declaration ht hkind hmem] at hexpression
    nomatch hexpression
  -- downwards through the class and the method; what is beside them holds no expression
  rcases mem_preorder.mp hq with rfl | ⟨c, hc, hq⟩
  · have hkind : (Place.top root).tree.kind = .program := hprogram
    rw [hkind] at hexpression
    nomatch hexpression
  · obtain ⟨cls, hcls, rfl⟩ := List.mem_map.mp hc
    have hclsFormed := hformed.child hcls
    rcases Tree.kind_of_child_of_program hformed.self hprogram hcls with hkind | hkind
    · exact (hdeclared hclsFormed (by rw [hkind]; decide) (tree_mem_preorder hq)).elim
    · rcases mem_preorder.mp hq with rfl | ⟨c, hc, hq⟩
      · have hkind : (Place.mk cls (Place.top root).around).tree.kind = .classDecl := hkind
        rw [hkind] at hexpression
        nomatch hexpression
      · obtain ⟨m, hm, rfl⟩ := List.mem_map.mp hc
        rcases Tree.kind_of_mem_class hclsFormed.self hkind m hm with hfield | hmethod
        · exact (hdeclared (hclsFormed.child hm) (by rw [hfield]; decide)
            (tree_mem_preorder hq)).elim
        · obtain ⟨s, hs, hmem, hbelongs⟩ :=
            exists_statement_of_method (hclsFormed.child hm) hmethod hq hexpression
          refine ⟨m, ?_, s, hs, hmem, hbelongs⟩
          exact Tree.mem_methodTrees.mpr ⟨cls, Tree.mem_childrenOf.mpr ⟨hcls, hkind⟩,
            Tree.mem_childrenOf.mpr ⟨hm, hmethod⟩⟩

/-- What stands in a statement of a method has a place in the program, which belongs
to the method. -/
theorem exists_of_statement {root m s u : Tree} (hgrammar : root.isGrammatical)
    (hm : m ∈ root.methodTrees) (hs : s ∈ statements m) (hu : u ∈ s.preorder) :
    ∃ q ∈ (Place.top root).preorder, q.tree = u ∧ q.method? = m.get? "name" := by
  obtain ⟨cls, hcls, hmethod⟩ := Tree.mem_methodTrees.mp hm
  obtain ⟨hcls, -⟩ := Tree.mem_childrenOf.mp hcls
  obtain ⟨hmember, hk⟩ := Tree.mem_childrenOf.mp hmethod
  obtain ⟨hchild, hstatement⟩ := Tree.mem_statements.mp hs
  -- the way down from the root, place by place
  let inClass : Place := ⟨cls, (Place.top root).around⟩
  let inMethod : Place := ⟨m, inClass.around⟩
  let inStatement : Place := ⟨s, inMethod.around⟩
  have hplace : inStatement ∈ inMethod.children := List.mem_map_of_mem hchild
  obtain ⟨q, hq, rfl⟩ := exists_of_mem_preorder (p := inStatement) hu
  refine ⟨q, ?_, rfl, ?_⟩
  · apply mem_preorder_of_child (c := inClass) (List.mem_map_of_mem hcls)
    apply mem_preorder_of_child (c := inMethod) (List.mem_map_of_mem hmember)
    exact mem_preorder_of_child hplace hq
  · have hformed := ((Tree.formed_of_isGrammatical hgrammar).methodTree hm).statement hs
    obtain ⟨-, hsame⟩ := inside_of_mem_preorder s _ hformed (Or.inr hstatement) hq
    have hdeclared : s.kind ≠ .methodDecl := by
      intro hdecl
      rw [hdecl] at hstatement
      nomatch hstatement
    calc q.method? = inStatement.method? := hsame
      _ = inMethod.method? := method?_of_child hplace hdeclared
      _ = m.get? "name" := method?_of_methodDecl hk

/-- An expression in a grammatical program stands in the body of a method. -/
theorem mem_bodyTrees {root : Tree} (hgrammar : root.isGrammatical) {q : Place}
    (hq : q ∈ (Place.top root).preorder) (hexpression : q.tree.kind.isExpression) :
    q.tree ∈ root.bodyTrees := by
  obtain ⟨m, hm, s, hs, hmem, -⟩ := exists_statement hgrammar hq hexpression
  exact Tree.mem_bodyTrees.mpr ⟨m, hm, s, hs, hmem⟩

end Place

end JavaMinus
