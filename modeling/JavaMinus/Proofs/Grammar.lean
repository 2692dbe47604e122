/-
JavaMinus/Proofs/Grammar.lean

Trees with the shapes of the language.

A node is formed if it carries the attributes that its kind asks for, over
children as many and of such kinds as the language wants them below it.  What
the attributes say is not looked at, so a formed program need not make sense.
A program is grammatical if all its nodes are formed (`Tree.isGrammatical`).

Whatever holds of all places inside a place holds of all places inside its
children (`Place.mem_preorder_of_child`), and inside of a method a place
belongs to the method that its parent belongs to (`Place.method?_of_child`).
-/
import Mathlib.Data.List.TakeWhile
import JavaMinus.Tree.Form

namespace JavaMinus

/-- The tree of a form over trees, at no known place. -/
def Form.tree (form : Form Tree) : Tree :=
  .node ⟨0, form.kind, form.attributes, .unknown⟩ form.children

/-! ### Formed nodes -/

/-- The attributes that nodes of a kind have at least. -/
def Kind.keys : Kind → List String
  | .importDecl | .integer | .boolean => ["value"]
  | .typeName => ["value", "isArray", "isVarargs"]
  | .methodDecl => ["name", "isPublic", "isStatic"]
  | .classDecl | .variableDecl | .parameter | .assignment | .elementAssignment
  | .identifier | .call | .newObject => ["name"]
  | .arithmetic | .logical => ["op"]
  | .program | .expressionStmt | .returnStmt | .conditional | .loop | .block | .self
  | .elementRead | .arrayLiteral | .newArray | .length => []

namespace Tree

/-- Whether the trees are as many as wanted, and each is of a kind that is
wanted at its position. -/
def areWanted : List (Kind → Bool) → List Tree → Bool
  | [], [] => true
  | wanted :: rest, t :: ts => wanted t.kind && areWanted rest ts
  | [], _ :: _ | _ :: _, [] => false

/-- Whether all trees are of wanted kinds. -/
def allWanted (wanted : Kind → Bool) (ts : List Tree) : Bool := ts.all (wanted ·.kind)

/-- What stands in a method behind its parameters and its locals. -/
def afterLocals (ts : List Tree) : List Tree :=
  (ts.dropWhile (·.kind == .parameter)).dropWhile (·.kind == .variableDecl)

/-- Whether the children are those that the language wants below the node. -/
def hasWantedChildren (t : Tree) : Bool :=
  let expression := Kind.isExpression
  let statement := Kind.isStatement
  match t.kind with
  | .program =>
    allWanted (· == .importDecl) t.children.dropLast &&
      t.children.getLast?.any (·.kind == .classDecl)
  | .classDecl => allWanted (fun k => k == .variableDecl || k == .methodDecl) t.children
  | .methodDecl =>
    allWanted (· == .typeName) (t.children.take 1) && !t.children.isEmpty &&
      allWanted statement (afterLocals (t.children.drop 1))
  | .variableDecl | .parameter => areWanted [(· == .typeName)] t.children
  | .assignment | .expressionStmt | .newArray | .length => areWanted [expression] t.children
  | .elementAssignment | .arithmetic | .logical | .elementRead =>
    areWanted [expression, expression] t.children
  | .returnStmt => areWanted [] t.children || areWanted [expression] t.children
  | .conditional => areWanted [expression, statement, statement] t.children
  | .loop => areWanted [expression, statement] t.children
  | .block => allWanted statement t.children
  | .call => !t.children.isEmpty && allWanted expression t.children
  | .arrayLiteral => allWanted expression t.children
  | .importDecl | .typeName | .integer | .boolean | .identifier | .self | .newObject =>
    areWanted [] t.children

/-- Whether a node has what its kind asks for, whatever is below its
children. -/
def isFormed (t : Tree) : Bool := t.kind.keys.all t.has && t.hasWantedChildren

/-- Whether a tree is a program of the shapes of the language. -/
def isGrammatical (root : Tree) : Bool :=
  root.kind == .program && root.preorder.all (·.isFormed)

/-! ### What formed nodes consist of -/

variable {t : Tree}

theorem exists_of_areWanted_one {p : Kind → Bool} {ts : List Tree} (h : areWanted [p] ts) :
    ∃ u, ts = [u] ∧ p u.kind := by
  rcases ts with - | ⟨u, - | ⟨_, _⟩⟩
  · cases h
  · exact ⟨u, rfl, by simpa [areWanted] using h⟩
  · simp [areWanted] at h

theorem exists_of_areWanted_two {p q : Kind → Bool} {ts : List Tree}
    (h : areWanted [p, q] ts) : ∃ u v, ts = [u, v] ∧ p u.kind ∧ q v.kind := by
  rcases ts with - | ⟨u, rest⟩
  · cases h
  · obtain ⟨hu, hrest⟩ := Bool.and_eq_true_iff.mp h
    obtain ⟨v, rfl, hv⟩ := exists_of_areWanted_one hrest
    exact ⟨u, v, rfl, hu, hv⟩

theorem exists_of_areWanted_three {p q r : Kind → Bool} {ts : List Tree}
    (h : areWanted [p, q, r] ts) :
    ∃ u v w, ts = [u, v, w] ∧ p u.kind ∧ q v.kind ∧ r w.kind := by
  rcases ts with - | ⟨u, rest⟩
  · cases h
  · obtain ⟨hu, hrest⟩ := Bool.and_eq_true_iff.mp h
    obtain ⟨v, w, rfl, hv, hw⟩ := exists_of_areWanted_two hrest
    exact ⟨u, v, w, rfl, hu, hv, hw⟩

theorem length_of_areWanted {ps : List (Kind → Bool)} {ts : List Tree} (h : areWanted ps ts) :
    ts.length = ps.length := by
  induction ps generalizing ts with
  | nil =>
    cases ts with
    | nil => rfl
    | cons => cases h
  | cons p rest ih =>
    cases ts with
    | nil => cases h
    | cons u us => rw [List.length_cons, List.length_cons, ih (Bool.and_eq_true_iff.mp h).2]

theorem of_allWanted {p : Kind → Bool} {ts : List Tree} (h : allWanted p ts) {u : Tree}
    (hu : u ∈ ts) : p u.kind :=
  List.all_eq_true.mp h u hu

theorem has_of_isFormed (h : t.isFormed) {key : String} (hkey : key ∈ t.kind.keys) :
    ∃ value, t.get? key = some value := by
  have hhas := List.all_eq_true.mp (Bool.and_eq_true_iff.mp h).1 key hkey
  exact Option.isSome_iff_exists.mp hhas

theorem wanted_of_isFormed (h : t.isFormed) : t.hasWantedChildren :=
  (Bool.and_eq_true_iff.mp h).2

/-- A node over a single expression. -/
theorem exists_one_of_isFormed (h : t.isFormed)
    (hk : t.kind ∈ [.assignment, .expressionStmt, .newArray, .length]) :
    ∃ u, t.children = [u] ∧ u.kind.isExpression := by
  have hwanted := wanted_of_isFormed h
  refine exists_of_areWanted_one (p := Kind.isExpression) ?_
  rw [hasWantedChildren] at hwanted
  simp only [List.mem_cons, List.not_mem_nil, or_false] at hk
  rcases hk with hk | hk | hk | hk <;> rw [hk] at hwanted <;> exact hwanted

/-- A node over two expressions. -/
theorem exists_two_of_isFormed (h : t.isFormed)
    (hk : t.kind ∈ [.elementAssignment, .arithmetic, .logical, .elementRead]) :
    ∃ u v, t.children = [u, v] ∧ u.kind.isExpression ∧ v.kind.isExpression := by
  have hwanted := wanted_of_isFormed h
  refine exists_of_areWanted_two (p := Kind.isExpression) (q := Kind.isExpression) ?_
  rw [hasWantedChildren] at hwanted
  simp only [List.mem_cons, List.not_mem_nil, or_false] at hk
  rcases hk with hk | hk | hk | hk <;> rw [hk] at hwanted <;> exact hwanted

section OneOrTwo

variable {u w w' : Tree} (hu : u ∈ t.children)
include hu

theorem isExpression_of_one (h : t.isFormed)
    (hk : t.kind ∈ [.assignment, .expressionStmt, .newArray, .length]) : u.kind.isExpression := by
  obtain ⟨part, hcs, hpart⟩ := exists_one_of_isFormed h hk
  rw [hcs, List.mem_singleton] at hu
  rwa [hu]

theorem isExpression_of_two (h : t.isFormed)
    (hk : t.kind ∈ [.elementAssignment, .arithmetic, .logical, .elementRead]) :
    u.kind.isExpression := by
  obtain ⟨left, right, hcs, hleft, hright⟩ := exists_two_of_isFormed h hk
  simp only [hcs, List.mem_cons, List.not_mem_nil, or_false] at hu
  rcases hu with rfl | rfl
  · exact hleft
  · exact hright

/-- The first part of a node over a single expression is all that stands below it. -/
theorem eq_of_one (h : t.isFormed)
    (hk : t.kind ∈ [.assignment, .expressionStmt, .newArray, .length])
    (hw : t.children[0]? = some w) : u = w := by
  obtain ⟨part, hcs, -⟩ := exists_one_of_isFormed h hk
  rw [hcs] at hu hw
  rw [List.mem_singleton.mp hu]
  exact Option.some.inj hw

/-- The first two parts of a node over two expressions are all that stands below it. -/
theorem eq_or_eq_of_two (h : t.isFormed)
    (hk : t.kind ∈ [.elementAssignment, .arithmetic, .logical, .elementRead])
    (hw : t.children[0]? = some w) (hw' : t.children[1]? = some w') : u = w ∨ u = w' := by
  obtain ⟨left, right, hcs, -⟩ := exists_two_of_isFormed h hk
  rw [hcs] at hu hw hw'
  simp only [List.mem_cons, List.not_mem_nil, or_false] at hu
  rw [← Option.some.inj hw, ← Option.some.inj hw']
  exact hu

end OneOrTwo

theorem call_of_isFormed (h : t.isFormed) (hk : t.kind = .call) :
    ∃ receiver arguments, t.children = receiver :: arguments ∧
      ∀ u ∈ t.children, u.kind.isExpression := by
  have hwanted := wanted_of_isFormed h
  rw [hasWantedChildren, hk] at hwanted
  obtain ⟨hne, hall⟩ := Bool.and_eq_true_iff.mp hwanted
  rcases e : t.children with - | ⟨receiver, arguments⟩
  · rw [e] at hne
    cases hne
  · exact ⟨receiver, arguments, rfl, fun u hu => of_allWanted hall (e ▸ hu)⟩

theorem arrayLiteral_of_isFormed (h : t.isFormed) (hk : t.kind = .arrayLiteral) :
    ∀ u ∈ t.children, u.kind.isExpression := by
  have hwanted := wanted_of_isFormed h
  rw [hasWantedChildren, hk] at hwanted
  exact fun u hu => of_allWanted hwanted hu

theorem returnStmt_of_isFormed (h : t.isFormed) (hk : t.kind = .returnStmt) :
    t.children = [] ∨ ∃ u, t.children = [u] ∧ u.kind.isExpression := by
  have hwanted := wanted_of_isFormed h
  rw [hasWantedChildren, hk] at hwanted
  rcases Bool.or_eq_true_iff.mp hwanted with h | h
  · left
    rcases e : t.children with - | ⟨_, _⟩
    · rfl
    · rw [e] at h
      cases h
  · exact Or.inr (exists_of_areWanted_one h)

theorem conditional_of_isFormed (h : t.isFormed) (hk : t.kind = .conditional) :
    ∃ c a b, t.children = [c, a, b] ∧ c.kind.isExpression ∧ a.kind.isStatement ∧
      b.kind.isStatement := by
  have hwanted := wanted_of_isFormed h
  rw [hasWantedChildren, hk] at hwanted
  exact exists_of_areWanted_three hwanted

theorem loop_of_isFormed (h : t.isFormed) (hk : t.kind = .loop) :
    ∃ c a, t.children = [c, a] ∧ c.kind.isExpression ∧ a.kind.isStatement := by
  have hwanted := wanted_of_isFormed h
  rw [hasWantedChildren, hk] at hwanted
  exact exists_of_areWanted_two hwanted

/-- Parts that a conditional is seen to have are its condition and its first part. -/
theorem conditional_of_eq_cons (h : t.isFormed) (hk : t.kind = .conditional) {c a : Tree}
    {rest : List Tree} (hcs : t.children = c :: a :: rest) :
    c.kind.isExpression ∧ a.kind.isStatement ∧ ∃ b, rest = [b] ∧ b.kind.isStatement := by
  obtain ⟨c', a', b, hcs', hc, ha, hb⟩ := conditional_of_isFormed h hk
  obtain ⟨rfl, rfl, rfl⟩ : c = c' ∧ a = a' ∧ rest = [b] := by simpa using hcs.symm.trans hcs'
  exact ⟨hc, ha, b, rfl, hb⟩

/-- Parts that a loop is seen to have are its condition and its body. -/
theorem loop_of_eq_cons (h : t.isFormed) (hk : t.kind = .loop) {c a : Tree} {rest : List Tree}
    (hcs : t.children = c :: a :: rest) :
    c.kind.isExpression ∧ a.kind.isStatement ∧ rest = [] := by
  obtain ⟨c', a', hcs', hc, ha⟩ := loop_of_isFormed h hk
  obtain ⟨rfl, rfl, rfl⟩ : c = c' ∧ a = a' ∧ rest = [] := by simpa using hcs.symm.trans hcs'
  exact ⟨hc, ha, rfl⟩

theorem block_of_isFormed (h : t.isFormed) (hk : t.kind = .block) :
    ∀ u ∈ t.children, u.kind.isStatement := by
  have hwanted := wanted_of_isFormed h
  rw [hasWantedChildren, hk] at hwanted
  exact fun u hu => of_allWanted hwanted hu

/-- A class holds no class, and nothing in a method is a method. -/
theorem kind_of_mem_class (h : t.isFormed) (hk : t.kind = .classDecl) :
    ∀ u ∈ t.children, u.kind = .variableDecl ∨ u.kind = .methodDecl := by
  have hwanted := wanted_of_isFormed h
  rw [hasWantedChildren, hk] at hwanted
  intro u hu
  have := of_allWanted hwanted hu
  simpa using this

theorem kind_of_mem_method (h : t.isFormed) (hk : t.kind = .methodDecl) :
    ∀ u ∈ t.children, u.kind = .typeName ∨ u.kind = .parameter ∨ u.kind = .variableDecl ∨
      u.kind.isStatement := by
  have hwanted := wanted_of_isFormed h
  rw [hasWantedChildren, hk] at hwanted
  obtain ⟨htype, hstatements⟩ := Bool.and_eq_true_iff.mp hwanted
  intro u hu
  rw [← List.take_append_drop 1 t.children] at hu
  rcases List.mem_append.mp hu with hu | hu
  · have := of_allWanted (Bool.and_eq_true_iff.mp htype).1 hu
    exact Or.inl (eq_of_beq this)
  · -- either passed over, or one of the statements
    rw [← List.takeWhile_append_dropWhile (p := (·.kind == .parameter))
      (l := t.children.drop 1)] at hu
    rcases List.mem_append.mp hu with hu | hu
    · have hparameter := List.mem_takeWhile_imp hu
      exact Or.inr (Or.inl (eq_of_beq hparameter))
    · rw [← List.takeWhile_append_dropWhile (p := (·.kind == .variableDecl))
        (l := (t.children.drop 1).dropWhile _)] at hu
      rcases List.mem_append.mp hu with hu | hu
      · have hlocal := List.mem_takeWhile_imp hu
        exact Or.inr (Or.inr (Or.inl (eq_of_beq hlocal)))
      · exact Or.inr (Or.inr (Or.inr (of_allWanted hstatements hu)))

theorem kind_of_mem_program (h : t.isFormed) (hk : t.kind = .program) :
    ∀ u ∈ t.children.dropLast, u.kind = .importDecl := by
  have hwanted := wanted_of_isFormed h
  rw [hasWantedChildren, hk] at hwanted
  intro u hu
  exact eq_of_beq (of_allWanted (Bool.and_eq_true_iff.mp hwanted).1 hu)

theorem mem_children_of_eq_cons {t u : Tree} {rest : List Tree} (h : t.children = u :: rest) :
    u ∈ t.children := by
  rw [h]
  exact List.mem_cons_self ..

/-! ### Induction and recursion -/

mutual
/-- What holds of a tree if it holds of its children holds of all trees. -/
theorem induction {P : Tree → Prop} (step : ∀ t : Tree, (∀ u ∈ t.children, P u) → P t) :
    ∀ t : Tree, P t
  | .node h cs => step (.node h cs) (inductionAll step cs)

theorem inductionAll {P : Tree → Prop} (step : ∀ t : Tree, (∀ u ∈ t.children, P u) → P t) :
    ∀ ts : List Tree, ∀ u ∈ ts, P u
  | [], _, hu => nomatch hu
  | t :: rest, u, hu => by
    rcases List.mem_cons.mp hu with heq | hu
    · rw [heq]
      exact induction step t
    · exact inductionAll step rest u hu
end

mutual
/-- What comes of a node and of what came of its children. -/
def fold {β : Type} (f : Tree → List β → β) : Tree → β
  | .node h cs => f (.node h cs) (foldAll f cs)

def foldAll {β : Type} (f : Tree → List β → β) : List Tree → List β
  | [] => []
  | t :: rest => fold f t :: foldAll f rest
end

theorem fold_eq {β : Type} (f : Tree → List β → β) (t : Tree) :
    t.fold f = f t (t.children.map (fold f)) := by
  have hall : ∀ ts : List Tree, foldAll f ts = ts.map (fold f) := by
    intro ts
    induction ts with
    | nil => simp only [foldAll, List.map_nil]
    | cons t rest ih => simp only [foldAll, ih, List.map_cons]
  obtain ⟨h, cs⟩ := t
  rw [fold, hall, children]

end Tree

/-! ### Places inside places -/

namespace Place

theorem mem_withinAll {above : List Tree} {t : Tree} {ts : List Tree} (ht : t ∈ ts)
    {q : Place} (hq : q ∈ within above t) : q ∈ withinAll above ts := by
  induction ts with
  | nil => cases ht
  | cons u rest ih =>
    rw [withinAll, List.mem_append]
    rcases List.mem_cons.mp ht with rfl | ht
    · exact Or.inl hq
    · exact Or.inr (ih ht)

theorem mem_preorder_self (p : Place) : p ∈ p.preorder := by
  rw [preorder_eq]
  exact List.mem_cons_self ..

/-- Places inside a child are inside the parent. -/
theorem mem_preorder_of_child {p c q : Place} (hc : c ∈ p.children) (hq : q ∈ c.preorder) :
    q ∈ p.preorder := by
  obtain ⟨t, ht, rfl⟩ := List.mem_map.mp hc
  rw [preorder_eq, descendants]
  exact List.mem_cons_of_mem _ (mem_withinAll ht hq)

theorem tree_mem_preorder {p q : Place} (hq : q ∈ p.preorder) : q.tree ∈ p.tree.preorder := by
  rw [← map_tree_preorder]
  exact List.mem_map_of_mem hq

/-- A place that declares no method belongs to the method that its parent
belongs to. -/
theorem method?_of_child {p c : Place} (hc : c ∈ p.children) (hk : c.tree.kind ≠ .methodDecl) :
    c.method? = p.method? := by
  obtain ⟨t, -, rfl⟩ := List.mem_map.mp hc
  rw [method?, method?, around, nearest?, if_neg hk]

/-- A method belongs to itself. -/
theorem method?_of_methodDecl {p : Place} (hk : p.tree.kind = .methodDecl) :
    p.method? = p.tree.get? "name" := by
  rw [method?, around, nearest?, if_pos hk]

end Place

end JavaMinus
