/-
JavaMinus/Proofs/OpenTails.lean

Where open tails of arguments are declared.

An open tail is what the last parameter of a method may take, and nothing else is declared
with such a type (`Declarations.TailsLast`).  The checks look at the nodes that declare
something: the fields of a class, and of a method the first child, the parameters in front
of the last one and the locals.  What these nodes are read as is in the table, in the same
order, so a node is found fault with just if the table has an open tail where none may be
(`Place.isTailFree_class_iff`, `Place.isTailFree_method_iff`).

A grammatical program has one class, whose methods are all that there are
(`Tree.scope_of_mem_preorder`).  So the report tells exactly whether all open tails are
last (`open_tails_are_last`).
-/
import JavaMinus.Proofs.Reports
import JavaMinus.Proofs.Scopes

namespace JavaMinus

/-! ### Open tails in a table -/

/-- Only the last parameter may take an open tail of arguments, and these are numbers. -/
structure Signature.TailLast (s : Signature) : Prop where
  returnType : s.returnType.isVarargs = false
  locals : ∀ v ∈ s.locals, v.ty.isVarargs = false
  parameters : ∀ v ∈ s.parameters.dropLast, v.ty.isVarargs = false
  numbers : ∀ v ∈ s.parameters, v.ty.isVarargs → v.ty = .intVarargs

/-- Nothing has the type of an open tail but last parameters of methods. -/
structure Declarations.TailsLast (d : Declarations) : Prop where
  fields : ∀ v ∈ d.fields, v.ty.isVarargs = false
  methods : ∀ s ∈ d.methods, s.TailLast

/-- The parameters that take one argument each have no open tails then. -/
theorem Signature.TailLast.fixed {s : Signature} (h : s.TailLast) :
    ∀ v ∈ Parameters.fixed s.parameters, v.ty.isVarargs = false := by
  intro v hv
  rw [Parameters.fixed] at hv
  split at hv
  · exact h.parameters v hv
  · next hnone =>
    rcases hlast : s.parameters.getLast? with - | last
    · rw [List.getLast?_eq_none_iff.mp hlast] at hv
      exact absurd hv List.not_mem_nil
    · rw [Parameters.openTail?, hlast] at hnone
      obtain ⟨front, hsplit⟩ := List.getLast?_eq_some_iff.mp hlast
      have hfront := h.parameters
      rw [hsplit, List.dropLast_concat] at hfront
      rw [hsplit, List.mem_append, List.mem_singleton] at hv
      rcases hv with hv | rfl
      · exact hfront v hv
      · simpa using hnone

/-! ### The nodes that have scopes -/

/-- Nodes in which something is declared. -/
def Kind.isScope : Kind → Bool
  | .program | .classDecl | .methodDecl => true
  | _ => false

namespace Tree

variable {t u root : Tree}

/-- There are no scopes below a node that is none. -/
theorem isScope_child_eq_false (h : t.isFormed) (hk : t.kind.isScope = false)
    (hu : u ∈ t.children) : u.kind.isScope = false := by
  have hpart : u.kind = .typeName ∨ u.kind.isExpression ∨ u.kind.isStatement := by
    rcases e : t.kind <;> rw [e] at hk
    case program | classDecl | methodDecl => cases hk
    case importDecl | typeName =>
      rw [children_eq_nil_of_isFormed h (by rw [e]; decide)] at hu
      exact absurd hu List.not_mem_nil
    case variableDecl | parameter =>
      obtain ⟨type, hcs, htype⟩ := typeName_of_isFormed h (by rw [e]; decide)
      rw [hcs, List.mem_singleton] at hu
      exact .inl (hu ▸ htype)
    case assignment | elementAssignment | expressionStmt | returnStmt | conditional | loop
      | block =>
      exact .inr (isExpression_or_isStatement_of_child h (by rw [e]; rfl) hu)
    all_goals exact .inr (.inl (isExpression_of_child h (by rw [e]; rfl) hu))
  cases hkind : u.kind <;> first | rfl | (rw [hkind] at hpart; revert hpart; decide)

theorem isScope_eq_false_of_mem_preorder :
    ∀ t : Tree, t.Formed → t.kind.isScope = false → u ∈ t.preorder → u.kind.isScope = false := by
  refine Tree.induction ?_
  intro t ih hformed hk hu
  rcases mem_preorder.mp hu with rfl | ⟨c, hc, hu⟩
  · exact hk
  · exact ih c hc (hformed.child hc) (isScope_child_eq_false hformed.self hk hc) hu

/-- The scopes of a program are its own, its class and the methods of the class. -/
theorem scope_of_mem_preorder (hgrammar : root.isGrammatical) (hu : u ∈ root.preorder)
    (hk : u.kind.isScope) : u = root ∨ u ∈ root.childrenOf .classDecl ∨ u ∈ root.methodTrees := by
  have hformed := formed_of_isGrammatical hgrammar
  have hclosed {t : Tree} (ht : t.Formed) (hkind : t.kind.isScope = false) : u ∉ t.preorder := by
    intro hmem
    rw [isScope_eq_false_of_mem_preorder t ht hkind hmem] at hk
    nomatch hk
  -- downwards; what is no scope has none in it
  rcases mem_preorder.mp hu with rfl | ⟨cls, hcls, hu⟩
  · exact .inl rfl
  rcases kind_of_child_of_program hformed.self (kind_of_isGrammatical hgrammar) hcls with
    himport | hclass
  · exact absurd hu (hclosed (hformed.child hcls) (by rw [himport]; rfl))
  have hcls' := mem_childrenOf.mpr ⟨hcls, hclass⟩
  rcases mem_preorder.mp hu with rfl | ⟨m, hm, hu⟩
  · exact .inr (.inl hcls')
  have hclsFormed := hformed.child hcls
  rcases kind_of_mem_class hclsFormed.self hclass m hm with hfield | hmethod
  · exact absurd hu (hclosed (hclsFormed.child hm) (by rw [hfield]; rfl))
  rcases mem_preorder.mp hu with rfl | ⟨c, hc, hu⟩
  · exact .inr (.inr (mem_methodTrees.mpr ⟨cls, hcls', mem_childrenOf.mpr ⟨hm, hmethod⟩⟩))
  have hmFormed := hclsFormed.child hm
  refine absurd hu (hclosed (hmFormed.child hc) ?_)
  have hkind := kind_of_mem_method hmFormed.self hmethod c hc
  cases hc : c.kind <;> first | rfl | (rw [hc] at hkind; revert hkind; decide)

/-- The type that stands first in a method is the first type in it. -/
theorem returnType_of_isFormed (h : t.isFormed) (hk : t.kind = .methodDecl) :
    ∃ type rest, t.children = type :: rest ∧ type.kind = .typeName := by
  have hwanted := wanted_of_isFormed h
  rw [hasWantedChildren, hk] at hwanted
  obtain ⟨hfront, -⟩ := Bool.and_eq_true_iff.mp hwanted
  obtain ⟨htype, hsome⟩ := Bool.and_eq_true_iff.mp hfront
  rcases hcs : t.children with - | ⟨type, rest⟩
  · rw [hcs] at hsome
    cases hsome
  · refine ⟨type, rest, rfl, ?_⟩
    rw [hcs] at htype
    exact eq_of_beq (of_allWanted htype (List.mem_cons_self ..))

end Tree

/-! ### What is found at a node -/

namespace Problem

/-- Whether a rule is about open tails that are no parameters. -/
def isTailElsewhere : Problem → Bool
  | varargsVariable _ | varargsReturn _ => true
  | _ => false

/-- Whether a rule is about open tails in front of other parameters. -/
def isTailInFront : Problem → Bool
  | varargsNotLast _ => true
  | _ => false

def isOpenTail (problem : Problem) : Bool := problem.isTailElsewhere || problem.isTailInFront

theorem isPrefixOf_message_elsewhere (problem : Problem) :
    "Invalid use of varargs: ".toList.isPrefixOf problem.message.toList =
      problem.isTailElsewhere := by
  cases problem
  case duplicate scope name => exact isPrefixOf_message_duplicate_eq_false rfl scope name
  all_goals exact isPrefixOf_message_of_letters rfl rfl rfl

theorem isPrefixOf_message_inFront (problem : Problem) :
    "Varargs must be the last parameter: ".toList.isPrefixOf problem.message.toList =
      problem.isTailInFront := by
  cases problem
  case duplicate scope name => exact isPrefixOf_message_duplicate_eq_false rfl scope name
  all_goals exact isPrefixOf_message_of_letters rfl rfl rfl

/-- Open tails are declared in classes and methods. -/
theorem kind_of_isOpenTail {problem : Problem} (h : problem.isOpenTail) {k : Kind}
    (hk : problem.concerns k) : k = .classDecl ∨ k = .methodDecl := by
  cases problem with
  | varargsVariable => exact (Bool.or_eq_true_iff.mp hk).imp eq_of_beq eq_of_beq
  | varargsReturn | varargsNotLast => exact .inr (eq_of_beq hk)
  | _ => nomatch h

end Problem

namespace Place

variable {d : Declarations} {p : Place}

/-- Nothing that is found at a place is about open tails. -/
def IsTailFree (d : Declarations) (p : Place) : Prop :=
  ∀ f ∈ (p.check d).findings, f.problem.isOpenTail = false

theorem openTails_cons {v : Variable} (h : p.tree.declaredVariable = .ok v) (ps : List Place) :
    openTails (p :: ps) = if v.ty.isVarargs then (p, v) :: openTails ps else openTails ps := by
  rw [openTails, List.filterMap_cons]
  simp only [h]
  cases v.ty.isVarargs <;> rfl

/-- Declarations have no open tails if none of the variables is of such a type. -/
theorem openTails_eq_nil_iff {ps : List Place} {vs : List Variable}
    (hread : List.Forall₂ (fun p v => p.tree.declaredVariable = .ok v) ps vs) :
    openTails ps = [] ↔ ∀ v ∈ vs, v.ty.isVarargs = false := by
  induction hread with
  | nil => exact iff_of_true rfl (List.forall_mem_nil _)
  | cons hv _ ih =>
    rw [openTails_cons hv, List.forall_mem_cons, ← ih]
    split
    · next hopen => simp [hopen]
    · next hopen => simp [hopen]

/-- The declarations of a kind are read one by one. -/
theorem forall₂_childrenOf {kind : Kind} {vs : List Variable}
    (hread : (p.tree.childrenOf kind).mapM Tree.declaredVariable = .ok vs) :
    List.Forall₂ (fun q v => q.tree.declaredVariable = .ok v) (p.childrenOf kind) vs := by
  rw [childrenOf_eq, List.forall₂_map_left_iff]
  exact forall₂_of_mapM_ok hread

theorem openVariables_eq_nil_iff {kind : Kind} {vs : List Variable}
    (hread : (p.tree.childrenOf kind).mapM Tree.declaredVariable = .ok vs) :
    openVariables (p.childrenOf kind) = [] ↔ ∀ v ∈ vs, v.ty.isVarargs = false := by
  rw [openVariables, List.map_eq_nil_iff]
  exact openTails_eq_nil_iff (forall₂_childrenOf hread)

theorem openParameters_eq_nil_iff {vs : List Variable}
    (hread : (p.tree.childrenOf .parameter).mapM Tree.declaredVariable = .ok vs) :
    p.openParameters = [] ↔ ∀ v ∈ vs.dropLast, v.ty.isVarargs = false := by
  have hall := forall₂_childrenOf hread
  rw [openParameters, List.map_eq_nil_iff]
  apply openTails_eq_nil_iff
  rw [List.dropLast_eq_take, List.dropLast_eq_take, hall.length_eq]
  exact List.forall₂_take _ hall

/-- The child that is looked at is the one that the table has the type from. -/
theorem openReturn_eq_nil_iff (hformed : p.tree.isFormed) (hk : p.tree.kind = .methodDecl) {ty : Ty}
    (hread : p.tree.declaredReturnType = .ok ty) : p.openReturn = [] ↔ ty.isVarargs = false := by
  obtain ⟨type, rest, hcs, htype⟩ := Tree.returnType_of_isFormed hformed hk
  have hchild : p.child? 0 = some ⟨type, p.around⟩ := by
    rw [child?, children, hcs]
    rfl
  have hfirst : p.tree.firstChildOf? .typeName = some type := by
    rw [Tree.firstChildOf?, hcs]
    exact List.find?_cons_of_pos (beq_iff_eq.mpr htype)
  have hdenoted : type.denotedType = .ok ty := by
    rw [Tree.declaredReturnType, hfirst] at hread
    exact hread
  rw [openReturn, hchild]
  simp only [htype, hdenoted]
  cases ty.isVarargs <;> simp

section Sorts

variable {f : Finding}

/-- What is found by another rule is not about open tails. -/
theorem not_isOpenTail_of_isAbout (h : p.IsAbout (!·.isOpenTail) f) :
    f.problem.isOpenTail = false := by
  obtain ⟨q, -, problem, hproblem, rfl⟩ := h
  exact (Bool.not_eq_true' _).mp hproblem

/-- Names may be given twice without any open tail. -/
theorem not_isOpenTail_of_duplicates (scope : DeclarationScope) (kind : Kind) :
    ∀ f ∈ duplicates scope "name" (p.childrenOf kind), f.problem.isOpenTail = false :=
  fun _ hf => not_isOpenTail_of_isAbout (isAbout_of_duplicates (fun _ => rfl) hf)

/-- All findings of a rule are about open tails, so there must be none. -/
theorem forall_not_isOpenTail_iff {fs : List Finding} (h : ∀ f ∈ fs, p.IsAbout (·.isOpenTail) f) :
    (∀ f ∈ fs, f.problem.isOpenTail = false) ↔ fs = [] := by
  constructor
  · intro hnone
    apply List.eq_nil_iff_forall_not_mem.mpr
    intro f hf
    obtain ⟨q, -, problem, hproblem, rfl⟩ := h f hf
    nomatch (hnone _ hf).symm.trans hproblem
  · rintro rfl
    exact List.forall_mem_nil _

end Sorts

/-- A class has open tails among its fields, or it is not found fault with for any. -/
theorem isTailFree_class_iff (hk : p.tree.kind = .classDecl) {fields : List Variable}
    (hread : (p.tree.childrenOf .variableDecl).mapM Tree.declaredVariable = .ok fields) :
    p.IsTailFree d ↔ ∀ v ∈ fields, v.ty.isVarargs = false := by
  have hcheck : (p.check d).findings = p.checkClass := by
    rw [check_eq]
    simp only [hk]
    rfl
  rw [IsTailFree, hcheck, checkClass, List.forall_mem_append, List.forall_mem_append,
    and_iff_right ⟨not_isOpenTail_of_duplicates _ _, not_isOpenTail_of_duplicates _ _⟩,
    forall_not_isOpenTail_iff fun f => isAbout_of_openVariables fun _ => rfl]
  exact openVariables_eq_nil_iff hread

/-- A method has its only open tail last, or else it is found fault with for one. -/
theorem isTailFree_method_iff (hformed : p.tree.isFormed) (hk : p.tree.kind = .methodDecl)
    {s : Signature} (hread : p.tree.signature = .ok s) : p.IsTailFree d ↔ s.TailLast := by
  obtain ⟨-, hreturn, hparameters, hlocals, -⟩ := Tree.signature_ok hread
  have hcheck : (p.check d).findings = p.checkMethod := by
    rw [check_eq]
    simp only [hk]
    rfl
  -- neither duplicates nor unlike parameters are about open tails
  have hunlike : ∀ f ∈ p.unlikeParameters, f.problem.isOpenTail = false := fun f hf =>
    not_isOpenTail_of_isAbout (isAbout_of_unlikeParameters (fun _ _ => rfl) hf)
  rw [IsTailFree, hcheck, checkMethod]
  simp only [List.forall_mem_append, iff_true_intro (not_isOpenTail_of_duplicates _ _),
    iff_true_intro hunlike, true_and, and_true]
  rw [forall_not_isOpenTail_iff fun f => isAbout_of_openReturn fun _ => rfl,
    forall_not_isOpenTail_iff fun f => isAbout_of_openParameters fun _ => rfl,
    forall_not_isOpenTail_iff fun f => isAbout_of_openVariables fun _ => rfl,
    openReturn_eq_nil_iff hformed hk hreturn, openParameters_eq_nil_iff hparameters,
    openVariables_eq_nil_iff hlocals]
  constructor
  · rintro ⟨⟨hreturnType, hfront⟩, hnolocals⟩
    refine ⟨hreturnType, hnolocals, hfront, fun v hv hopen => ?_⟩
    obtain ⟨t, -, ht⟩ := exists_of_forall₂ (forall₂_of_mapM_ok hparameters).flip hv
    exact Tree.eq_intVarargs_of_declaredVariable ht hopen
  · intro h
    exact ⟨⟨h.returnType, h.parameters⟩, h.locals⟩

end Place

/-! ### What is reported -/

namespace Declarations

variable {d : Declarations} {root : Tree} {ds : Diagnostics}

/-- There is no message of one beginning just if nothing of that sort is found. -/
theorem startingWith_eq_nil_iff {place : Place} (h : d.analyze place = .ok ds) {start : String}
    {sort : Problem → Bool}
    (hsort : ∀ problem : Problem, start.toList.isPrefixOf problem.message.toList = sort problem) :
    ds.startingWith start = [] ↔
      ∀ p ∈ place.preorder, ∀ f ∈ (p.check d).findings, sort f.problem = false := by
  have hreported : ds.startingWith start = (place.preorder.filter fun _ => true).flatMap fun p =>
      ((p.check d).findings.filter (sort ·.problem)).map (·.diagnostic) :=
    startingWith_of_analyze h hsort fun _ => rfl
  rw [hreported, List.filter_true, List.flatMap_eq_nil_iff]
  refine forall₂_congr fun p _ => ?_
  rw [List.map_eq_nil_iff, List.filter_eq_nil_iff]
  exact forall₂_congr fun f _ => Bool.eq_false_iff.symm

/-- No place of a program is found fault with for an open tail just if all are last. -/
theorem forall_isTailFree_iff (hgrammar : root.isGrammatical) (hroot : ofTree root = .ok d) :
    (∀ p ∈ (Place.top root).preorder, p.IsTailFree d) ↔ d.TailsLast := by
  obtain ⟨cls, hcls, hclasses⟩ := exists_class hgrammar hroot
  obtain ⟨hkind, hfields, -⟩ := read_of_ofTree hroot hcls
  have hmethods := forall₂_signatures hgrammar hroot
  have hformed := Tree.formed_of_isGrammatical hgrammar
  constructor
  · intro hfree
    refine ⟨?_, fun s hs => ?_⟩
    · exact (Place.isTailFree_class_iff hkind hfields).mp (hfree _ (mem_preorder_of_class hcls))
    · obtain ⟨m, hm, hsignature⟩ := exists_of_forall₂ hmethods.flip hs
      obtain ⟨q, hq, rfl⟩ := Place.exists_of_mem_preorder (p := .top root)
        (Tree.mem_preorder_of_methodTrees hm m.mem_preorder_self)
      obtain ⟨_, -, hmember⟩ := Tree.mem_methodTrees.mp hm
      exact (Place.isTailFree_method_iff (hformed.methodTree hm).self
        (Tree.mem_childrenOf.mp hmember).2 hsignature).mp (hfree q hq)
  · intro hlast p hp f hf
    by_contra hopen
    rw [Bool.not_eq_false] at hopen
    obtain ⟨q, -, problem, hconcerns, rfl⟩ := Place.finds_check d p f hf
    -- only scopes are found fault with, and they are all in the table
    have hscope := Problem.kind_of_isOpenTail hopen hconcerns
    have hisScope : p.tree.kind.isScope := by rcases hscope with hk | hk <;> rw [hk] <;> rfl
    have hfree : p.IsTailFree d := by
      rcases Tree.scope_of_mem_preorder hgrammar (Place.tree_mem_preorder hp) hisScope with
        hprogram | hclass | hmethod
      · rw [hprogram, Tree.kind_of_isGrammatical hgrammar] at hscope
        rcases hscope with hk | hk <;> nomatch hk
      · rw [hclasses, List.mem_singleton] at hclass
        exact (Place.isTailFree_class_iff (hclass ▸ hkind) (hclass ▸ hfields)).mpr hlast.fields
      · obtain ⟨s, hs, hsignature⟩ := exists_of_forall₂ hmethods hmethod
        obtain ⟨_, -, hmember⟩ := Tree.mem_methodTrees.mp hmethod
        exact (Place.isTailFree_method_iff (hformed.methodTree hmethod).self
          (Tree.mem_childrenOf.mp hmember).2 hsignature).mpr (hlast.methods s hs)
    nomatch (hfree _ hf).symm.trans hopen

/-- Where all open tails are last, each argument before the tail is one parameter's. -/
theorem TailsLast.fixed (h : d.TailsLast) (method : String) :
    ∀ v ∈ Parameters.fixed (d.parameters method), v.ty.isVarargs = false := by
  rw [parameters]
  rcases e : d.method? method with - | s
  · exact List.forall_mem_nil _
  · exact (h.methods s (List.mem_of_find?_eq_some e)).fixed

/-- **Open tails are last.**  In the report of a grammatical program there is no message
about open tails just if no field, local or return type in the table is one, no parameter in
front of another one, and the last parameter only if it is one of numbers.  So this is what
the table of a program without findings is like, and for a call of any name the parameters
that take one argument each are none of them open. -/
theorem open_tails_are_last (hgrammar : root.isGrammatical) (hroot : ofTree root = .ok d)
    (h : d.analyze (.top root) = .ok ds) :
    (ds.startingWith "Invalid use of varargs: " = [] ∧
        ds.startingWith "Varargs must be the last parameter: " = [] ↔ d.TailsLast) ∧
      (ds = .empty → d.TailsLast ∧
        ∀ method, ∀ v ∈ Parameters.fixed (d.parameters method), v.ty.isVarargs = false) := by
  have hexact : ds.startingWith "Invalid use of varargs: " = [] ∧
      ds.startingWith "Varargs must be the last parameter: " = [] ↔ d.TailsLast := by
    rw [startingWith_eq_nil_iff h Problem.isPrefixOf_message_elsewhere,
      startingWith_eq_nil_iff h Problem.isPrefixOf_message_inFront,
      ← forall_isTailFree_iff hgrammar hroot]
    simp only [Place.IsTailFree, Problem.isOpenTail, Bool.or_eq_false_iff, ← forall_and]
  refine ⟨hexact, ?_⟩
  rintro rfl
  have hlast := hexact.mp ⟨rfl, rfl⟩
  exact ⟨hlast, hlast.fixed⟩

/-! ### An open tail in its place

    class Gather {
      int first(int n, int... more) { return n; }
      int one() { return this.first(1, 2, 3); }
    }
-/

def gather : Tree :=
  let int := (Form.typeName "int" false false).tree
  let number (n : Int) := (Form.integer n).tree
  let first := (Form.methodDecl "first" int false
    [(Form.parameter "n" int).tree,
      (Form.parameter "more" (Form.typeName "int" false true).tree).tree,
      (Form.returnStmt (some (Form.identifier "n").tree)).tree]).tree
  let one := (Form.methodDecl "one" int false
    [(Form.returnStmt (some (Form.call "first" Form.self.tree
      [number 1, number 2, number 3]).tree)).tree]).tree
  (Form.program [(Form.classDecl "Gather" none [first, one]).tree]).tree

def gatherDeclarations : Declarations :=
  ⟨"Gather", none, [], [],
    [⟨"first", .int, [⟨"n", .int⟩, ⟨"more", .intVarargs⟩], [], false⟩,
      ⟨"one", .int, [], [], false⟩]⟩

theorem open_tails_are_last_gather :
    gather.isGrammatical ∧ ofTree gather = .ok gatherDeclarations ∧
    gatherDeclarations.analyze (.top gather) = .ok .empty ∧
    (∃ v ∈ gatherDeclarations.parameters "first", v.ty.isVarargs) ∧
    gatherDeclarations.TailsLast := by
  have hgrammar : gather.isGrammatical := by decide
  have hroot : ofTree gather = .ok gatherDeclarations := rfl
  have hclean : gatherDeclarations.analyze (.top gather) = .ok .empty := rfl
  obtain ⟨hlast, -⟩ := (open_tails_are_last hgrammar hroot hclean).2 rfl
  exact ⟨hgrammar, hroot, hclean, ⟨⟨"more", .intVarargs⟩, by decide, rfl⟩, hlast⟩

end Declarations

end JavaMinus
