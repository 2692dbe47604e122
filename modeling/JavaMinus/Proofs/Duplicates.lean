/-
JavaMinus/Proofs/Duplicates.lean

Names declared twice in one scope.

The declarations of a scope are looked through once, and the keys met on the way are
kept.  At each declaration these are the keys of the declarations before it
(`Place.repeats_eq`), so a declaration is found fault with just if its key stands at
an earlier one, however often it stands there (`Place.redeclared`).  The declarations
that are passed over are one for each key, which counts the others
(`Place.length_repeats`).

There are five scopes, and a node has up to two of them.  Messages of one scope come
from the nodes that have such a scope and from nothing else that is checked there
(`duplicates_are_exact`).
-/
import JavaMinus.Proofs.Reports
import Mathlib.Data.Finset.Card

namespace JavaMinus

/-! ### Scopes -/

namespace DeclarationScope

/-- The kind of the nodes that have such a scope. -/
def owner : DeclarationScope → Kind
  | imports => .program
  | fields | methods => .classDecl
  | parameters | locals => .methodDecl

/-- The kind of the declarations in it. -/
def entry : DeclarationScope → Kind
  | imports => .importDecl
  | fields | locals => .variableDecl
  | methods => .methodDecl
  | parameters => .parameter

/-- The attribute in which they differ. -/
def key : DeclarationScope → String
  | imports => "value"
  | fields | methods | parameters | locals => "name"

end DeclarationScope

namespace Place

/-- The keys of some declarations.  One that lacks the attribute adds none. -/
def keys (key : String) (ps : List Place) : List String := ps.filterMap (·.tree.get? key)

/-- Whether the key of a declaration stands at one of the given ones. -/
def repeatsKey (key : String) (p : Place) (before : List Place) : Bool :=
  (p.tree.get? key).any (keys key before).contains

/-- What is declared in a scope of a node, from left to right. -/
def declared (p : Place) (scope : DeclarationScope) : List Place := p.childrenOf scope.entry

/-- The keys of what is declared in a scope of a node. -/
def declaredKeys (p : Place) (scope : DeclarationScope) : List String :=
  keys scope.key (p.declared scope)

/-- The declarations in a scope of a node whose key stands at an earlier one. -/
def redeclared (p : Place) (scope : DeclarationScope) : List Place :=
  ((p.declared scope).zipIdx.filter fun x =>
    repeatsKey scope.key x.1 ((p.declared scope).take x.2)).map (·.1)

/-- The message about a repeated declaration, at its node. -/
def duplicateError (scope : DeclarationScope) (q : Place) : Diagnostic :=
  let key := (q.tree.get? scope.key).getD ""
  .error q.tree.position s!"Duplicated {scope.member}: {key}"

/-! ### Keys that were seen before -/

theorem keys_concat (key : String) (ps : List Place) (p : Place) :
    keys key (ps ++ [p]) = keys key ps ++ (p.tree.get? key).toList := by
  rw [keys, List.filterMap_append]
  cases e : p.tree.get? key <;> simp only [List.filterMap_cons, e] <;> rfl

/-- If the keys that were seen are those of the declarations before, the repeated
entries are those whose key stands at an earlier one. -/
theorem repeats_eq {key : String} {seen : List String} (before ps : List Place)
    (hseen : ∀ name, name ∈ seen ↔ name ∈ keys key before) :
    repeats key seen ps =
      ((ps.zipIdx before.length).filter fun x =>
        repeatsKey key x.1 ((before ++ ps).take x.2)).map
          fun x => (x.1, (x.1.tree.get? key).getD "") := by
  induction ps generalizing seen before with
  | nil => rfl
  | cons p rest ih =>
    have hcontains : ∀ name, seen.contains name = (keys key before).contains name := by
      intro name
      rw [Bool.eq_iff_iff, List.contains_iff_mem, List.contains_iff_mem, hseen]
    -- the declaration itself is before all that are behind it
    have hbehind : ∀ {seen'}, (∀ name, name ∈ seen' ↔ name ∈ keys key (before ++ [p])) →
        repeats key seen' rest =
          ((rest.zipIdx (before.length + 1)).filter fun x =>
            repeatsKey key x.1 ((before ++ p :: rest).take x.2)).map
              fun x => (x.1, (x.1.tree.get? key).getD "") := by
      intro seen' h
      rw [ih _ h, List.length_append, List.append_assoc]
      rfl
    rw [repeats, List.zipIdx_cons, List.filter_cons, List.take_left' rfl, repeatsKey]
    rcases e : p.tree.get? key with - | name
    · refine hbehind fun name => ?_
      rw [keys_concat, e, hseen, Option.toList_none, List.append_nil]
    · rw [Option.any_some, ← hcontains]
      dsimp only
      split
      · next hmem =>
        rw [List.map_cons, e]
        refine congrArg _ (hbehind fun other => ?_)
        have hmem : name ∈ seen := List.contains_iff_mem.mp hmem
        rw [keys_concat, e, List.mem_append, ← hseen, Option.toList_some, List.mem_singleton]
        exact ⟨Or.inl, fun h => h.elim id fun h => h ▸ hmem⟩
      · refine hbehind fun other => ?_
        rw [keys_concat, e, List.mem_append, ← hseen, Option.toList_some, List.mem_singleton,
          List.mem_cons, or_comm]

/-- Of some declarations all are repeated but one for each key that was not seen
before. -/
theorem length_repeats (key : String) (seen : List String) (ps : List Place) :
    (repeats key seen ps).length + ((keys key ps).toFinset \ seen.toFinset).card =
      (keys key ps).length := by
  -- on the declarations; a key is counted by the set or by the list, never by both
  induction ps generalizing seen with
  | nil =>
    show 0 + (∅ \ seen.toFinset).card = 0
    rw [Finset.empty_sdiff, Finset.card_empty]
  | cons p rest ih =>
    rw [repeats, keys, List.filterMap_cons]
    rcases e : p.tree.get? key with - | name
    · exact ih seen
    · dsimp only
      rw [List.toFinset_cons, List.length_cons]
      split
      · next hmem =>
        have hmem : name ∈ seen.toFinset := by simpa using hmem
        rw [Finset.insert_sdiff_of_mem _ hmem, List.length_cons, Nat.add_right_comm]
        exact congrArg (· + 1) (ih seen)
      · next hnew =>
        have hnew : name ∉ seen.toFinset := by simpa using hnew
        rw [Finset.insert_sdiff_of_notMem _ hnew,
          ← Finset.card_erase_add_one (Finset.mem_insert_self ..), Finset.erase_insert_eq_erase,
          ← Finset.sdiff_insert, ← List.toFinset_cons, ← Nat.add_assoc]
        exact congrArg (· + 1) (ih (name :: seen))

variable (p : Place) (scope : DeclarationScope)

/-- The findings in a scope of a node are one for each repeated declaration. -/
theorem map_diagnostic_duplicates :
    (duplicates scope scope.key (p.declared scope)).map (·.diagnostic) =
      (p.redeclared scope).map (duplicateError scope) := by
  have h : repeats scope.key [] (p.declared scope) = _ :=
    repeats_eq [] (p.declared scope) fun name => Iff.rfl
  rw [duplicates, h, redeclared, List.map_map, List.map_map, List.map_map]
  rfl

/-- With one declaration for each key, the repeated ones are all that have a key. -/
theorem length_redeclared :
    (p.redeclared scope).length + (p.declaredKeys scope).toFinset.card =
      (p.declaredKeys scope).length := by
  have h := congrArg List.length (map_diagnostic_duplicates p scope)
  rw [duplicates, List.length_map, List.length_map, List.length_map] at h
  rw [← h, declaredKeys, ← length_repeats scope.key [], List.toFinset_nil, Finset.sdiff_empty]

/-- Nothing is repeated just if the keys differ from each other. -/
theorem redeclared_eq_nil_iff :
    p.redeclared scope = [] ↔ (p.declaredKeys scope).Nodup := by
  have h := length_redeclared p scope
  have hdistinct : (p.declaredKeys scope).toFinset.card = (p.declaredKeys scope).length ↔
      (p.declaredKeys scope).Nodup := Multiset.toFinset_card_eq_card_iff_nodup
  rw [← List.length_eq_zero_iff, ← hdistinct]
  omega

end Place

/-! ### What is found at a node -/

namespace Problem

/-- Whether a rule is the one against names declared twice in a scope. -/
def isDuplicate (scope : DeclarationScope) : Problem → Bool
  | duplicate other _ => other == scope
  | _ => false

variable {problem : Problem} {scope : DeclarationScope}

/-- Names are declared twice at nodes that have the scope. -/
theorem concerns_of_isDuplicate (h : problem.isDuplicate scope) {k : Kind}
    (hk : problem.concerns k) : k = scope.owner := by
  cases problem with
  | duplicate other name =>
    obtain rfl : other = scope := eq_of_beq h
    cases other <;> exact eq_of_beq hk
  | _ => cases h

/-- Only messages about names declared twice in a scope begin as these do. -/
theorem isPrefixOf_message_duplicate (scope : DeclarationScope) (problem : Problem) :
    ("Duplicated " ++ scope.member ++ ": ").toList.isPrefixOf problem.message.toList =
      problem.isDuplicate scope := by
  apply isPrefixOf_message_of_opening <;> cases scope <;>
    rcases problem with - | - | (_ | _ | _ | _ | _)
  all_goals
    delta opening isDuplicate
    dsimp only
    decide

end Problem

namespace Place

variable (d : Declarations) (p : Place) (scope : DeclarationScope)

theorem filter_duplicates (other : DeclarationScope) (key : String) (ps : List Place) :
    (duplicates other key ps).filter (·.problem.isDuplicate scope) =
      if other == scope then duplicates other key ps else [] := by
  rw [duplicates, List.filter_map]
  show ((repeats key [] ps).filter fun _ => other == scope).map _ = _
  cases other == scope
  · rw [List.filter_false]
    rfl
  · rw [List.filter_true]
    rfl

variable {p scope}

/-- The check of a node that has a scope finds the declarations that are repeated
there, and the check of another node finds none. -/
theorem filter_isDuplicate_check :
    (p.check d).findings.filter (·.problem.isDuplicate scope) =
      if p.tree.kind == scope.owner then duplicates scope scope.key (p.declared scope) else [] := by
  by_cases hk : p.tree.kind = scope.owner
  -- the lists that are written between the duplicates hold none
  · have hothers : ∀ fs : List Finding, (∀ f ∈ fs, p.IsAbout (!·.isDuplicate scope) f) →
        fs.filter (·.problem.isDuplicate scope) = [] := fun fs h =>
      filter_eq_nil_of_isAbout h fun problem => by simp
    have hvariables := fun kind => hothers (openVariables (p.childrenOf kind)) fun f =>
      isAbout_of_openVariables fun _ => rfl
    have hreturn := hothers p.openReturn fun f => isAbout_of_openReturn fun _ => rfl
    have hparameters := hothers p.openParameters fun f => isAbout_of_openParameters fun _ => rfl
    have hunlike := hothers p.unlikeParameters fun f => isAbout_of_unlikeParameters fun _ _ => rfl
    rw [hk, beq_self_eq_true, if_pos rfl, check_eq]
    cases scope <;> simp only [hk, DeclarationScope.owner, Review.findings_found, checkProgram,
      checkClass, checkMethod, List.filter_append, filter_duplicates, hvariables, hreturn,
      hparameters, hunlike, beq_iff_eq, reduceCtorEq, reduceIte, List.append_nil, List.nil_append]
    all_goals rfl
  · rw [if_neg (by simpa using hk)]
    refine filter_eq_nil_of_isAbout (finds_check d p) fun problem hconcerns hduplicate => ?_
    exact hk (Problem.concerns_of_isDuplicate hduplicate hconcerns)

end Place

/-! ### What is reported -/

namespace Declarations

variable {d : Declarations} {root : Place} {ds : Diagnostics}

/-- In the report of a program the messages about names declared twice in a scope are,
node after node and from left to right, one for each declaration whose key stands at
an earlier one in the scope.  So a node has as many as it has declarations with a key
beyond one for each key, and there are none just if no scope has a key twice. -/
theorem duplicates_are_exact (h : d.analyze root = .ok ds) (scope : DeclarationScope) :
    let owners := root.preorder.filter (·.tree.kind == scope.owner)
    let reported := ds.startingWith ("Duplicated " ++ scope.member ++ ": ")
    reported = owners.flatMap (fun p => (p.redeclared scope).map (Place.duplicateError scope)) ∧
      (∀ p ∈ owners, (p.redeclared scope).length + (p.declaredKeys scope).toFinset.card =
        (p.declaredKeys scope).length) ∧
      (∀ p ∈ owners, p.redeclared scope = [] ↔ (p.declaredKeys scope).Nodup) ∧
      (reported = [] ↔ ∀ p ∈ owners, (p.declaredKeys scope).Nodup) := by
  have hreported : ds.startingWith ("Duplicated " ++ scope.member ++ ": ") =
      (root.preorder.filter (·.tree.kind == scope.owner)).flatMap fun p =>
        (p.redeclared scope).map (Place.duplicateError scope) := by
    refine startingWith_of_analyze h (Problem.isPrefixOf_message_duplicate scope) fun p => ?_
    rw [Place.filter_isDuplicate_check]
    split
    · exact p.map_diagnostic_duplicates scope
    · rfl
  refine ⟨hreported, fun p _ => p.length_redeclared scope,
    fun p _ => p.redeclared_eq_nil_iff scope, ?_⟩
  rw [hreported, List.flatMap_eq_nil_iff]
  refine forall₂_congr fun p _ => ?_
  rw [List.map_eq_nil_iff, p.redeclared_eq_nil_iff]

/-! ### A program with repetitions in every scope

It begins with three times `import io;`.

    class Twice {
      int size;
      boolean size;
      int get(int n, boolean n) {
        int m;
        int n;
        int m;
        return m;
      }
      int get() {
        return 1;
      }
    }
-/

def twice : Tree :=
  let int := (Form.typeName "int" false false).tree
  let boolean := (Form.typeName "boolean" false false).tree
  (Form.program [(Form.importDecl "io").tree, (Form.importDecl "io").tree,
    (Form.importDecl "io").tree,
    (Form.classDecl "Twice" none
      [(Form.variableDecl "size" int).tree, (Form.variableDecl "size" boolean).tree,
        (Form.methodDecl "get" int false
          [(Form.parameter "n" int).tree, (Form.parameter "n" boolean).tree,
            (Form.variableDecl "m" int).tree, (Form.variableDecl "n" int).tree,
            (Form.variableDecl "m" int).tree,
            (Form.returnStmt (some (Form.identifier "m").tree)).tree]).tree,
        (Form.methodDecl "get" int false
          [(Form.returnStmt (some (Form.integer 1).tree)).tree]).tree]).tree]).tree

def twiceDeclarations : Declarations :=
  ⟨"Twice", none, ["io", "io", "io"], [⟨"size", .int⟩, ⟨"size", .boolean⟩],
    [⟨"get", .int, [⟨"n", .int⟩, ⟨"n", .boolean⟩], [⟨"m", .int⟩, ⟨"n", .int⟩, ⟨"m", .int⟩], false⟩,
      ⟨"get", .int, [], [], false⟩]⟩

theorem duplicates_are_exact_twice :
    ∃ ds, twiceDeclarations.analyze (.top twice) = .ok ds ∧ ds.size = 6 ∧
      ((Place.top twice).redeclared .imports).length = 2 ∧
      ∀ scope : DeclarationScope, ds.startingWith ("Duplicated " ++ scope.member ++ ": ") =
        ((Place.top twice).preorder.filter (·.tree.kind == scope.owner)).flatMap fun p =>
          (p.redeclared scope).map (Place.duplicateError scope) := by
  obtain ⟨ds, h, hsize⟩ :
      ∃ ds, twiceDeclarations.analyze (.top twice) = .ok ds ∧ ds.size = 6 := ⟨_, rfl, rfl⟩
  exact ⟨ds, h, hsize, rfl, fun scope => (duplicates_are_exact h scope).1⟩

end Declarations

end JavaMinus
