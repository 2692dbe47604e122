/-
JavaMinus/Proofs/Requirements.lean

What a program must have to be read.

The declarations of a program are read by many small steps, each of which wants
something of a node: an attribute, or a type expression below it.  What is wanted can
be listed beforehand, in the order in which it is asked for (`programNeeds`).  Reading
stops at the first requirement of the list that is not met and says which one it is,
and if all are met it comes to a table (`Reads`).

The table keeps every declaration in its place, and a name stands for the first method
that bears it, just as if methods were put into a map one after another and none
pushed out another one (`get?_signatures`).
-/
import JavaMinus.Proofs.Computation
import JavaMinus.Proofs.Declarations

namespace JavaMinus

/-! ### Requirements -/

/-- Something that a node must have, and whether it has it. -/
structure Requirement where
  node : Tree
  key : String
  isMet : Bool

def Requirement.fault (r : Requirement) : MalformedTree :=
  .missingAttribute r.node.kind.text r.key r.node.position

/-- What reading says of the first requirement that is not met. -/
def firstUnmet? (needs : List Requirement) : Option MalformedTree :=
  (needs.find? (!·.isMet)).map (·.fault)

theorem exists_of_firstUnmet? {needs : List Requirement} {e : MalformedTree}
    (h : firstUnmet? needs = some e) :
    ∃ kind key position, e = .missingAttribute kind key position := by
  obtain ⟨r, -, rfl⟩ := Option.map_eq_some_iff.mp h
  exact ⟨_, _, _, rfl⟩

theorem firstUnmet?_cons_of_met {r : Requirement} (needs : List Requirement) (h : r.isMet) :
    firstUnmet? (r :: needs) = firstUnmet? needs := by
  rw [firstUnmet?, List.find?_cons_of_neg (by rw [h]; decide), firstUnmet?]

theorem firstUnmet?_cons_of_unmet {r : Requirement} (needs : List Requirement)
    (h : r.isMet = false) : firstUnmet? (r :: needs) = some r.fault := by
  rw [firstUnmet?, List.find?_cons_of_pos (by rw [h]; rfl), Option.map_some]

theorem firstUnmet?_append (needs more : List Requirement) :
    firstUnmet? (needs ++ more) = (firstUnmet? needs).or (firstUnmet? more) := by
  rw [firstUnmet?, List.find?_append, Option.map_or]
  rfl

theorem firstUnmet?_eq_none_iff {needs : List Requirement} :
    firstUnmet? needs = none ↔ ∀ r ∈ needs, r.isMet := by
  simp [firstUnmet?]

namespace Tree

/-- The attribute that a node must have. -/
def needs (t : Tree) (key : String) : Requirement := ⟨t, key, t.has key⟩

/-- The type expression below a node, if there is one, names a type. -/
def typeNeeds (t : Tree) : List Requirement :=
  (t.firstChildOf? .typeName).toList.map (·.needs "value")

/-- A field, parameter or local has a type expression, and then a name. -/
def variableNeeds (t : Tree) : List Requirement :=
  ⟨t, "type", (t.firstChildOf? .typeName).isSome⟩ :: (t.typeNeeds ++ [t.needs "name"])

def methodNeeds (t : Tree) : List Requirement :=
  [t.needs "name"] ++ (t.typeNeeds ++ ((t.childrenOf .parameter).flatMap variableNeeds ++
    (t.childrenOf .variableDecl).flatMap variableNeeds))

/-- All that is wanted of a program with the given class: first of the imports, then of
the fields and the methods, and last the name of the class. -/
def programNeeds (root cls : Tree) : List Requirement :=
  (root.childrenOf .importDecl).flatMap (fun t => [t.needs "value"]) ++
    ((cls.childrenOf .variableDecl).flatMap variableNeeds ++
      ((cls.childrenOf .methodDecl).flatMap methodNeeds ++ [cls.needs "name"]))

/-! ### What declarations say -/

/-- A type expression denotes a type. -/
def Denotes (t : Tree) (ty : Ty) : Prop :=
  ∃ name, t.get? "value" = some name ∧
    ty = Ty.denoted name (t.flag "isArray") (t.flag "isVarargs")

/-- A field, parameter or local declares a variable. -/
structure DeclaresVariable (t : Tree) (v : Variable) : Prop where
  name : t.get? "name" = some v.name
  type : ∃ type, t.firstChildOf? .typeName = some type ∧ type.Denotes v.ty

/-- A method declares a signature.  Without a type expression it returns nothing. -/
structure DeclaresMethod (t : Tree) (s : Signature) : Prop where
  name : t.get? "name" = some s.name
  returned : ∀ type, t.firstChildOf? .typeName = some type → type.Denotes s.returnType
  untyped : t.firstChildOf? .typeName = none → s.returnType = .void
  parameters : List.Forall₂ DeclaresVariable (t.childrenOf .parameter) s.parameters
  locals : List.Forall₂ DeclaresVariable (t.childrenOf .variableDecl) s.locals
  isStatic : s.isStatic = t.flag "isStatic"

end Tree

/-! ### Reading what is required -/

/-- A reading stops at the first requirement that is not met, and otherwise comes to
something of which `P` holds. -/
inductive Reads {α : Type} (x : Except MalformedTree α) (needs : List Requirement)
    (P : α → Prop) : Prop
  | stops {e : MalformedTree} (unmet : firstUnmet? needs = some e) (result : x = .error e)
  | reads {a : α} (met : firstUnmet? needs = none) (result : x = .ok a) (holds : P a)

namespace Reads

variable {α β : Type} {x : Except MalformedTree α} {needs more : List Requirement}
  {P : α → Prop} {Q : β → Prop}

protected theorem pure {a : α} (h : P a) : Reads (pure a) [] P := .reads rfl rfl h

theorem of_met {r : Requirement} (h : r.isMet) (hx : Reads x needs P) :
    Reads x (r :: needs) P := by
  have hsame := firstUnmet?_cons_of_met needs h
  cases hx with
  | stops unmet result => exact .stops (hsame.trans unmet) result
  | reads met result holds => exact .reads (hsame.trans met) result holds

theorem of_unmet {r : Requirement} (h : r.isMet = false) (hx : x = .error r.fault) :
    Reads x (r :: needs) P :=
  .stops (firstUnmet?_cons_of_unmet needs h) hx

protected theorem bind {f : α → Except MalformedTree β} (hx : Reads x needs P)
    (hf : ∀ a, P a → Reads (f a) more Q) : Reads (x >>= f) (needs ++ more) Q := by
  cases hx with
  | stops unmet result =>
    refine .stops ?_ (by rw [result]; rfl)
    rw [firstUnmet?_append, unmet, Option.some_or]
  | @reads a met result holds =>
    have hsame : firstUnmet? (needs ++ more) = firstUnmet? more := by
      rw [firstUnmet?_append, met, Option.none_or]
    have hresult : (x >>= f) = f a := by rw [result]; rfl
    cases hf a holds with
    | stops unmet result => exact .stops (hsame.trans unmet) (hresult.trans result)
    | reads met result holds => exact .reads (hsame.trans met) (hresult.trans result) holds

protected theorem imp {P' : α → Prop} (hx : Reads x needs P) (h : ∀ a, P a → P' a) :
    Reads x needs P' := by
  cases hx with
  | stops unmet result => exact .stops unmet result
  | reads met result holds => exact .reads met result (h _ holds)

/-- A reading whose last step wants nothing more. -/
protected theorem map {f : α → β} (hx : Reads x needs P) (hf : ∀ a, P a → Q (f a)) :
    Reads (x >>= fun a => pure (f a)) needs Q := by
  rw [← List.append_nil needs]
  exact hx.bind fun a ha => .pure (hf a ha)

/-- Nodes are read one after another. -/
protected theorem mapM {f : Tree → Except MalformedTree β} {needs : Tree → List Requirement}
    {R : Tree → β → Prop} {ts : List Tree} (h : ∀ t ∈ ts, Reads (f t) (needs t) (R t)) :
    Reads (ts.mapM f) (ts.flatMap needs) (List.Forall₂ R ts) := by
  induction ts with
  | nil => exact .pure .nil
  | cons t rest ih =>
    obtain ⟨ht, hrest⟩ := List.forall_mem_cons.mp h
    rw [List.mapM_cons, List.flatMap_cons]
    exact ht.bind fun b hb => (ih hrest).map fun bs hbs => .cons hb hbs

theorem eq_error_iff (hx : Reads x needs P) {e : MalformedTree} :
    x = .error e ↔ firstUnmet? needs = some e := by
  cases hx with
  | stops unmet result => rw [unmet, result, Except.error.injEq, Option.some.injEq]
  | reads met result _ =>
    rw [met, result]
    exact iff_of_false nofun nofun

theorem exists_ok_iff (hx : Reads x needs P) : (∃ a, x = .ok a) ↔ ∀ r ∈ needs, r.isMet := by
  rw [← firstUnmet?_eq_none_iff]
  cases hx with
  | stops unmet result =>
    rw [unmet, result]
    exact iff_of_false nofun nofun
  | reads met result _ => exact iff_of_true ⟨_, result⟩ met

theorem of_ok (hx : Reads x needs P) {a : α} (h : x = .ok a) : P a := by
  cases hx with
  | stops _ result => nomatch h.symm.trans result
  | reads _ result holds => exact Except.ok.inj (result.symm.trans h) ▸ holds

end Reads

/-! ### What each step of reading requires -/

namespace Tree

variable (t : Tree)

theorem reads_require (key : String) :
    Reads (t.require key) [t.needs key] fun value => t.get? key = some value := by
  rw [require]
  rcases e : t.get? key with - | value
  · refine .of_unmet ?_ rfl
    show (t.get? key).isSome = false
    rw [e, Option.isSome_none]
  · refine .of_met ?_ (.pure rfl)
    show (t.get? key).isSome = true
    rw [e, Option.isSome_some]

theorem reads_denotedType : Reads t.denotedType [t.needs "value"] t.Denotes :=
  (t.reads_require "value").map fun name hname => ⟨name, hname, rfl⟩

theorem reads_declaredVariable : Reads t.declaredVariable t.variableNeeds t.DeclaresVariable := by
  rw [declaredVariable, variableNeeds, typeNeeds]
  rcases e : t.firstChildOf? .typeName with - | type
  · exact .of_unmet rfl rfl
  · refine .of_met rfl (type.reads_denotedType.bind fun ty hty => ?_)
    exact (t.reads_require "name").map fun name hname => ⟨hname, type, e, hty⟩

theorem reads_declaredReturnType :
    Reads t.declaredReturnType t.typeNeeds fun ty =>
      (∀ type, t.firstChildOf? .typeName = some type → type.Denotes ty) ∧
        (t.firstChildOf? .typeName = none → ty = .void) := by
  rw [declaredReturnType, typeNeeds]
  rcases e : t.firstChildOf? .typeName with - | type
  · exact .pure ⟨nofun, fun _ => rfl⟩
  · refine type.reads_denotedType.imp fun ty hty => ⟨?_, nofun⟩
    rintro u hu
    rwa [← Option.some.inj hu]

theorem reads_signature : Reads t.signature t.methodNeeds t.DeclaresMethod := by
  refine (t.reads_require "name").bind fun name hname => ?_
  refine t.reads_declaredReturnType.bind fun ty hty => ?_
  refine (Reads.mapM fun u _ => u.reads_declaredVariable).bind fun parameters hparameters => ?_
  refine (Reads.mapM fun u _ => u.reads_declaredVariable).map fun locals hlocals => ?_
  exact ⟨hname, hty.1, hty.2, hparameters, hlocals, rfl⟩

end Tree

/-! ### The table -/

namespace Declarations

/-- A table lists what the children of a program and of its class declare, each in its
place. -/
structure Tabulates (root cls : Tree) (d : Declarations) : Prop where
  imports : List.Forall₂ (fun t path => t.get? "value" = some path)
    (root.childrenOf .importDecl) d.imports
  fields : List.Forall₂ Tree.DeclaresVariable (cls.childrenOf .variableDecl) d.fields
  methods : List.Forall₂ Tree.DeclaresMethod (cls.childrenOf .methodDecl) d.methods
  className : cls.get? "name" = some d.className
  superName : cls.get? "superName" = d.superName

theorem ofTree_of_isEmpty {root : Tree} (h : root.children.getLast? = none) :
    ofTree root = .error .emptyProgram := by
  rw [ofTree, h]

theorem ofTree_of_noClass {root cls : Tree} (hcls : root.children.getLast? = some cls)
    (hkind : cls.kind ≠ .classDecl) : ofTree root = .error (.missingClass cls.kind.text) := by
  rw [ofTree, hcls]
  exact if_pos hkind

theorem reads_ofTree {root cls : Tree} (hcls : root.children.getLast? = some cls)
    (hkind : cls.kind = .classDecl) :
    Reads (ofTree root) (root.programNeeds cls) (Tabulates root cls) := by
  rw [ofTree, hcls]
  simp only [hkind, ne_eq, not_true, if_false]
  refine (Reads.mapM fun t _ => t.reads_require "value").bind fun imports himports => ?_
  refine (Reads.mapM fun t _ => t.reads_declaredVariable).bind fun fields hfields => ?_
  refine (Reads.mapM fun t _ => t.reads_signature).bind fun methods hmethods => ?_
  exact (cls.reads_require "name").map fun name hname =>
    ⟨himports, hfields, hmethods, hname, rfl⟩

/-! ### What a name stands for -/

variable (d : Declarations)

/-- The signatures put into a map one after another, where none pushes out another one
that is already there. -/
def signatures : Listing Signature :=
  d.methods.foldl (fun l s => if l.has s.name then l else l.insert s.name s) .empty

theorem get?_foldl (l : Listing Signature) (methods : List Signature) (name : String) :
    (methods.foldl (fun l s => if l.has s.name then l else l.insert s.name s) l).get? name =
      (l.get? name).or (methods.find? (·.name == name)) := by
  induction methods generalizing l with
  | nil => rw [List.foldl_nil, List.find?_nil, Option.or_none]
  | cons s rest ih =>
    rw [List.foldl_cons, ih, List.find?_cons]
    by_cases hname : s.name = name
    · -- the method is found unless an earlier one is
      subst hname
      rw [beq_self_eq_true]
      rcases e : l.get? s.name with - | earlier
      · rw [if_neg (by rw [Listing.has, e]; decide), Listing.get?_insert, if_pos rfl]
        rfl
      · rw [if_pos (by rw [Listing.has, e]; rfl), e, Option.some_or, Option.some_or]
    · rw [beq_false_of_ne hname]
      split
      · rfl
      · rw [Listing.get?_insert, if_neg (Ne.symm hname)]

theorem get?_signatures (name : String) : d.signatures.get? name = d.method? name := by
  rw [signatures, get?_foldl]
  rfl

variable {d}

theorem hasMethod_iff {name : String} : d.hasMethod name ↔ name ∈ d.methods.map (·.name) := by
  rw [hasMethod, method?, List.find?_isSome, List.mem_map]
  simp only [beq_iff_eq]

/-- A name stands for the first of the methods that bear it. -/
theorem find?_of_declaresMethod {before after : List Tree} {t : Tree} {methods : List Signature}
    {name : String} (hmethods : List.Forall₂ Tree.DeclaresMethod (before ++ t :: after) methods)
    (hname : t.get? "name" = some name) (hfirst : ∀ u ∈ before, u.get? "name" ≠ some name) :
    ∃ s, methods.find? (·.name == name) = some s ∧ t.DeclaresMethod s := by
  induction before generalizing methods with
  | nil =>
    obtain ⟨s, rest, hs, -, rfl⟩ := List.forall₂_cons_left_iff.mp hmethods
    refine ⟨s, List.find?_cons_of_pos ?_, hs⟩
    exact beq_iff_eq.mpr (Option.some.inj (hs.name.symm.trans hname))
  | cons u before ih =>
    obtain ⟨s, rest, hs, hrest, rfl⟩ := List.forall₂_cons_left_iff.mp hmethods
    obtain ⟨hu, hbefore⟩ := List.forall_mem_cons.mp hfirst
    rw [List.find?_cons_of_neg]
    · exact ih hrest hbefore
    · rw [beq_iff_eq]
      exact fun heq => hu (heq ▸ hs.name)

/-- **Declarations.**  A program without parts is empty, and one whose last part is no
class has none.  Of any other program the first requirement that is not met is
reported; and if there is none, its table lists the imports, the fields and the methods
in their order, repetitions included, and finds under each name the first method that
bears it. -/
theorem declarations_are_characterised (root : Tree) :
    (ofTree root = .error .emptyProgram ↔ root.children = []) ∧
    (∀ found, ofTree root = .error (.missingClass found) ↔
      ∃ cls, root.children.getLast? = some cls ∧ cls.kind ≠ .classDecl ∧ found = cls.kind.text) ∧
    (∀ kind key position, ofTree root = .error (.missingAttribute kind key position) ↔
      ∃ cls, root.children.getLast? = some cls ∧ cls.kind = .classDecl ∧
        firstUnmet? (root.programNeeds cls) = some (.missingAttribute kind key position)) ∧
    ((∃ d, ofTree root = .ok d) ↔
      ∃ cls, root.children.getLast? = some cls ∧ cls.kind = .classDecl ∧
        ∀ r ∈ root.programNeeds cls, r.isMet) ∧
    ∀ d, ofTree root = .ok d → ∃ cls, root.children.getLast? = some cls ∧ Tabulates root cls d ∧
      (∀ name, d.hasMethod name ↔ name ∈ d.methods.map (·.name)) ∧
      (∀ name, d.method? name = d.signatures.get? name) ∧
      ∀ before t after name, cls.childrenOf .methodDecl = before ++ t :: after →
        t.get? "name" = some name → (∀ u ∈ before, u.get? "name" ≠ some name) →
        ∃ s, d.method? name = some s ∧ t.DeclaresMethod s := by
  rcases hcls : root.children.getLast? with - | cls
  · have hempty := ofTree_of_isEmpty hcls
    rw [hempty]
    simp only [List.getLast?_eq_none_iff.mp hcls, Except.error.injEq, reduceCtorEq, false_and,
      exists_false, implies_true, true_and, false_implies]
  have hparts : root.children ≠ [] := by
    intro h
    rw [h] at hcls
    nomatch hcls
  simp only [Option.some.injEq, exists_eq_left']
  by_cases hkind : cls.kind = .classDecl
  · have hreads := reads_ofTree hcls hkind
    -- of a class nothing but missing attributes is reported
    refine ⟨iff_of_false (fun h => ?_) hparts, fun found => iff_of_false (fun h => ?_) ?_,
      fun kind key position => ?_, ?_, fun d hd => ⟨hreads.of_ok hd, fun name => hasMethod_iff,
      fun name => (d.get?_signatures name).symm, fun before t after name hsplit hname hfirst => ?_⟩⟩
    · obtain ⟨kind, key, position, he⟩ := exists_of_firstUnmet? (hreads.eq_error_iff.mp h)
      nomatch he
    · obtain ⟨kind, key, position, he⟩ := exists_of_firstUnmet? (hreads.eq_error_iff.mp h)
      nomatch he
    · exact fun h => h.1 hkind
    · rw [hreads.eq_error_iff, and_iff_right hkind]
    · rw [hreads.exists_ok_iff, and_iff_right hkind]
    · have hmethods := (hreads.of_ok hd).methods
      rw [hsplit] at hmethods
      exact find?_of_declaresMethod hmethods hname hfirst
  · have hnone := ofTree_of_noClass hcls hkind
    rw [hnone]
    simp only [hparts, hkind, Except.error.injEq, MalformedTree.missingClass.injEq, reduceCtorEq,
      ne_eq, not_false_eq_true, true_and, false_and, implies_true, exists_false, false_implies,
      eq_comm, and_true]

/-- Of a parameter without a type and a class without a name the parameter is asked for
first. -/
example :
    let parameter : Tree := .node ⟨2, .parameter, .ofList [("name", "x")], ⟨3, 9⟩⟩ []
    let method : Tree := .node ⟨1, .methodDecl, .ofList [("name", "run")], ⟨3, 5⟩⟩ [parameter]
    let cls : Tree := .node ⟨3, .classDecl, .empty, ⟨2, 1⟩⟩ [method]
    ofTree (.node ⟨4, .program, .empty, ⟨1, 1⟩⟩ [cls]) =
      .error (.missingAttribute "Param" "type" ⟨3, 9⟩) := rfl

end Declarations

end JavaMinus
