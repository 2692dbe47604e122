/-
JavaMinus/Proofs/ThreeAddress/Literals.lean

What an array literal is taken for an array of.

Three rules ask for the elements of a literal, and each picks an element to tell.  The
check picks the first element of known type, passing over those about which nothing is
known.  Typing and lowering pick the first element and take it for a number if nothing
is known of it, so they always agree with each other.  With the check they agree just
if the first element is of known type itself, or the first known type has the name that
numbers have (`literal_views_agree_iff`).

A literal of truth values behind a call of unknown type passes the check for what it
is, and is made as an array of numbers (`marking_views_differ`).
-/
import JavaMinus.Proofs.Literals
import JavaMinus.Proofs.ThreeAddress.Signatures

namespace JavaMinus

/-! ### The literal as it is checked -/

namespace Place

variable {d : Declarations} {p e : Place}

/-- The type of the first element of known type. -/
def firstKnown? (d : Declarations) (p : Place) : Option Ty :=
  p.children.findSome? fun e => d.known? e.method? e.tree

/-- A literal that is assigned to an array is compared with it as an array of elements
of the given name: this is the only thing that can be found, and it is found unless
the array has elements of this name. -/
def ComparedAs (d : Declarations) (p : Place) (name : String) : Prop :=
  ∀ statement target, p.parent? = some statement → statement.tree.kind = .assignment →
    statement.target? d = some target → target.ty.isArray →
    (p.checkArrayLiteral d).findings =
      if name = target.ty.name then []
      else [p.finding (.incompatible (.array name) target.ty)]

theorem mapM_of_completes (h : (p.checkArrayLiteral d).Completes) :
    ∃ types, p.children.mapM (·.type d) = .ok types := by
  rw [checkArrayLiteral_eq] at h
  exact h.left

/-- The first known type among those of the elements. -/
theorem head?_eq_firstKnown? {types : List (Option Ty)}
    (h : p.children.mapM (·.type d) = .ok types) :
    (types.filterMap id).head? = p.firstKnown? d := by
  rw [← filterMap_toOption_of_mapM h, List.filterMap_filterMap, List.head?_filterMap]
  refine congrArg (p.children.findSome? ·) (funext fun e => ?_)
  show (e.type d).toOption.bind id = (e.type d).toOption.join
  cases (e.type d).toOption <;> rfl

theorem findings_checkArrayLiteral {types : List (Option Ty)}
    (h : p.children.mapM (·.type d) = .ok types) :
    (p.checkArrayLiteral d).findings =
      p.unlikeElements (types.filterMap id) ++ p.literalAssigned d (p.firstKnown? d) := by
  rw [checkArrayLiteral_eq, h, ← head?_eq_firstKnown? h]
  rfl

/-- Elements that differ are found as such, so a literal without such findings has no
elements that differ. -/
theorem unlikeElements_eq_nil {known : List Ty}
    (h : ∀ f ∈ p.unlikeElements known, ∀ s t, f.problem ≠ .different s t) :
    p.unlikeElements known = [] := by
  cases known with
  | nil => rfl
  | cons first rest =>
    rw [unlikeElements, List.map_eq_nil_iff, List.eq_nil_iff_forall_not_mem]
    intro ty hty
    exact h _ (List.mem_map_of_mem hty) first ty rfl

theorem comparedAs_firstKnown? {first : Ty} (hcheck : (p.checkArrayLiteral d).Completes)
    (hsame : ∀ f ∈ (p.checkArrayLiteral d).findings, ∀ s t, f.problem ≠ .different s t)
    (hfirst : p.firstKnown? d = some first) : p.ComparedAs d first.name := by
  intro statement target hparent hkind htarget harray
  obtain ⟨types, htypes⟩ := mapM_of_completes hcheck
  have hfindings := findings_checkArrayLiteral htypes
  rw [hfindings] at hsame
  rw [hfindings, unlikeElements_eq_nil fun f hf => hsame f (List.mem_append_left _ hf),
    List.nil_append, hfirst, literalAssigned, hparent]
  simp only [hkind, beq_self_eq_true, if_true, htarget]
  rw [literalProblem?.eq_def, harray, Bool.not_true, if_neg Bool.false_ne_true]
  by_cases hname : first.name = target.ty.name <;> simp [hname]

/-- What has a type is no method, so it belongs to the method around it. -/
theorem method?_of_type {ty : Option Ty} (he : e ∈ p.children) (h : e.type d = .ok ty) :
    e.method? = p.method? := by
  refine method?_of_child he fun hk => ?_
  obtain ⟨⟨head, cs⟩, above⟩ := e
  have hkind : head.kind = .methodDecl := hk
  rw [type, Declarations.typeOf.eq_def] at h
  simp only [hkind] at h
  cases h

end Place

namespace ThreeAddress

/-! ### The literal as it is lowered -/

/-- The name of the elements of the array that a value makes first of all and then
stands for. -/
def Value.elementName? (v : Value) : Option String :=
  match v.operand, v.code with
  | .cell x (.array element), .assign y tag (.newArray _ made) :: _ =>
    if x = y ∧ tag = .array element ∧ made = .array element then some element.sourceName
    else none
  | _, _ => none

variable {d : Declarations} {p : Place} {scope : Option String} {t : Tree} {ts : List Tree}
  {wanted : Option Ty} {c c' : Counters} {v : Value}

theorem elementName?_of_yieldsArray {element : Ty}
    (h : YieldsArray d scope element ts c v c') : v.elementName? = some element.name := by
  obtain ⟨-⟩ := h
  exact (if_pos ⟨rfl, rfl, rfl⟩).trans (congrArg some (sourceName_ofName element.name))

/-- A literal is made as an array of what its first element is, or of numbers. -/
theorem elementName?_of_arrayLiteral {first : Tree} {rest : List Tree} {ty : Option Ty}
    (hk : t.kind = .arrayLiteral) (hcs : t.children = first :: rest)
    (hty : d.typeOf scope first = .ok ty) (h : Yields d scope t wanted c v c') :
    v.elementName? = some (ty.getD .int).name := by
  cases h.expands with
  | emptyLiteral _ hnone =>
    rw [hcs] at hnone
    cases hnone
  | @arrayLiteral _ _ element _ _ _ hcs' helement hyields =>
    rw [hcs] at hcs'
    obtain ⟨rfl, rfl⟩ := List.cons.inj hcs'
    rw [hty] at helement
    obtain rfl := Except.ok.inj helement
    exact elementName?_of_yieldsArray hyields
  | _ => simp_all

/-! ### The three together -/

/-- Of an array literal whose elements are not found to differ, the name of the elements
in the comparison with the target is that of the first known type; that in the type of
the literal and that of the array made for it are one.  All three are one just if the
first element is of known type, or the first known type has the name of the numbers. -/
theorem literal_views_agree_iff {first : Ty} (hk : p.tree.kind = .arrayLiteral)
    (hcheck : (p.checkArrayLiteral d).Completes)
    (hsame : ∀ f ∈ (p.checkArrayLiteral d).findings, ∀ s t, f.problem ≠ .different s t)
    (hfirst : p.firstKnown? d = some first) :
    p.ComparedAs d first.name ∧
    ∃ name, p.type d = .ok (some (.array name)) ∧
      (∀ wanted c v c', (lower d p.method? p.tree wanted).run c = .ok (v, c') →
        v.elementName? = some name) ∧
      (p.tree.Regular → ∀ wanted c, ∃ v c',
        (lower d p.method? p.tree wanted).run c = .ok (v, c')) ∧
      (name = first.name ↔
        (∃ e, p.child? 0 = some e ∧ e.type d = .ok (some first)) ∨ first.name = "int") := by
  refine ⟨Place.comparedAs_firstKnown? hcheck hsame hfirst, ?_⟩
  obtain ⟨types, htypes⟩ := Place.mapM_of_completes hcheck
  rcases hcs : p.tree.children with - | ⟨u, rest⟩
  · rw [Place.firstKnown?, Place.children, hcs] at hfirst
    cases hfirst
  · let e : Place := ⟨u, p.around⟩
    have hchildren : p.children = e :: rest.map (⟨·, p.around⟩) := by
      rw [Place.children, hcs, List.map_cons]
    have he : e ∈ p.children := by
      rw [hchildren]
      exact List.mem_cons_self ..
    obtain ⟨ty, hty⟩ := exists_mapM_ok_iff.mp ⟨types, htypes⟩ e he
    have htypeOf : d.typeOf p.method? u = .ok ty := by
      rw [← Place.method?_of_type he hty]
      exact hty
    have hchild : p.child? 0 = some e := by rw [Place.child?, hchildren]; rfl
    refine ⟨(ty.getD .int).name, d.typeOf_arrayLiteral hk hcs htypeOf, ?_, ?_, ?_⟩
    · intro wanted c v c' h
      exact elementName?_of_arrayLiteral hk hcs htypeOf h
    · intro hregular wanted
      exact (lowerable d p.method? p.tree hregular (by rw [hk]; rfl)).finishes wanted
    · rw [hchild]
      rw [Place.firstKnown?, hchildren, List.findSome?_cons, d.known?_eq hty] at hfirst
      rcases ty with - | found
      · -- nothing is known of the first element
        simp only [Option.getD_none, Option.some.injEq, exists_eq_left', hty, Except.ok.injEq,
          reduceCtorEq, false_or]
        exact eq_comm
      · obtain rfl := Option.some.inj hfirst
        exact iff_of_true rfl (Or.inl ⟨e, rfl, hty⟩)

/-! ### Marks behind a call of unknown type

    class Marks extends Base {
      boolean[] fill() { boolean[] marks; marks = [this.first(), true]; return marks; }
    }
-/

def markingStatement (literal : Tree) : Tree := (Form.assignment "marks" literal).tree

def markingMethod (literal : Tree) : Tree :=
  let array := (Form.typeName "boolean" true false).tree
  (Form.methodDecl "fill" array false
    [(Form.variableDecl "marks" array).tree, markingStatement literal,
      (Form.returnStmt (some (Form.identifier "marks").tree)).tree]).tree

def markingClass (literal : Tree) : Tree :=
  (Form.classDecl "Marks" (some "Base") [markingMethod literal]).tree

/-- The program with a literal for its marks. -/
def marking (literal : Tree) : Tree := (Form.program [markingClass literal]).tree

def markingDeclarations : Declarations :=
  ⟨"Marks", some "Base", [], [],
    [⟨"fill", .array "boolean", [], [⟨"marks", .array "boolean"⟩], false⟩]⟩

def markingPlace (literal : Tree) : Place :=
  ⟨literal,
    [markingStatement literal, markingMethod literal, markingClass literal, marking literal]⟩

/-- A mark of unknown type, which the class inherits. -/
def inheritedMark : Tree := (Form.call "first" (Form.tree .self) []).tree

def knownMark : Tree := (Form.boolean true).tree

/-- The marks in the one order and in the other. -/
def marksKnownLast : Tree := (Form.arrayLiteral [inheritedMark, knownMark]).tree

def marksKnownFirst : Tree := (Form.arrayLiteral [knownMark, inheritedMark]).tree

theorem literal_views_agree_marking :
    let p := markingPlace marksKnownFirst
    p.tree.kind = .arrayLiteral ∧ (p.checkArrayLiteral markingDeclarations).Completes ∧
    (∀ f ∈ (p.checkArrayLiteral markingDeclarations).findings, ∀ s t,
      f.problem ≠ .different s t) ∧
    p.firstKnown? markingDeclarations = some .boolean ∧
    p.ComparedAs markingDeclarations "boolean" ∧
    p.type markingDeclarations = .ok (some (.array "boolean")) ∧
    ∃ v c', (lower markingDeclarations p.method? p.tree none).run ⟨0, 0⟩ = .ok (v, c') ∧
      v.elementName? = some "boolean" := by
  intro p
  have hcheck : (p.checkArrayLiteral markingDeclarations).Completes := ⟨(), rfl⟩
  have hsame : ∀ f ∈ (p.checkArrayLiteral markingDeclarations).findings, ∀ s t,
      f.problem ≠ .different s t := nofun
  have hformed : ∀ u ∈ marksKnownFirst.preorder, u.isFormed := by decide
  have hregular : p.tree.Regular := ⟨hformed, by decide⟩
  have hfirst : p.firstKnown? markingDeclarations = some .boolean := rfl
  obtain ⟨hcompared, name, htype, hlower, hfinishes, hname⟩ :=
    literal_views_agree_iff rfl hcheck hsame hfirst
  obtain rfl : name = "boolean" := hname.mpr (Or.inl ⟨_, rfl, rfl⟩)
  obtain ⟨v, c', hrun⟩ := hfinishes hregular none ⟨0, 0⟩
  exact ⟨rfl, hcheck, hsame, hfirst, hcompared, htype, v, c', hrun, hlower _ _ _ _ hrun⟩

/-- A literal of a program that passes the checks is compared as one of truth values,
and typed as one of numbers. -/
theorem marking_views_differ :
    ¬ ∀ (root : Tree) (d : Declarations) (p : Place) (first : Ty), root.isGrammatical →
      Declarations.ofTree root = .ok d → d.analyze (.top root) = .ok .empty →
      p ∈ (Place.top root).preorder → p.tree.kind = .arrayLiteral →
      p.firstKnown? d = some first →
      (∀ f ∈ (p.checkArrayLiteral d).findings, ∀ s t, f.problem ≠ .different s t) →
      ∃ name, p.ComparedAs d name ∧ first.name = name ∧
        p.type d = .ok (some (.array name)) ∧
        ∃ v c', (lower d p.method? p.tree none).run ⟨0, 0⟩ = .ok (v, c') ∧
          v.elementName? = some name := by
  intro h
  have hgrammar : (marking marksKnownLast).isGrammatical := by decide
  have hplace : markingPlace marksKnownLast ∈ (Place.top (marking marksKnownLast)).preorder :=
    List.mem_of_getElem? (i := 7) rfl
  obtain ⟨name, -, rfl, htype, -⟩ := h _ markingDeclarations _ .boolean hgrammar rfl rfl hplace
    rfl rfl nofun
  nomatch htype

end ThreeAddress

end JavaMinus
