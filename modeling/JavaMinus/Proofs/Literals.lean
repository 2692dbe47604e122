/-
JavaMinus/Proofs/Literals.lean

What the elements of an array literal agree in.

A literal is checked twice: its elements are compared with each other by their whole
types, and the first of known type is compared with the array that takes the literal
by its name alone.  So the elements of a literal without findings have one type, and
the name in this type is that of the array's elements; but its shape is nowhere asked
for.  A literal of arrays passes for one of their elements
(`literal_is_clean_iff`).
-/
import JavaMinus.Proofs.Computation
import JavaMinus.Proofs.Grammar
import JavaMinus.Proofs.Checks

namespace JavaMinus

namespace Place

variable {d : Declarations} {p statement : Place} {target : Binding}

/-! ### The two comparisons -/

/-- Elements are found to differ unless they have one type. -/
theorem unlikeElements_eq_nil_iff {known : List Ty} :
    p.unlikeElements known = [] ↔ ∀ first, known.head? = some first → ∀ ty ∈ known, ty = first := by
  cases known with
  | nil => exact iff_of_true rfl nofun
  | cons first rest =>
    rw [unlikeElements, List.map_eq_nil_iff, List.filter_eq_nil_iff]
    simp only [List.head?_cons, Option.some.injEq, forall_eq', List.forall_mem_cons, true_and,
      bne_iff_ne, not_not]

/-- What is assigned to an array is compared with it by the name of the first known
type. -/
theorem literalAssigned_eq_nil_iff (hparent : p.parent? = some statement)
    (hkind : statement.tree.kind = .assignment) (htarget : statement.target? d = some target)
    (harray : target.ty.isArray) {first : Option Ty} :
    p.literalAssigned d first = [] ↔ ∀ ty, first = some ty → ty.name = target.ty.name := by
  rw [literalAssigned, hparent]
  simp only [hkind, beq_self_eq_true, if_true, htarget, Option.toList_eq_nil_iff,
    Option.map_eq_none_iff]
  rw [literalProblem?.eq_def, harray, Bool.not_true, if_neg Bool.false_ne_true]
  cases first with
  | none => exact iff_of_true rfl fun ty h => by cases h
  | some ty => simp

/-! ### Literals that are assigned -/

theorem checkArrayLiteral_eq_pure_iff :
    p.checkArrayLiteral d = pure () ↔ ∃ types, p.children.mapM (·.type d) = .ok types ∧
      p.unlikeElements (types.filterMap id) = [] ∧
      p.literalAssigned d (types.filterMap id).head? = [] := by
  rw [checkArrayLiteral_eq]
  generalize p.children.mapM (·.type d) = result
  rcases result with fault | types
  · exact iff_of_false (fun h => nomatch congrArg Review.outcome h) nofun
  · have hfound : Review.ofExcept (.ok types) = pure types := rfl
    rw [hfound, pure_bind, Review.found_bind_found_eq_pure_iff]
    simp only [Except.ok.injEq, exists_eq_left']

/-- The elements of known type all have the given type. -/
def HasElements (d : Declarations) (p : Place) (ty : Ty) : Prop :=
  ∀ e ∈ p.children, ∀ t, e.type d = .ok (some t) → t = ty

section Assigned

variable (hparent : p.parent? = some statement) (hkind : statement.tree.kind = .assignment)
  (htarget : statement.target? d = some target) (harray : target.ty.isArray)
include hparent hkind htarget harray

/-- A literal is clean just if the known types of its elements are one, which has the
name of the array. -/
theorem checkArrayLiteral_eq_pure_iff_hasElements :
    p.checkArrayLiteral d = pure () ↔ (∀ e ∈ p.children, ∃ found, e.type d = .ok found) ∧
      ∃ ty : Ty, ty.name = target.ty.name ∧ p.HasElements d ty := by
  rw [checkArrayLiteral_eq_pure_iff, ← exists_mapM_ok_iff]
  constructor
  · rintro ⟨types, htypes, hunlike, hassigned⟩
    refine ⟨⟨types, htypes⟩, ?_⟩
    rw [unlikeElements_eq_nil_iff] at hunlike
    rw [literalAssigned_eq_nil_iff hparent hkind htarget harray] at hassigned
    have hknown : ∀ e ∈ p.children, ∀ t, e.type d = .ok (some t) → t ∈ types.filterMap id := by
      intro e he t ht
      exact List.mem_filterMap.mpr ⟨some t, (mem_iff_of_mapM_ok htypes).mpr ⟨e, he, ht⟩, rfl⟩
    rcases efirst : (types.filterMap id).head? with - | first
    · -- no type is known, so any of the name will do
      rw [List.head?_eq_none_iff] at efirst
      refine ⟨target.ty, rfl, fun e he t ht => ?_⟩
      have hmem := hknown e he t ht
      rw [efirst] at hmem
      nomatch hmem
    · refine ⟨first, hassigned first efirst, fun e he t ht => ?_⟩
      exact hunlike first efirst t (hknown e he t ht)
  · rintro ⟨⟨types, htypes⟩, ty, hname, helements⟩
    -- all that is known is one type, so the first of them is, too
    have hall : ∀ t ∈ types.filterMap id, t = ty := by
      intro t ht
      obtain ⟨found, hfound, rfl⟩ := List.mem_filterMap.mp ht
      obtain ⟨e, he, htype⟩ := (mem_iff_of_mapM_ok htypes).mp hfound
      exact helements e he t htype
    refine ⟨types, htypes, ?_, ?_⟩
    · rw [unlikeElements_eq_nil_iff]
      intro first hfirst t ht
      rw [hall t ht, hall first (List.mem_of_head? hfirst)]
    · rw [literalAssigned_eq_nil_iff hparent hkind htarget harray]
      intro t ht
      rw [hall t (List.mem_of_head? ht), hname]

end Assigned

/-- A literal that is assigned to an array is clean just if all its elements have
types, and those that are known are one, which has the name of the element type.  This
type is the element type itself unless it is that of an array. -/
theorem literal_is_clean_iff {element : Ty} (hparent : p.parent? = some statement)
    (hkind : statement.tree.kind = .assignment) (htarget : statement.target? d = some target)
    (harray : target.ty.element? = some element) :
    (p.checkArrayLiteral d = pure () ↔ (∀ e ∈ p.children, ∃ found, e.type d = .ok found) ∧
      ∃ ty : Ty, ty.name = element.name ∧ p.HasElements d ty) ∧
    (p.checkArrayLiteral d = pure () → (p.HasElements d element ↔
      ∀ e ∈ p.children, ∀ t, e.type d = .ok (some t) → t.isArray = false)) := by
  obtain ⟨hisArray, rfl⟩ : target.ty.isArray ∧ Ty.scalar target.ty.name = element := by
    cases e : target.ty <;> rw [e] at harray <;> cases harray <;> exact ⟨rfl, rfl⟩
  have hclean := checkArrayLiteral_eq_pure_iff_hasElements hparent hkind htarget hisArray
  refine ⟨hclean, fun h => ?_⟩
  obtain ⟨-, ty, hname, helements⟩ := hclean.mp h
  constructor
  · intro hscalar e he t ht
    rw [hscalar e he t ht]
    rfl
  · intro hscalar e he t ht
    rw [Ty.isArray_eq_false_iff.mp (hscalar e he t ht), helements e he t ht, hname]

/-! ### An array in place of an element

    class Rows extends Base {
      int fill() { int[] row; int[] rows; rows = [row]; return 0; }
    }
-/

def filling (literal : Tree) : Tree := (Form.assignment "rows" literal).tree

def fill (literal : Tree) : Tree :=
  let array := (Form.typeName "int" true false).tree
  (Form.methodDecl "fill" (Form.typeName "int" false false).tree false
    [(Form.variableDecl "row" array).tree, (Form.variableDecl "rows" array).tree,
      filling literal, (Form.returnStmt (some (Form.integer 0).tree)).tree]).tree

def rowsClass (literal : Tree) : Tree := (Form.classDecl "Rows" (some "Base") [fill literal]).tree

/-- The program with a literal for the array of rows. -/
def rows (literal : Tree) : Tree := (Form.program [rowsClass literal]).tree

def rowsDeclarations : Declarations :=
  ⟨"Rows", some "Base", [], [],
    [⟨"fill", .int, [], [⟨"row", .intArray⟩, ⟨"rows", .intArray⟩], false⟩]⟩

def fillingPlace (literal : Tree) : Place :=
  ⟨filling literal, [fill literal, rowsClass literal, rows literal]⟩

def literalPlace (literal : Tree) : Place := ⟨literal, (fillingPlace literal).around⟩

/-- Elements of known and of assumed type, `[this.first(), 2]`. -/
def numbers : Tree :=
  (Form.arrayLiteral [(Form.call "first" (Form.tree .self) []).tree, (Form.integer 2).tree]).tree

theorem literal_is_clean_numbers :
    (literalPlace numbers).parent? = some (fillingPlace numbers) ∧
    (fillingPlace numbers).tree.kind = .assignment ∧
    (fillingPlace numbers).target? rowsDeclarations = some ⟨.local, .intArray⟩ ∧
    Ty.intArray.element? = some .int ∧
    ((literalPlace numbers).checkArrayLiteral rowsDeclarations = pure () ↔
      (∀ e ∈ (literalPlace numbers).children, ∃ found, e.type rowsDeclarations = .ok found) ∧
      ∃ ty : Ty, ty.name = "int" ∧ (literalPlace numbers).HasElements rowsDeclarations ty) ∧
    (literalPlace numbers).HasElements rowsDeclarations .int := by
  have htarget : (fillingPlace numbers).target? rowsDeclarations = some ⟨.local, .intArray⟩ := rfl
  obtain ⟨hclean, hscalar⟩ :=
    literal_is_clean_iff (p := literalPlace numbers) rfl rfl htarget rfl
  refine ⟨rfl, rfl, htarget, rfl, hclean, (hscalar rfl).mpr ?_⟩
  intro e he t ht
  rcases List.mem_cons.mp he with rfl | he
  · nomatch ht
  · rw [List.mem_singleton.mp he] at ht
    cases ht
    rfl

/-- An array of rows takes a row, about which nothing is found. -/
theorem row_passes_for_element :
    ¬ ∀ (tree : Tree) (d : Declarations) (p statement : Place) (target : Binding) (element : Ty),
      tree.isGrammatical → Declarations.ofTree tree = .ok d → d.analyze (.top tree) = .ok .empty →
      p ∈ (Place.top tree).preorder → p.tree.kind = .arrayLiteral →
      p.parent? = some statement → statement.tree.kind = .assignment →
      statement.target? d = some target → target.ty.element? = some element →
      p.checkArrayLiteral d = pure () → p.HasElements d element := by
  intro h
  let row : Tree := (Form.identifier "row").tree
  let literal : Tree := (Form.arrayLiteral [row]).tree
  have hgrammar : (rows literal).isGrammatical := by decide
  have hplace : literalPlace literal ∈ (Place.top (rows literal)).preorder :=
    List.mem_of_getElem? (i := 9) rfl
  have helements := h (rows literal) rowsDeclarations _ _ ⟨.local, .intArray⟩ .int hgrammar rfl rfl
    hplace rfl rfl rfl rfl rfl rfl
  have hrow := helements ⟨row, (literalPlace literal).around⟩ (List.mem_singleton_self _)
    .intArray rfl
  nomatch hrow

end Place

end JavaMinus
