/-
JavaMinus/Proofs/Scopes.lean

Scopes in which every declaration is found.

What a program declares is a table, which is asked by name and answers with the
first entry of that name.  A later declaration of the same name is in the table
and is never the answer.  A program without findings has no such declarations: in
none of its scopes a name stands twice.  So the table answers for each method with
what this very method declares, and the name of each field, parameter and local
finds that variable in its scope (`table_describes_declarations`).
-/
import JavaMinus.Proofs.Bodies
import JavaMinus.Proofs.Declarations
import JavaMinus.Proofs.Checks

namespace JavaMinus

/-! ### Names that are declared once -/

namespace Place

/-- Names that are not repeated differ from each other, and from those that were
seen before. -/
theorem nodup_of_repeats_eq_nil {key : String} {seen : List String} {ps : List Place}
    (h : repeats key seen ps = []) :
    (ps.filterMap (·.tree.get? key)).Nodup ∧
      ∀ x ∈ ps.filterMap (·.tree.get? key), x ∉ seen := by
  -- on the declarations, with more and more names seen
  induction ps generalizing seen with
  | nil => exact ⟨List.nodup_nil, List.forall_mem_nil _⟩
  | cons p rest ih =>
    rw [repeats] at h
    rcases e : p.tree.get? key with - | name
    · simp only [e] at h
      simp only [List.filterMap_cons, e]
      exact ih h
    · simp only [e] at h
      split at h
      · cases h
      · next hnew =>
        obtain ⟨hnodup, hfresh⟩ := ih h
        simp only [List.filterMap_cons, e]
        constructor
        · apply List.nodup_cons.mpr
          exact ⟨fun hmem => hfresh name hmem (List.mem_cons_self ..), hnodup⟩
        · intro x hx
          rcases List.mem_cons.mp hx with rfl | hx
          · simpa using hnew
          · exact fun hseen => hfresh x hx (List.mem_cons_of_mem _ hseen)

variable {p : Place}

theorem childrenOf_eq (p : Place) (kind : Kind) :
    p.childrenOf kind = (p.tree.childrenOf kind).map (Place.mk · p.around) := by
  rw [childrenOf, children, List.filter_map]
  rfl

/-- Entries that are read from a scope without repetitions have different
names. -/
theorem nodup_of_duplicates_eq_nil {α : Type} {name : α → String} {xs : List α}
    {scope : DeclarationScope} {kind : Kind}
    (hread : List.Forall₂ (fun t x => t.get? "name" = some (name x)) (p.tree.childrenOf kind) xs)
    (h : duplicates scope "name" (p.childrenOf kind) = []) : (xs.map name).Nodup := by
  obtain ⟨hnodup, -⟩ := nodup_of_repeats_eq_nil (List.map_eq_nil_iff.mp h)
  have hnames : (p.tree.childrenOf kind).filterMap (·.get? "name") = xs.map name := by
    generalize p.tree.childrenOf kind = ts at hread
    clear hnodup h
    induction hread with
    | nil => rfl
    | cons hx _ ih => simp only [List.filterMap_cons, hx, List.map_cons, ih]
  rw [childrenOf_eq, List.filterMap_map] at hnodup
  rw [← hnames]
  exact hnodup

variable {d : Declarations}

theorem checkClass_eq_nil (hk : p.tree.kind = .classDecl) (h : p.check d = pure ()) :
    p.checkClass = [] := by
  rw [check_eq] at h
  simp only [hk] at h
  exact Review.found_eq_pure h

theorem checkMethod_eq_nil (hk : p.tree.kind = .methodDecl) (h : p.check d = pure ()) :
    p.checkMethod = [] := by
  rw [check_eq] at h
  simp only [hk] at h
  exact Review.found_eq_pure h

end Place

/-! ### Variables of a scope -/

/-- What the declarations of a scope are listed as: each as the variable that it
declares, which is found in the list under the name of the declaration. -/
structure ListsScope (ts : List Tree) (vs : List Variable) : Prop where
  each : List.Forall₂
    (fun t v => t.declaredVariable = .ok v ∧ Variable.find? vs t.name = some v) ts vs
  distinct : (vs.map (·.name)).Nodup

theorem listsScope_of_read {p : Place} {scope : DeclarationScope} {kind : Kind}
    {vs : List Variable} (hread : (p.tree.childrenOf kind).mapM Tree.declaredVariable = .ok vs)
    (h : Place.duplicates scope "name" (p.childrenOf kind) = []) :
    ListsScope (p.tree.childrenOf kind) vs := by
  have hall := forall₂_of_mapM_ok hread
  have hdistinct : (vs.map (·.name)).Nodup :=
    Place.nodup_of_duplicates_eq_nil (hall.imp fun _ _ => Tree.get?_name_of_declaredVariable) h
  refine ⟨forall₂_imp_mem hall ?_, hdistinct⟩
  intro t _ v hv ht
  rw [Tree.name_of_declaredVariable ht]
  exact ⟨ht, Variable.find?_of_mem hdistinct hv⟩

/-! ### The table of a program without findings -/

namespace Declarations

variable {d : Declarations} {root cls : Tree}

/-- A declared method is found under its name with all that it declares. -/
structure DescribesMethod (d : Declarations) (t : Tree) (s : Signature) : Prop where
  found : d.method? t.name = some s
  returnType : t.declaredReturnType = .ok s.returnType
  parameters : ListsScope (t.childrenOf .parameter) s.parameters
  locals : ListsScope (t.childrenOf .variableDecl) s.locals
  isStatic : s.isStatic = t.flag "isStatic"

/-- The table has the fields and the methods of a class, and each is found under
its name. -/
structure DescribesClass (d : Declarations) (cls : Tree) : Prop where
  fields : ListsScope (cls.childrenOf .variableDecl) d.fields
  methods : List.Forall₂ d.DescribesMethod (cls.childrenOf .methodDecl) d.methods
  distinct : (d.methods.map (·.name)).Nodup

/-- Of the children of a program only the last is a class. -/
theorem exists_class (hgrammar : root.isGrammatical) (hroot : ofTree root = .ok d) :
    ∃ cls, root.children.getLast? = some cls ∧ root.childrenOf .classDecl = [cls] := by
  obtain ⟨cls, hcls⟩ := exists_class_of_ofTree hroot
  obtain ⟨hkind, -⟩ := methods_of_ofTree hroot hcls
  obtain ⟨imports, hsplit⟩ := List.getLast?_eq_some_iff.mp hcls
  have hformed := (Tree.formed_of_isGrammatical hgrammar).self
  have hprogram := Tree.kind_of_isGrammatical hgrammar
  -- what stands in front of the class are imports
  have himports : imports.filter (·.kind == .classDecl) = [] := by
    apply List.filter_eq_nil_iff.mpr
    intro u hu
    have hk := Tree.kind_of_mem_program hformed hprogram u (by
      rw [hsplit, List.dropLast_concat]
      exact hu)
    rw [hk]
    decide
  refine ⟨cls, hcls, ?_⟩
  rw [Tree.childrenOf, hsplit, List.filter_append, himports, List.nil_append]
  simp [hkind]

/-- The methods that a program declares are those of its method trees. -/
theorem forall₂_signatures (hgrammar : root.isGrammatical) (hroot : ofTree root = .ok d) :
    List.Forall₂ (fun t s => t.signature = .ok s) root.methodTrees d.methods := by
  obtain ⟨cls, hcls, hclasses⟩ := exists_class hgrammar hroot
  rw [Tree.methodTrees, hclasses, List.flatMap_singleton]
  exact forall₂_of_mapM_ok (methods_of_ofTree hroot hcls).2

/-- The place of the class in a program. -/
theorem mem_preorder_of_class (hcls : root.children.getLast? = some cls) :
    Place.mk cls (Place.top root).around ∈ (Place.top root).preorder := by
  apply Place.mem_preorder_of_child _ (Place.mem_preorder_self _)
  exact List.mem_map_of_mem (List.mem_of_getLast? hcls)

section Clean

variable (hroot : ofTree root = .ok d) (hclean : d.analyze (.top root) = .ok .empty)
include hroot hclean

/-- In a program without findings no fields and no methods of one name are
declared. -/
theorem duplicates_of_class (hcls : root.children.getLast? = some cls) :
    let p := Place.mk cls (Place.top root).around
    Place.duplicates .fields "name" (p.childrenOf .variableDecl) = [] ∧
      Place.duplicates .methods "name" (p.childrenOf .methodDecl) = [] := by
  have hkind := (read_of_ofTree hroot hcls).1
  have hnone := Place.checkClass_eq_nil hkind (check_eq_pure hclean _ (mem_preorder_of_class hcls))
  exact List.append_eq_nil_iff.mp (List.append_eq_nil_iff.mp hnone).1

/-- A program without findings declares no two methods of one name. -/
theorem nodup_methods : (d.methods.map (·.name)).Nodup := by
  obtain ⟨cls, hcls⟩ := exists_class_of_ofTree hroot
  have hmethods := forall₂_of_mapM_ok (methods_of_ofTree hroot hcls).2
  exact Place.nodup_of_duplicates_eq_nil (hmethods.imp fun _ _ => Tree.get?_name_of_signature)
    (duplicates_of_class hroot hclean hcls).2

/-- A method of a program without findings declares no two parameters and no two
locals of one name, so its table lists both scopes. -/
theorem describesMethod (hcls : root.children.getLast? = some cls) {t : Tree}
    (ht : t ∈ cls.childrenOf .methodDecl) {s : Signature} (hs : s ∈ d.methods)
    (hsignature : t.signature = .ok s) : d.DescribesMethod t s := by
  obtain ⟨-, hreturn, hparameters, hlocals, hstatic⟩ := Tree.signature_ok hsignature
  obtain ⟨hmember, hkind⟩ := Tree.mem_childrenOf.mp ht
  let inClass : Place := ⟨cls, (Place.top root).around⟩
  let inMethod : Place := ⟨t, inClass.around⟩
  have hplace : inMethod ∈ (Place.top root).preorder := by
    apply Place.mem_preorder_of_child (c := inClass)
      (List.mem_map_of_mem (List.mem_of_getLast? hcls))
    exact Place.mem_preorder_of_child (List.mem_map_of_mem hmember) (Place.mem_preorder_self _)
  have hnone := Place.checkMethod_eq_nil hkind (check_eq_pure hclean _ hplace)
  simp only [Place.checkMethod, List.append_eq_nil_iff] at hnone
  obtain ⟨⟨⟨⟨⟨hnoparameters, hnolocals⟩, -⟩, -⟩, -⟩, -⟩ := hnone
  refine ⟨?_, hreturn, ?_, ?_, hstatic⟩
  · rw [Tree.name_of_signature hsignature]
    exact method?_of_mem (nodup_methods hroot hclean) hs
  · exact listsScope_of_read (p := inMethod) hparameters hnoparameters
  · exact listsScope_of_read (p := inMethod) hlocals hnolocals

end Clean

/-- In a program without findings the table describes every declaration of the
class: a method is found under its name with its own return type, parameters, locals
and static flag, and every field, parameter and local is what its name finds in its
scope. -/
theorem table_describes_declarations (hgrammar : root.isGrammatical)
    (hroot : ofTree root = .ok d) (hclean : d.analyze (.top root) = .ok .empty) :
    ∃ cls, root.childrenOf .classDecl = [cls] ∧ d.DescribesClass cls := by
  obtain ⟨cls, hcls, hclasses⟩ := exists_class hgrammar hroot
  obtain ⟨-, hfields, hmethods⟩ := read_of_ofTree hroot hcls
  refine ⟨cls, hclasses, ?_, ?_, nodup_methods hroot hclean⟩
  · exact listsScope_of_read (p := ⟨cls, (Place.top root).around⟩) hfields
      (duplicates_of_class hroot hclean hcls).1
  · exact forall₂_imp_mem (forall₂_of_mapM_ok hmethods) fun t ht s hs =>
      describesMethod hroot hclean hcls ht hs

/-! ### Equal names in different scopes

    class Shelf {
      int size;
      int[] items;
      int put(int item) { int size; size = item; return size; }
      static boolean isFull(int size, int item) { return size < item; }
    }
-/

def shelf : Tree :=
  let int := (Form.typeName "int" false false).tree
  let identifier (name : String) := (Form.identifier name).tree
  let put := (Form.methodDecl "put" int false
    [(Form.parameter "item" int).tree, (Form.variableDecl "size" int).tree,
      (Form.assignment "size" (identifier "item")).tree,
      (Form.returnStmt (some (identifier "size"))).tree]).tree
  let isFull := (Form.methodDecl "isFull" (Form.typeName "boolean" false false).tree true
    [(Form.parameter "size" int).tree, (Form.parameter "item" int).tree,
      (Form.returnStmt (some (Form.logical "<" (identifier "size")
        (identifier "item")).tree)).tree]).tree
  (Form.program [(Form.classDecl "Shelf" none
    [(Form.variableDecl "size" int).tree,
      (Form.variableDecl "items" (Form.typeName "int" true false).tree).tree, put,
      isFull]).tree]).tree

def shelfDeclarations : Declarations :=
  ⟨"Shelf", none, [], [⟨"size", .int⟩, ⟨"items", .intArray⟩],
    [⟨"put", .int, [⟨"item", .int⟩], [⟨"size", .int⟩], false⟩,
      ⟨"isFull", .boolean, [⟨"size", .int⟩, ⟨"item", .int⟩], [], true⟩]⟩

theorem shelf_table_describes_declarations :
    shelf.isGrammatical ∧ ofTree shelf = .ok shelfDeclarations ∧
    shelfDeclarations.analyze (.top shelf) = .ok .empty ∧
    ∃ cls, shelf.childrenOf .classDecl = [cls] ∧ shelfDeclarations.DescribesClass cls := by
  have hgrammar : shelf.isGrammatical := by decide
  have hroot : ofTree shelf = .ok shelfDeclarations := rfl
  have hclean : shelfDeclarations.analyze (.top shelf) = .ok .empty := rfl
  exact ⟨hgrammar, hroot, hclean, table_describes_declarations hgrammar hroot hclean⟩

end Declarations

end JavaMinus
