/-
JavaMinus/Proofs/ThreeAddress/Spelling.lean

Code that is spelled with words.

A word has neither a blank nor a line feed in it.  If names, types and numerals are
written as such in a program (`Tree.Spelled`), they are words, and then so is every name,
tag and operand in the code that it is lowered to (`isSpelled_of_ofTree`).  Nothing is
asked of the program but that it is lowered: its tree may be none that the language can
write, and the checks may find anything in it.
-/
import JavaMinus.Proofs.ThreeAddress.Reading
import JavaMinus.Proofs.ThreeAddress.Wording

namespace JavaMinus

open Reading ThreeAddress

/-! ### Words -/

/-- Neither a blank nor a line feed stands in the text. -/
abbrev IsWord (s : String) : Prop := Solid s.toList

instance : DecidablePred IsWord := fun s =>
  decidable_of_iff (' ' ∉ s.toList ∧ '\n' ∉ s.toList)
    ⟨fun ⟨hblank, hfeed⟩ => ⟨hblank, hfeed⟩, fun h => ⟨h.noBlank, h.noFeed⟩⟩

theorem isWord_append {a b : String} (ha : IsWord a) (hb : IsWord b) : IsWord (a ++ b) := by
  show Solid (a ++ b).toList
  rw [String.toList_append]
  exact Solid.append ha hb

theorem isWord_of_integer? {s : String} (h : (integer? s.toList).isSome) : IsWord s := by
  obtain ⟨n, hn⟩ := Option.isSome_iff_exists.mp h
  exact solid_of_integer? hn

/-- A position or a size that the lowering writes itself. -/
theorem isWord_position (n : Nat) : IsWord (toString n) := by
  apply isWord_of_integer?
  show (integer? n.repr.toList).isSome
  rw [integer?_repr]
  rfl

instance (s : String) : Decidable (IsName s) :=
  decidable_of_iff
    (beginsNumeral s.toList = false ∧ ' ' ∉ s.toList ∧ '\n' ∉ s.toList ∧ '.' ∉ s.toList)
    ⟨fun ⟨hbegins, hblank, hfeed, hdot⟩ => ⟨hbegins, hblank, hfeed, hdot⟩,
      fun h => ⟨h.begins, h.noBlank, h.noFeed, h.noDot⟩⟩

/-- The vocabulary of all words, and of the object. -/
def Vocabulary.words : Vocabulary where
  Has := IsWord
  object := True
  nameless := by decide
  int := by decide
  boolean := by decide
  void := by decide
  number := isWord_position

/-! ### Spelled trees and declarations -/

/-- The names and types in a node are names, and its numeral is one.  The path of an import
is a word; it may have dots in it. -/
structure Tree.IsSpelled (t : Tree) : Prop where
  name : ∀ x ∈ t.get? "name", IsName x
  superName : ∀ x ∈ t.get? "superName", IsName x
  typeName : t.kind = .typeName → ∀ x ∈ t.get? "value", IsName x
  numeral : t.kind = .integer → ∀ x ∈ t.get? "value", (integer? x.toList).isSome
  path : t.kind = .importDecl → ∀ x ∈ t.get? "value", IsWord x

instance (t : Tree) : Decidable t.IsSpelled :=
  decidable_of_iff
    ((∀ x ∈ t.get? "name", IsName x) ∧ (∀ x ∈ t.get? "superName", IsName x) ∧
      (t.kind = .typeName → ∀ x ∈ t.get? "value", IsName x) ∧
      (t.kind = .integer → ∀ x ∈ t.get? "value", (integer? x.toList).isSome) ∧
      (t.kind = .importDecl → ∀ x ∈ t.get? "value", IsWord x))
    ⟨fun ⟨hname, hsuper, htype, hnumeral, hpath⟩ => ⟨hname, hsuper, htype, hnumeral, hpath⟩,
      fun h => ⟨h.name, h.superName, h.typeName, h.numeral, h.path⟩⟩

/-- Every node of a tree is spelled. -/
def Tree.Spelled (t : Tree) : Prop := ∀ u ∈ t.preorder, u.IsSpelled

instance (t : Tree) : Decidable t.Spelled :=
  inferInstanceAs (Decidable (∀ u ∈ t.preorder, u.IsSpelled))

namespace Tree.Spelled

variable {t u : Tree}

theorem child (h : t.Spelled) (hu : u ∈ t.children) : u.Spelled :=
  fun v hv => h v (mem_preorder_of_child hu hv)

theorem self (h : t.Spelled) : t.IsSpelled := h t t.mem_preorder_self

/-- Names, types and numerals are words. -/
theorem isIn (h : t.Spelled) : t.IsIn .words := fun u hu =>
  { name := fun x hx => ((h u hu).name x hx).solid
    typeName := fun hk x hx => ((h u hu).typeName hk x hx).solid
    numeral := fun hk x hx => isWord_of_integer? ((h u hu).numeral hk x hx) }

theorem speaks (h : t.Spelled) {d : Declarations} {scope : Option String} :
    Speaks .words d scope t where
  names := h.isIn
  silent hobject := absurd trivial hobject

end Tree.Spelled

/-- The name of the class is a name, and all else that is declared are words. -/
structure Declarations.AreSpelled (d : Declarations) : Prop where
  className : IsName d.className
  superName : ∀ x ∈ d.superName, IsWord x
  imports : ∀ path ∈ d.imports, IsWord path
  words : d.AreIn .words

/-- What a spelled program declares is spelled. -/
theorem Declarations.areSpelled_of_spelled {d : Declarations} {root : Tree}
    (hroot : ofTree root = .ok d) (hspelled : root.Spelled) : d.AreSpelled := by
  -- the class is a child of the program, and so are the imports
  obtain ⟨cls, hcls⟩ := exists_class_of_ofTree hroot
  obtain ⟨-, himports, -, -, hname, hsuper⟩ := ofTree_ok hroot hcls
  have hclass : cls.IsSpelled := (hspelled.child (List.mem_of_getLast? hcls)).self
  constructor
  · exact hclass.name _ (Tree.get?_of_require hname)
  · rw [← hsuper]
    exact fun x hx => (hclass.superName x hx).solid
  · intro path hpath
    obtain ⟨u, hu, hvalue⟩ := exists_of_forall₂ (forall₂_of_mapM_ok himports).flip hpath
    obtain ⟨hmem, hkind⟩ := Tree.mem_childrenOf.mp hu
    exact (hspelled.child hmem).self.path hkind _ (Tree.get?_of_require hvalue)
  · exact areIn_of_isIn hroot hspelled.isIn

namespace ThreeAddress

/-! ### Spelled code -/

theorem Tag.IsIn.isWord {tag : Tag} (h : tag.IsIn .words) : IsWord tag.text := by
  induction tag with
  | i32 | bool | void => decide
  | object name =>
    show IsWord ("." ++ name)
    exact isWord_append (by decide) h
  | array element ih =>
    show IsWord (".array" ++ element.text)
    exact isWord_append (by decide) (ih h)

theorem Cell.IsIn.isWord {c : Cell} (h : c.IsIn .words) : IsWord c.text := by
  cases c with
  | temporary n => exact (isName_temporary n).solid
  | named name => exact h

theorem Operand.IsIn.isWord {x : Operand} (h : x.IsIn .words) : IsWord x.text := by
  cases x with
  | cell c tag => exact isWord_append h.1.isWord h.2.isWord
  | number digits => exact isWord_append h (by decide)
  | truth value => cases value <;> decide
  | self className =>
    show IsWord ("this." ++ className)
    exact isWord_append (by decide) h.2
  | classRef name => exact h

structure ClassCode.IsSpelled (c : ClassCode) : Prop where
  name : IsName c.name
  superName : ∀ x ∈ c.superName, IsWord x
  fields : VariablesIn .words c.fields
  methods : ∀ m ∈ c.methods, m.IsIn .words

/-- All that is written in the code of a program are words. -/
structure Program.IsSpelled (p : Program) : Prop where
  imports : ∀ path ∈ p.imports, IsWord path
  classes : ∀ c ∈ p.classes, c.IsSpelled

section Program

variable {d : Declarations} {root t : Tree} {c c' : Counters}

theorem isSpelled_of_lowerClass (hd : d.AreSpelled) (ht : t.Spelled) {code : ClassCode}
    (h : (lowerClass d t).run c = .ok (code, c')) : code.IsSpelled := by
  obtain ⟨ms, c₁, hms, h⟩ := run_bind_eq_ok h
  obtain ⟨rfl, rfl⟩ := run_pure_eq_ok h
  constructor
  · exact hd.className
  · exact hd.superName
  · exact variablesIn_map_tagged hd.words.fields
  · intro m hm
    obtain ⟨u, hu, c₂, c₃, hrun⟩ := exists_of_forall₂ (forall₂_of_run_mapM hms).flip hm
    have hmethod := ht.child (Tree.mem_childrenOf.mp hu).1
    exact isIn_of_lowerMethod hd.words hmethod.isIn
      (fun s hs => (hmethod.child (Tree.mem_statements.mp hs).1).speaks) hrun

/-- **Programs.**  A program in which names, types and numerals are spelled as such is lowered
to code in which all that is written are words. -/
theorem isSpelled_of_ofTree {p : Program} (hroot : Declarations.ofTree root = .ok d)
    (hspelled : root.Spelled) (hp : Program.ofTree d root = .ok p) : p.IsSpelled := by
  have hd := Declarations.areSpelled_of_spelled hroot hspelled
  obtain ⟨c, hrun⟩ := exists_run_of_ofTree hp
  obtain ⟨classes, c₁, hclasses, hrun⟩ := run_bind_eq_ok hrun
  obtain ⟨rfl, rfl⟩ := run_pure_eq_ok hrun
  constructor
  · exact hd.imports
  · intro code hcode
    obtain ⟨u, hu, c₂, c₃, hclass⟩ := exists_of_forall₂ (forall₂_of_run_mapM hclasses).flip hcode
    exact isSpelled_of_lowerClass hd (hspelled.child (Tree.mem_childrenOf.mp hu).1) hclass

end Program

end ThreeAddress

end JavaMinus
