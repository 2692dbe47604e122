/-
JavaMinus/Proofs/Imports.lean

Imports, as the checks and as the assembly look for them.

A program refers to an imported class by the last segment of the import, and that is
what its declarations compare with the name (`simpleName`).  The graph of a class looks
for an import that ends in the name behind a dot instead (`endsIn`).  For a name without
a dot in it these come to the same (`endsIn_eq`), so that both find the same import in
the same list: the first one that is the name or ends in it.

What was found is written with slashes for dots.  An import that ends in the name behind
a dot is longer than the name, with slashes as well as with dots, so the name stays as it
is just if no import is found or the name itself is one
(`internal_names_follow_imports`).
-/
import JavaMinus.Declarations
import JavaMinus.Graph.ClassUnit
import Mathlib.Data.List.TakeWhile

namespace JavaMinus

namespace QualifiedName

variable {cs segment : List Char} {path name : String}

/-! ### The last segment -/

/-- Looked through from behind, a text without a dot is not left before its end. -/
theorem ne_dot_of_mem_reverse (h : '.' ∉ cs) : ∀ c ∈ cs.reverse, decide (c ≠ '.') = true :=
  fun _ hc => decide_eq_true fun hdot => h (List.mem_reverse.mp (hdot ▸ hc))

theorem lastSegment_append (before : List Char) (h : '.' ∉ segment) :
    lastSegment (before ++ '.' :: segment) = segment := by
  have hreverse : (before ++ '.' :: segment).reverse =
      segment.reverse ++ '.' :: before.reverse := by
    rw [List.reverse_append, List.reverse_cons, List.append_assoc, List.singleton_append]
  rw [lastSegment, hreverse, List.takeWhile_append_of_pos (ne_dot_of_mem_reverse h),
    List.takeWhile_cons_of_neg (by decide), List.append_nil, List.reverse_reverse]

theorem lastSegment_of_not_mem (h : '.' ∉ cs) : lastSegment cs = cs := by
  rw [lastSegment, List.takeWhile_eq_self_iff.mpr (ne_dot_of_mem_reverse h),
    List.reverse_reverse]

/-- A text is its last segment, or has it behind a dot. -/
theorem lastSegment_cases (cs : List Char) :
    lastSegment cs = cs ∨ ('.' :: lastSegment cs) <:+ cs := by
  by_cases h : '.' ∈ cs
  · -- the last dot is the first one from behind
    obtain ⟨behind, before, hcs, hbehind⟩ := List.eq_append_cons_of_mem (List.mem_reverse.mpr h)
    have hcs : cs = before.reverse ++ '.' :: behind.reverse := by
      rw [← List.reverse_reverse cs, hcs, List.reverse_append, List.reverse_cons,
        List.append_assoc, List.singleton_append]
    have hlast : lastSegment cs = behind.reverse := by
      rw [hcs]
      exact lastSegment_append _ fun hdot => hbehind (List.mem_reverse.mp hdot)
    exact .inr ⟨before.reverse, by rw [hlast, ← hcs]⟩
  · exact .inl (lastSegment_of_not_mem h)

theorem lastSegment_eq_iff (h : '.' ∉ segment) :
    lastSegment cs = segment ↔ cs = segment ∨ ('.' :: segment) <:+ cs := by
  constructor
  · rintro rfl
    exact (lastSegment_cases cs).imp Eq.symm id
  · rintro (rfl | ⟨before, rfl⟩)
    · exact lastSegment_of_not_mem h
    · exact lastSegment_append before h

theorem simpleName_eq_iff (h : '.' ∉ name.toList) :
    simpleName path = name ↔ path = name ∨ ('.' :: name.toList) <:+ path.toList := by
  rw [simpleName, ← String.toList_inj, String.toList_ofList, lastSegment_eq_iff h,
    String.toList_inj]

/-- A name without a dot is what a qualified name ends in just if it is the whole of it or
its last segment. -/
theorem endsIn_eq (h : '.' ∉ name.toList) :
    endsIn path name = (path == name || simpleName path == name) := by
  rw [Bool.eq_iff_iff, endsIn, Bool.or_eq_true, Bool.or_eq_true, beq_iff_eq, beq_iff_eq,
    List.isSuffixOf_iff_suffix, simpleName_eq_iff h, or_self_left, or_comm]

/-! ### Slashes for dots -/

theorem length_slashed (path : String) :
    (slashed path).toList.length = path.toList.length := by
  rw [slashed, String.toList_ofList, List.length_map]

theorem slashed_eq_self (h : '.' ∉ path.toList) : slashed path = path := by
  have hchars : path.toList.map (fun c => if c = '.' then '/' else c) = path.toList := by
    refine (List.map_congr_left fun c hc => ?_).trans (List.map_id _)
    have hdot : c ≠ '.' := fun hdot => h (hdot ▸ hc)
    exact if_neg hdot
  rw [slashed, hchars, String.ofList_toList]

/-- Of the qualified names that end in a name only the name itself is written like it. -/
theorem slashed_eq_iff (h : '.' ∉ name.toList) (hends : endsIn path name) :
    slashed path = name ↔ path = name := by
  constructor
  · intro hslashed
    rw [endsIn, Bool.or_eq_true, List.isSuffixOf_iff_suffix, beq_iff_eq] at hends
    refine hends.resolve_left fun hsuffix => ?_
    -- slashes do not make up for the dot in front of the name
    have hlonger := hsuffix.length_le
    rw [← length_slashed path, hslashed, List.length_cons] at hlonger
    omega
  · rintro rfl
    exact slashed_eq_self h

end QualifiedName

/-! ### Looking for an import -/

open QualifiedName

/-- The import that a name refers to is the first one that ends in it. -/
theorem Declarations.importPath?_eq (d : Declarations) {name : String} (h : '.' ∉ name.toList) :
    d.importPath? name = d.imports.find? (endsIn · name) := by
  rw [importPath?]
  simp only [endsIn_eq h]

namespace Graph.ClassUnit

variable {u : ClassUnit} {d : Declarations} {name : String}

theorem internalName_of_find? {path : String}
    (h : u.imports.find? (endsIn · name) = some path) : u.internalName name = slashed path := by
  rw [internalName, h]

theorem internalName_of_find?_eq_none (h : u.imports.find? (endsIn · name) = none) :
    u.internalName name = name := by
  rw [internalName, h]

/-- **The machine's name of a class is that of the import which the program refers to.**
Where the graph of a class has the imports that its program declares, a name without a
dot stands for the import that the declarations find for it, with slashes for dots.  It
is kept as it is just if they find none, or find the name itself. -/
theorem internal_names_follow_imports (himports : u.imports = d.imports)
    (hname : '.' ∉ name.toList) :
    (∀ path, d.importPath? name = some path → u.internalName name = slashed path) ∧
    (u.internalName name = name ↔
      d.importPath? name = none ∨ d.importPath? name = some name) := by
  rw [d.importPath?_eq hname, ← himports]
  refine ⟨fun path => internalName_of_find?, ?_⟩
  rcases hfound : u.imports.find? (endsIn · name) with - | path
  · exact iff_of_true (internalName_of_find?_eq_none hfound) (.inl rfl)
  · have hends := List.find?_some hfound
    rw [internalName_of_find? hfound, slashed_eq_iff hname hends, Option.some_inj]
    simp

/-! ### Lists from two packages -/

/-- Imports of which two end in the same name, and one has no package. -/
def listImports : List String := ["java.util.List", "java.awt.List", "List", "util"]

def listing : ClassUnit := { ClassUnit.new "Shelf" with imports := listImports }

def listingDeclarations : Declarations := ⟨"Shelf", none, listImports, [], []⟩

/-- The first import that ends in the name is taken, though the name itself stands further
behind. -/
theorem internal_names_follow_imports_listing :
    listing.imports = listingDeclarations.imports ∧ '.' ∉ "List".toList ∧
      listingDeclarations.importPath? "List" = some "java.util.List" ∧
      listing.internalName "List" = "java/util/List" ∧ listing.internalName "List" ≠ "List" := by
  have himports : listing.imports = listingDeclarations.imports := rfl
  have hname : '.' ∉ "List".toList := by decide
  have hfound : listingDeclarations.importPath? "List" = some "java.util.List" := by decide
  obtain ⟨hfollows, hkept⟩ := internal_names_follow_imports himports hname
  refine ⟨himports, hname, hfound, hfollows _ hfound, fun h => ?_⟩
  have hself := hkept.mp h
  rw [hfound] at hself
  revert hself
  decide

end Graph.ClassUnit

end JavaMinus
