/-
JavaMinus/Proofs/ThreeAddress/Silent.lean

Static code is silent about the object.

A tree is silent if nothing inside it is the object itself, or the name of one of its
fields that is read or assigned.  The checks find all of these in a static method: at
the object, at the identifiers and at the targets of assignments.  So the statements of
the static methods of a program without findings are silent (`silent_of_isStatic`).  If
none of its names, types and literals mentions the object either (`Tree.IsClear`), they
are written in the vocabulary of clear texts.
-/
import JavaMinus.Proofs.ThreeAddress.Headers
import JavaMinus.Proofs.ThreeAddress.Mentions

namespace JavaMinus

open ThreeAddress

/-! ### Clear trees -/

/-- None of the names, types and literals in a tree mentions the object. -/
def Tree.IsClear (t : Tree) : Prop :=
  ∀ u ∈ t.preorder, ∀ key ∈ ["name", "value"], ∀ x, u.get? key = some x → Clear x

namespace Tree.IsClear

variable {t u : Tree}

theorem of_mem_preorder (h : t.IsClear) (hu : u ∈ t.preorder) : u.IsClear :=
  fun v hv => h v (mem_preorder_trans hv t hu)

theorem isIn (h : t.IsClear) : t.IsIn .clear := fun u hu =>
  { name := fun x hx => h u hu "name" (by decide) x hx
    typeName := fun _ x hx => h u hu "value" (by decide) x hx
    numeral := fun _ x hx => h u hu "value" (by decide) x hx }

end Tree.IsClear

namespace ThreeAddress

/-! ### The statements of static methods -/

/-- A place in a static method at which nothing is found is silent. -/
theorem isSilent_of_check {d : Declarations} {q : Place} {method : String}
    (hcheck : q.check d = pure ()) (hmethod : q.method? = some method)
    (hstatic : d.isStatic method) : IsSilent d (some method) q.tree := by
  have hscope : q.isStatic d := by rwa [Place.isStatic, hmethod]
  constructor
  · intro hk
    simp only [Place.check_eq, hk, Place.checkSelf_eq] at hcheck
    have hnone := Review.reportIf_eq_pure hcheck
    rw [hscope] at hnone
    cases hnone
  · intro hk b hb hfield
    simp only [Place.check_eq, hk, Place.checkIdentifier_eq] at hcheck
    obtain ⟨-, hread⟩ := Review.bind_unit_eq_pure hcheck
    have hnone := Review.reportIf_eq_pure hread
    have hbinding : q.binding? d = some b := by rw [Place.binding?, hmethod, hb]
    rw [hscope, hbinding, Option.any_some, hfield] at hnone
    cases hnone
  · intro hk b hb hfield
    have htarget : q.checkTarget d = pure () := by
      simp only [List.mem_cons, List.not_mem_nil, or_false] at hk
      rcases hk with hk | hk
      all_goals
        simp only [Place.check_eq, hk, Place.checkAssignment_eq,
          Place.checkElementAssignment_eq] at hcheck
        exact (Review.bind_unit_eq_pure hcheck).1
    rw [Place.checkTarget_eq] at htarget
    obtain ⟨-, hwrite⟩ := Review.bind_unit_eq_pure htarget
    have hnone := Review.reportIf_eq_pure hwrite
    -- the rule goes by the name, which denotes the field here
    have hdeclared : (d.field? q.tree.name).isSome := by
      rcases Option.or_eq_some_iff.mp hb with hb | ⟨-, hb⟩
      · rcases Declarations.origin_of_methodVariable? hb with horigin | horigin <;>
          rw [horigin] at hfield <;> cases hfield
      · obtain ⟨v, hv, -⟩ := Option.map_eq_some_iff.mp hb
        rw [hv]
        rfl
    rw [hscope, hdeclared] at hnone
    cases hnone

/-- **Static code.**  In a program without findings the statements of a method that is
found to be static are silent. -/
theorem silent_of_isStatic {d : Declarations} {root m s : Tree} {method : String}
    (hgrammar : root.isGrammatical) (hclean : d.analyze (.top root) = .ok .empty)
    (hm : m ∈ root.methodTrees) (hname : m.get? "name" = some method)
    (hstatic : d.isStatic method) (hs : s ∈ statements m) : Silent d (some method) s := by
  intro u hu
  obtain ⟨q, hq, rfl, hmethod⟩ := Place.exists_of_statement hgrammar hm hs hu
  exact isSilent_of_check (Declarations.check_eq_pure hclean q hq) (hmethod.trans hname) hstatic

end ThreeAddress

end JavaMinus
