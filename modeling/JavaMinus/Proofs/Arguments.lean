/-
JavaMinus/Proofs/Arguments.lean

Arguments that bind to parameters.

A call of a method that the class declares is one of the class's own if it is made
on an object of the class (`Place.IsOwnCall`).  The arguments of such a call pass
the checks only if they bind to the parameters (`Place.binds_of_check`): each
parameter that takes one argument has one that may go there, and an open tail has
the arguments that are left, which are numbers or a single array of numbers.  No
argument is left over.

The class must not be confused with an imported one: calls on an imported class
are not checked.
-/
import JavaMinus.Proofs.Acceptance

namespace JavaMinus

open Declarations

/-- At the place a method that the class declares is called on an object of the
class, or on the class itself. -/
structure Place.IsOwnCall (d : Declarations) (p : Place) : Prop where
  kind : p.tree.kind = .call
  declared : d.hasMethod p.tree.name
  receiver : ∃ r rest, p.tree.children = r :: rest ∧
    d.typeOf p.method? r = .ok (some (.scalar d.className))

namespace Declarations

variable (d : Declarations) (scope : Option String)

/-- A single tree, known to be an array of numbers. -/
def IsSingleArray (ts : List Tree) : Prop :=
  ∃ t ty, ts = [t] ∧ d.typeOf scope t = .ok (some ty) ∧ ty.isArray ∧ ty.name = "int"

/-- An argument whose type, where it is known, may go where that of a parameter
is declared. -/
def MayGo (t : Tree) (v : Variable) : Prop :=
  ∀ ty, d.typeOf scope t = .ok (some ty) → d.compatible ty v.ty

/-- Arguments that go to the parameters of a method, and are all of them. -/
structure Binds (parameters : List Variable) (ts : List Tree) : Prop where
  fixed : List.Forall₂ (d.MayGo scope) (ts.take (Parameters.fixed parameters).length)
    (Parameters.fixed parameters)
  none_left : Parameters.openTail? parameters = none →
    ts.length = (Parameters.fixed parameters).length
  tail : ∀ v, Parameters.openTail? parameters = some v →
    d.IsSingleArray scope (ts.drop (Parameters.fixed parameters).length) ∨
      ∀ t ∈ ts.drop (Parameters.fixed parameters).length, d.MayBe scope t .int

end Declarations

namespace Parameters

variable {parameters : List Variable}

theorem fixed_of_openTail?_eq_none (h : openTail? parameters = none) :
    fixed parameters = parameters := by
  rw [fixed, h]
  rfl

/-- With an open tail all parameters but the last one take one argument each. -/
theorem eq_concat_of_openTail?_eq_some {tail : Variable} (h : openTail? parameters = some tail) :
    parameters = fixed parameters ++ [tail] := by
  obtain ⟨hlast, -⟩ := Option.filter_eq_some_iff.mp h
  obtain ⟨front, rfl⟩ := List.getLast?_eq_some_iff.mp hlast
  rw [fixed, h, Option.isSome_some, if_pos rfl, List.dropLast_concat]

end Parameters

namespace Place

variable {d : Declarations} {p : Place}

/-- Each of the calls inside a place has a place of its own. -/
theorem exists_of_calls {calls : List (Tree × Option String)}
    (h : (p.preorder.filter (·.tree.kind == .call)).map (fun q => (q.tree, q.method?)) = calls)
    {t : Tree} {scope : Option String} (ht : (t, scope) ∈ calls) :
    ∃ q ∈ p.preorder, q.tree = t ∧ q.method? = scope := by
  rw [← h] at ht
  obtain ⟨q, hq, heq⟩ := List.mem_map.mp ht
  obtain ⟨htree, hmethod⟩ := Prod.mk.inj heq
  exact ⟨q, (List.mem_filter.mp hq).1, htree, hmethod⟩

/-- Each of the calls inside a place has a place of its own that is an own call, if all of
them are of declared methods and made on the class or its objects. -/
theorem exists_isOwnCall (calls : List (Tree × Option String))
    (h : (p.preorder.filter (·.tree.kind == .call)).map (fun q => (q.tree, q.method?)) = calls)
    (hdeclared : ∀ call ∈ calls, d.hasMethod call.1.name)
    (hreceiver : ∀ call ∈ calls, ∃ r rest, call.1.children = r :: rest ∧
      d.typeOf call.2 r = .ok (some (.scalar d.className)))
    {t : Tree} {scope : Option String} (ht : (t, scope) ∈ calls) :
    ∃ q ∈ p.preorder, q.tree = t ∧ q.method? = scope ∧ q.IsOwnCall d := by
  subst h
  obtain ⟨q, hq, heq⟩ := List.mem_map.mp ht
  obtain ⟨rfl, rfl⟩ := Prod.mk.inj heq
  obtain ⟨hmem, hkind⟩ := List.mem_filter.mp hq
  exact ⟨q, hmem, rfl, rfl, eq_of_beq hkind, hdeclared _ ht, hreceiver _ ht⟩

theorem forall₂_of_checkFixedArguments {around us : List Tree} {scope : Option String}
    {vs : List Variable} (hscope : ∀ u ∈ us, (Place.mk u around).method? = scope)
    (hlength : vs.length ≤ us.length)
    (h : checkFixedArguments d (us.map (Place.mk · around)) vs = pure ()) :
    List.Forall₂ (d.MayGo scope) (us.take vs.length) vs := by
  induction vs generalizing us with
  | nil => exact .nil
  | cons v vs ih =>
    rcases us with - | ⟨u, us⟩
    · nomatch hlength
    · rw [List.map_cons, checkFixedArguments_cons] at h
      obtain ⟨hu, h⟩ := Review.bind_unit_eq_pure h
      have hgoes := compatible_of_wantCompatible hu
      rw [hscope u (List.mem_cons_self ..)] at hgoes
      refine .cons hgoes (ih ?_ (Nat.le_of_succ_le_succ hlength) h)
      exact fun w hw => hscope w (List.mem_cons_of_mem _ hw)

/-- The arguments of one of the class's own calls bind to the parameters of the
method, if the check of the call is clean. -/
theorem binds_of_check {root : Tree} (hroot : Declarations.ofTree root = .ok d)
    (himported : d.isImported d.className = false) (hformed : p.tree.isFormed)
    (hcall : p.IsOwnCall d) (h : p.check d = pure ()) :
    d.Binds p.method? (d.parameters p.tree.name) (p.tree.children.drop 1) := by
  obtain ⟨hk, hdeclared, receiver, arguments, hcs, htype⟩ := hcall
  obtain ⟨-, -, -, hparts⟩ := Tree.call_of_isFormed hformed hk
  have hscope : ∀ u ∈ p.tree.children, (Place.mk u p.around).method? = p.method? :=
    fun u hu => method?_of_part hu (Or.inl (hparts u hu))
  rw [hcs] at hscope
  have hchecked := checkArguments_of_check himported hk hcs (hscope _ (List.mem_cons_self ..)) htype
    hdeclared h
  have hscope : ∀ u ∈ arguments, (Place.mk u p.around).method? = p.method? :=
    fun u hu => hscope u (List.mem_cons_of_mem _ hu)
  rw [hcs, List.drop_succ_cons, List.drop_zero]
  simp only [checkArguments_eq, arguments_eq hcs, List.length_map] at hchecked
  -- without an open tail the numbers are equal; with one the arguments in front are fixed
  rcases htail : Parameters.openTail? (d.parameters p.tree.name) with - | tail
  · simp only [htail] at hchecked
    split at hchecked
    · next hlength =>
      refine ⟨forall₂_of_checkFixedArguments hscope hlength.ge hchecked, fun _ => hlength, ?_⟩
      intro v hv
      rw [htail] at hv
      cases hv
    · exact absurd hchecked Review.report_ne_pure
  · simp only [htail] at hchecked
    split at hchecked
    · next hlength =>
      obtain ⟨hfixed, hrest⟩ := Review.bind_unit_eq_pure hchecked
      refine ⟨forall₂_of_checkFixedArguments hscope hlength hfixed, ?_, fun v _ => ?_⟩
      · intro hnone
        rw [htail] at hnone
        cases hnone
      obtain ⟨hlast, hopen⟩ := Option.filter_eq_some_iff.mp htail
      have hint : tail.ty = .intVarargs :=
        eq_intVarargs_of_parameters hroot (List.mem_of_getLast? hlast) hopen
      rw [hint, ← List.map_drop] at hrest
      exact single_or_each_of_checkOpenArguments
        (fun u hu => hscope u (List.mem_of_mem_drop hu)) hrest
    · exact absurd hchecked Review.report_ne_pure

end Place

end JavaMinus
