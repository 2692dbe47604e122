/-
JavaMinus/Proofs/Findings.lean

What the checks find, and where.

The checks append to what was found before, so what they find in a program is what
they find at its nodes, one node after another in reading order
(`findings_review`).  A node is found fault with at itself or at one of its
children, and most rules are rules for nodes of a few kinds only
(`Place.finds_check`).
-/
import JavaMinus.Proofs.Completion

namespace JavaMinus

/-! ### What is found by a sequence of reviews -/

namespace Review

variable {α β : Type} {P : Finding → Prop} {x : Review α}

/-- All that a review finds has a property. -/
def Finds (P : Finding → Prop) (x : Review α) : Prop := ∀ f ∈ x.findings, P f

theorem finds_pure (a : α) : (pure a : Review α).Finds P := nofun

theorem finds_ofExcept (outcome : Except Fault α) : (ofExcept outcome).Finds P := nofun

theorem finds_found {fs : List Finding} (h : ∀ f ∈ fs, P f) : (found fs).Finds P := h

theorem finds_report {p : Place} {problem : Problem} (h : P (p.finding problem)) :
    (report p problem).Finds P :=
  finds_found (List.forall_mem_singleton.mpr h)

theorem finds_reportIf {condition : Bool} {p : Place} {problem : Problem}
    (h : condition → P (p.finding problem)) : (reportIf condition p problem).Finds P := by
  cases condition with
  | false => exact finds_pure ()
  | true => exact finds_report (h rfl)

theorem Finds.bind {f : α → Review β} (hx : x.Finds P) (hf : ∀ a, (f a).Finds P) :
    (x >>= f).Finds P := by
  intro g hg
  rw [findings_bind, List.mem_append] at hg
  rcases hg with hg | hg
  · exact hx g hg
  · split at hg
    · nomatch hg
    · next a _ => exact hf a g hg

theorem finds_forM {f : α → Review Unit} {xs : List α} (h : ∀ x ∈ xs, (f x).Finds P) :
    (xs.forM f).Finds P := by
  induction xs with
  | nil => exact finds_pure ()
  | cons x rest ih =>
    refine Finds.bind (h x (List.mem_cons_self ..)) fun _ => ih ?_
    exact fun y hy => h y (List.mem_cons_of_mem _ hy)

theorem Finds.mono {Q : Finding → Prop} (h : x.Finds P) (hPQ : ∀ f, P f → Q f) : x.Finds Q :=
  fun f hf => hPQ f (h f hf)

variable {f : α → Review β}

theorem mem_bind_left {g : Finding} (h : g ∈ x.findings) : g ∈ (x >>= f).findings := by
  rw [findings_bind]
  exact List.mem_append_left _ h

/-- What is found after a review that came to a result. -/
theorem mem_bind_right {g : Finding} {a : α} (ha : x.outcome = .ok a)
    (h : g ∈ (f a).findings) : g ∈ (x >>= f).findings := by
  rw [findings_bind, ha]
  exact List.mem_append_right _ h

theorem findings_reportIf (condition : Bool) (p : Place) (problem : Problem) :
    (reportIf condition p problem).findings = if condition then [p.finding problem] else [] := by
  cases condition <;> rfl

theorem findings_reportIf_bind (condition : Bool) (p : Place) (problem : Problem) (x : Review β) :
    (reportIf condition p problem >>= fun _ => x).findings =
      (if condition then [p.finding problem] else []) ++ x.findings := by
  cases condition <;> rfl

/-- Reviews that all come to an end find what they find one after another. -/
theorem findings_forM {f : α → Review Unit} {xs : List α} (h : (xs.forM f).Completes) :
    (xs.forM f).findings = xs.flatMap fun x => (f x).findings := by
  induction xs with
  | nil => rfl
  | cons x rest ih =>
    obtain ⟨hx, hrest⟩ := List.forall_mem_cons.mp (completes_forM.mp h)
    obtain ⟨a, ha⟩ := hx
    show (f x >>= fun _ => rest.forM f).findings = _
    rw [findings_bind, ha, List.flatMap_cons]
    exact congrArg _ (ih (completes_forM.mpr hrest))

end Review

/-! ### Rules for nodes of some kinds -/

/-- Whether a rule is about the types of values.  There are such rules for nodes of
many kinds. -/
def Problem.isAboutTypes : Problem → Bool
  | incompatible .. | different .. | booleanToInt _ | intToBoolean _ | argumentCount ..
  | notAnArray _ | lengthOfNonArray _ | literalForNonArray _ | indexType _ => true
  | undefinedVariable _ | undefinedMethod _ | duplicate .. | fieldRead _ | fieldWrite _
  | selfUse | loopWithArray _ | varargsVariable _ | varargsReturn _ | varargsNotLast _ => false

/-- Whether a rule can be broken at nodes of a kind. -/
def Problem.concerns (problem : Problem) (k : Kind) : Bool :=
  match problem with
  | undefinedVariable _ => k == .identifier || k == .assignment || k == .elementAssignment
  | fieldWrite _ => k == .assignment || k == .elementAssignment
  | fieldRead _ => k == .identifier
  | selfUse => k == .self
  | undefinedMethod _ => k == .call
  | loopWithArray _ => k == .loop
  | duplicate .imports _ => k == .program
  | duplicate .fields _ | duplicate .methods _ => k == .classDecl
  | duplicate .parameters _ | duplicate .locals _ => k == .methodDecl
  | varargsVariable _ => k == .classDecl || k == .methodDecl
  | varargsReturn _ | varargsNotLast _ => k == .methodDecl
  | incompatible .. | different .. | booleanToInt _ | intToBoolean _ | argumentCount ..
  | notAnArray _ | lengthOfNonArray _ | literalForNonArray _ | indexType _ => true

theorem Problem.concerns_of_isAboutTypes {problem : Problem} (h : problem.isAboutTypes) (k : Kind) :
    problem.concerns k := by
  cases problem <;> first | rfl | nomatch h

namespace Place

open Review

/-- A problem of a sort, found at the place or at one of its children. -/
def IsAbout (p : Place) (sort : Problem → Bool) (f : Finding) : Prop :=
  ∃ q ∈ p :: p.children, ∃ problem, sort problem ∧ f = q.finding problem

variable {d : Declarations} {p q : Place} {sort : Problem → Bool} {problem : Problem}

theorem isAbout_self (h : sort problem) : p.IsAbout sort (p.finding problem) :=
  ⟨p, List.mem_cons_self .., problem, h, rfl⟩

theorem isAbout_child (hq : q ∈ p.children) (h : sort problem) :
    p.IsAbout sort (q.finding problem) :=
  ⟨q, List.mem_cons_of_mem _ hq, problem, h, rfl⟩

theorem IsAbout.mono {sort' : Problem → Bool} {f : Finding} (h : p.IsAbout sort f)
    (himp : ∀ problem, sort problem → sort' problem) : p.IsAbout sort' f := by
  obtain ⟨q, hq, problem, hsort, rfl⟩ := h
  exact ⟨q, hq, problem, himp problem hsort, rfl⟩

/-! ### Values -/

section Values

variable {P : Finding → Prop} {ty : Ty} {value site : Place}

/-- What is found where the type is known. -/
theorem finds_known {f : Ty → Review Unit} (hf : ∀ ty, (f ty).Finds P) :
    Finds P (do match ← value.typed d with
      | none => pure ()
      | some ty => f ty) := by
  refine (finds_ofExcept _).bind fun found => ?_
  cases found with
  | none => exact finds_pure ()
  | some ty => exact hf ty

theorem finds_wantType {problem : Ty → Problem} (h : ∀ found, P (site.finding (problem found))) :
    (wantType d ty problem value site).Finds P := by
  rw [wantType_eq]
  exact finds_known fun found => finds_reportIf fun _ => h found

theorem finds_wantCompatible
    (h : ∀ found, d.compatible found ty = false → P (site.finding (.incompatible found ty))) :
    (wantCompatible d ty value site).Finds P := by
  rw [wantCompatible_eq]
  exact finds_known fun found => finds_reportIf fun hnot => h found (by simpa using hnot)

theorem finds_wantArray {problem : String → Problem}
    (h : P (site.finding (problem value.tree.describe))) :
    (wantArray d problem value site).Finds P := by
  rw [wantArray_eq]
  exact finds_known fun _ => finds_reportIf fun _ => h

theorem finds_checkOperands :
    (p.checkOperands d ty).Finds (p.IsAbout Problem.isAboutTypes) := by
  rw [checkOperands_eq]
  split
  · refine (finds_ofExcept _).bind fun _ => (finds_ofExcept _).bind fun _ => ?_
    exact finds_reportIf fun _ => isAbout_self rfl
  · exact finds_pure ()

theorem finds_checkArithmetic :
    (p.checkArithmetic d).Finds (p.IsAbout Problem.isAboutTypes) := by
  rw [checkArithmetic_eq]
  exact (finds_ofExcept _).bind fun _ => finds_checkOperands

theorem finds_checkLogical : (p.checkLogical d).Finds (p.IsAbout Problem.isAboutTypes) := by
  rw [checkLogical_eq]
  exact (finds_ofExcept _).bind fun _ => finds_checkOperands

theorem finds_checkCondition :
    (p.checkCondition d).Finds (p.IsAbout Problem.isAboutTypes) := by
  rw [checkCondition_eq]
  split
  · exact finds_pure ()
  · next condition hcondition =>
    exact finds_wantType fun _ => isAbout_child (mem_children_of_child? hcondition) rfl

theorem isAboutTypes_of_assignmentProblem? {target : String} {source destination : Ty}
    (h : assignmentProblem? d target source destination = some problem) :
    problem.isAboutTypes := by
  rw [assignmentProblem?] at h
  repeat' split at h
  all_goals cases h <;> rfl

theorem finds_checkAssignedValue :
    (p.checkAssignedValue d).Finds (p.IsAbout Problem.isAboutTypes) := by
  rw [checkAssignedValue_eq]
  split
  · next target value _ _ =>
    split
    · exact finds_pure ()
    · refine finds_known fun source => ?_
      split
      · exact finds_pure ()
      · next problem hproblem =>
        exact finds_report (isAbout_self (isAboutTypes_of_assignmentProblem? hproblem))
  · exact finds_pure ()

theorem finds_checkReturn (hnone : ∀ ty, P (p.finding (.incompatible .void ty)))
    (hvalue : ∀ found ty, ty == .void || !d.compatible found ty →
      P (p.finding (.incompatible found ty))) : (p.checkReturn d).Finds P := by
  rw [checkReturn_eq]
  split
  · exact finds_pure ()
  · simp only
    split
    · exact finds_reportIf fun _ => hnone _
    · split
      · exact finds_pure ()
      · exact finds_known fun actual => finds_reportIf (hvalue actual _)

theorem finds_checkElementRead :
    (p.checkElementRead d).Finds (p.IsAbout Problem.isAboutTypes) := by
  rw [checkElementRead_eq]
  split
  · exact (finds_wantArray (isAbout_self rfl)).bind fun _ =>
      finds_wantType fun _ => isAbout_self rfl
  · exact finds_pure ()

theorem finds_checkLength : (p.checkLength d).Finds (p.IsAbout Problem.isAboutTypes) := by
  rw [checkLength_eq]
  split
  · exact finds_pure ()
  · exact finds_wantArray (isAbout_self rfl)

theorem finds_checkAssignedElement (harray : P (p.finding (.notAnArray p.tree.name)))
    (hindex : ∀ found, P (p.finding (.indexType found)))
    (hvalue : ∀ found ty, d.compatible found ty = false → P (p.finding (.incompatible found ty))) :
    (p.checkAssignedElement d).Finds P := by
  rw [checkAssignedElement_eq]
  split
  · exact finds_pure ()
  · split
    · exact finds_report harray
    · next element _ =>
      have hstored : ∀ value, (wantCompatible d element value p).Finds P := fun value =>
        finds_wantCompatible fun found => hvalue found element
      simp only
      split
      · split
        · exact finds_pure ()
        · exact hstored _
      · refine (finds_wantType hindex).bind fun _ => ?_
        split
        · exact finds_pure ()
        · exact hstored _

theorem isAboutTypes_of_literalProblem? {target : String} {destination : Ty}
    {first : Option Ty} (h : literalProblem? target destination first = some problem) :
    problem.isAboutTypes := by
  rw [literalProblem?.eq_def] at h
  repeat' split at h
  all_goals cases h <;> rfl

theorem finds_checkArrayLiteral :
    (p.checkArrayLiteral d).Finds (p.IsAbout Problem.isAboutTypes) := by
  rw [checkArrayLiteral_eq]
  refine (finds_ofExcept _).bind fun types => ?_
  refine (finds_found fun f hf => ?_).bind fun _ => finds_found fun f hf => ?_
  · rcases e : types.filterMap id with - | ⟨first, rest⟩
    · rw [e] at hf
      cases hf
    · rw [e] at hf
      obtain ⟨ty, -, rfl⟩ := List.mem_map.mp hf
      exact isAbout_self rfl
  · rw [literalAssigned] at hf
    split at hf
    · cases hf
    · split at hf
      · split at hf
        · cases hf
        · obtain ⟨problem, hproblem, rfl⟩ := Option.map_eq_some_iff.mp (Option.mem_toList.mp hf)
          exact isAbout_self (isAboutTypes_of_literalProblem? hproblem)
      · cases hf

end Values

/-! ### Calls -/

theorem mem_children_of_arguments {a : Place} (ha : a ∈ p.arguments) : a ∈ p.children :=
  List.mem_of_mem_drop ha

section Calls

variable {P : Finding → Prop}

theorem finds_checkFixedArguments {arguments : List Place} {parameters : List Variable}
    (h : ∀ a ∈ arguments, ∀ found ty, d.compatible found ty = false →
      P (a.finding (.incompatible found ty))) :
    (checkFixedArguments d arguments parameters).Finds P := by
  induction arguments generalizing parameters with
  | nil => exact finds_pure ()
  | cons a rest ih =>
    cases parameters with
    | nil => exact finds_pure ()
    | cons parameter parameters =>
      rw [checkFixedArguments_cons]
      refine (finds_wantCompatible fun found => ?_).bind fun _ => ?_
      · exact h a (List.mem_cons_self ..) found parameter.ty
      · exact ih fun b hb => h b (List.mem_cons_of_mem _ hb)

theorem finds_checkOpenArguments {element : Ty} {arguments : List Place}
    (h : ∀ a ∈ arguments, ∀ found, P (a.finding (.different found element))) :
    (checkOpenArguments d element arguments).Finds P := by
  rw [checkOpenArguments_eq]
  refine (finds_ofExcept _).bind fun single => ?_
  cases single with
  | true => exact finds_pure ()
  | false => exact finds_forM fun a ha => finds_wantType (h a ha)

section Arguments

variable
  (hcount : ∀ method expected found, P (p.finding (.argumentCount method expected found)))
  (hfixed : ∀ a ∈ p.children, ∀ found ty, d.compatible found ty = false →
    P (a.finding (.incompatible found ty)))
  (hopen : ∀ a ∈ p.children, ∀ found ty, P (a.finding (.different found ty)))
include hcount hfixed hopen

theorem finds_checkArguments {method : String} : (p.checkArguments d method).Finds P := by
  rw [checkArguments_eq]
  dsimp only
  split
  · split
    · exact finds_checkFixedArguments fun a ha => hfixed a (mem_children_of_arguments ha)
    · exact finds_report (hcount ..)
  · split
    · refine (finds_checkFixedArguments fun a ha =>
        hfixed a (mem_children_of_arguments ha)).bind fun _ => ?_
      exact finds_checkOpenArguments fun a ha found =>
        hopen a (mem_children_of_arguments (List.mem_of_mem_drop ha)) found _
    · exact finds_report (hcount ..)

theorem finds_checkCall (hmissing : P (p.finding (.undefinedMethod p.tree.name))) :
    (p.checkCall d).Finds P := by
  rw [checkCall_eq]
  refine (finds_ofExcept _).bind fun onImport => ?_
  cases onImport with
  | true => exact finds_pure ()
  | false =>
    show (if d.hasMethod p.tree.name then _ else _ : Review Unit).Finds _
    split
    · refine (finds_ofExcept _).bind fun own => ?_
      cases own with
      | false => exact finds_pure ()
      | true => exact finds_checkArguments hcount hfixed hopen
    · exact finds_reportIf fun _ => hmissing

end Arguments

end Calls

/-! ### Names -/

theorem finds_checkIdentifier :
    (p.checkIdentifier d).Finds (p.IsAbout (·.concerns .identifier)) := by
  rw [checkIdentifier_eq]
  exact (finds_reportIf fun _ => isAbout_self rfl).bind fun _ =>
    finds_reportIf fun _ => isAbout_self rfl

theorem finds_checkTarget {P : Finding → Prop}
    (hundefined : P (p.finding (.undefinedVariable p.tree.name)))
    (hfield : P (p.finding (.fieldWrite p.tree.name))) : (p.checkTarget d).Finds P := by
  rw [checkTarget_eq]
  exact (finds_reportIf fun _ => hundefined).bind fun _ => finds_reportIf fun _ => hfield

/-! ### Declarations -/

theorem fst_mem_of_mem_repeats {key : String} {seen : List String} {ps : List Place}
    {x : Place × String} (hx : x ∈ repeats key seen ps) : x.1 ∈ ps := by
  induction ps generalizing seen with
  | nil => nomatch hx
  | cons p rest ih =>
    rw [repeats] at hx
    split at hx
    · exact List.mem_cons_of_mem _ (ih hx)
    · split at hx
      · rcases List.mem_cons.mp hx with rfl | hx
        · exact List.mem_cons_self ..
        · exact List.mem_cons_of_mem _ (ih hx)
      · exact List.mem_cons_of_mem _ (ih hx)

theorem fst_mem_of_mem_openTails {ps : List Place} {x : Place × Variable}
    (hx : x ∈ openTails ps) : x.1 ∈ ps := by
  obtain ⟨q, hq, hsome⟩ := List.mem_filterMap.mp hx
  split at hsome
  · split at hsome
    · cases hsome
      exact hq
    · nomatch hsome
  · nomatch hsome

theorem mem_children_of_childrenOf {k : Kind} (hq : q ∈ p.childrenOf k) : q ∈ p.children :=
  (List.mem_filter.mp hq).1

variable {f : Finding} {k : Kind}

theorem isAbout_of_duplicates {scope : DeclarationScope} {key : String}
    (hsort : ∀ name, sort (.duplicate scope name))
    (hf : f ∈ duplicates scope key (p.childrenOf k)) : p.IsAbout sort f := by
  obtain ⟨x, hx, rfl⟩ := List.mem_map.mp hf
  exact isAbout_child (mem_children_of_childrenOf (fst_mem_of_mem_repeats hx)) (hsort x.2)

theorem isAbout_of_openVariables (hsort : ∀ name, sort (.varargsVariable name))
    (hf : f ∈ openVariables (p.childrenOf k)) : p.IsAbout sort f := by
  obtain ⟨x, hx, rfl⟩ := List.mem_map.mp hf
  exact isAbout_child (mem_children_of_childrenOf (fst_mem_of_mem_openTails hx)) (hsort x.2.name)

theorem isAbout_of_checkProgram (hf : f ∈ p.checkProgram) : p.IsAbout (·.concerns .program) f :=
  isAbout_of_duplicates (fun _ => rfl) hf

theorem isAbout_of_checkClass (hf : f ∈ p.checkClass) : p.IsAbout (·.concerns .classDecl) f := by
  simp only [checkClass, List.mem_append] at hf
  rcases hf with (hf | hf) | hf
  · exact isAbout_of_duplicates (fun _ => rfl) hf
  · exact isAbout_of_duplicates (fun _ => rfl) hf
  · exact isAbout_of_openVariables (fun _ => rfl) hf

theorem isAbout_of_openReturn (hsort : ∀ name, sort (.varargsReturn name))
    (hf : f ∈ p.openReturn) : p.IsAbout sort f := by
  rw [openReturn] at hf
  split at hf
  · cases hf
  · next q hq =>
    split at hf
    · split at hf
      · rw [List.mem_singleton.mp hf]
        exact isAbout_child (mem_children_of_child? hq) (hsort _)
      · cases hf
    · cases hf

theorem isAbout_of_openParameters (hsort : ∀ name, sort (.varargsNotLast name))
    (hf : f ∈ p.openParameters) : p.IsAbout sort f := by
  obtain ⟨x, hx, rfl⟩ := List.mem_map.mp hf
  have hmem := (List.dropLast_sublist _).subset (fst_mem_of_mem_openTails hx)
  exact isAbout_child (mem_children_of_childrenOf hmem) (hsort _)

theorem isAbout_of_unlikeParameters (hsort : ∀ first second, sort (.different first second))
    (hf : f ∈ p.unlikeParameters) : p.IsAbout sort f := by
  rw [unlikeParameters] at hf
  split at hf
  · simp only at hf
    split at hf
    · cases hf
    · obtain ⟨v, -, rfl⟩ := List.mem_map.mp hf
      exact isAbout_self (hsort ..)
  · cases hf

theorem isAbout_of_checkMethod (hf : f ∈ p.checkMethod) :
    p.IsAbout (·.concerns .methodDecl) f := by
  simp only [checkMethod, List.mem_append] at hf
  rcases hf with ((((hf | hf) | hf) | hf) | hf) | hf
  · exact isAbout_of_duplicates (fun _ => rfl) hf
  · exact isAbout_of_duplicates (fun _ => rfl) hf
  · exact isAbout_of_openReturn (fun _ => rfl) hf
  · exact isAbout_of_openParameters (fun _ => rfl) hf
  · exact isAbout_of_openVariables (fun _ => rfl) hf
  · exact isAbout_of_unlikeParameters (fun _ _ => rfl) hf

theorem isAbout_of_arraysBeside (hsort : ∀ name, sort (.loopWithArray name))
    (hf : f ∈ p.arraysBeside) : p.IsAbout sort f := by
  rw [arraysBeside] at hf
  split at hf
  · cases hf
  · obtain ⟨v, -, rfl⟩ := List.mem_map.mp hf
    exact isAbout_self (hsort v.name)

/-- A node is found fault with at itself or at one of its children, and only under
rules that concern nodes of its kind. -/
theorem finds_check (d : Declarations) (p : Place) :
    (p.check d).Finds (p.IsAbout (·.concerns p.tree.kind)) := by
  have hvalue : ∀ {k : Kind} {x : Review Unit}, x.Finds (p.IsAbout Problem.isAboutTypes) →
      x.Finds (p.IsAbout (·.concerns k)) := fun h => h.mono fun f hf =>
    hf.mono fun _ h => Problem.concerns_of_isAboutTypes h _
  rcases e : p.tree.kind <;> rw [check_eq] <;> simp only [e]
  case program => exact finds_found fun f => isAbout_of_checkProgram
  case classDecl => exact finds_found fun f => isAbout_of_checkClass
  case methodDecl => exact finds_found fun f => isAbout_of_checkMethod
  case assignment =>
    rw [checkAssignment_eq]
    exact (finds_checkTarget (isAbout_self rfl) (isAbout_self rfl)).bind fun _ =>
      hvalue finds_checkAssignedValue
  case elementAssignment =>
    rw [checkElementAssignment_eq]
    exact (finds_checkTarget (isAbout_self rfl) (isAbout_self rfl)).bind fun _ =>
      finds_checkAssignedElement (isAbout_self rfl) (fun _ => isAbout_self rfl)
        fun _ _ _ => isAbout_self rfl
  case returnStmt =>
    exact finds_checkReturn (fun _ => isAbout_self rfl) fun _ _ _ => isAbout_self rfl
  case conditional => exact hvalue finds_checkCondition
  case loop =>
    rw [checkLoop_eq]
    exact (hvalue finds_checkCondition).bind fun _ => finds_found fun f =>
      isAbout_of_arraysBeside fun _ => rfl
  case identifier => exact finds_checkIdentifier
  case self =>
    rw [checkSelf_eq]
    exact finds_reportIf fun _ => isAbout_self rfl
  case arithmetic => exact hvalue finds_checkArithmetic
  case logical => exact hvalue finds_checkLogical
  case call =>
    exact finds_checkCall (fun _ _ _ => isAbout_self rfl)
      (fun a ha _ _ _ => isAbout_child ha rfl) (fun a ha _ _ => isAbout_child ha rfl)
      (isAbout_self rfl)
  case elementRead => exact hvalue finds_checkElementRead
  case arrayLiteral => exact hvalue finds_checkArrayLiteral
  case length => exact hvalue finds_checkLength
  all_goals exact finds_pure ()

end Place

/-! ### The findings about a program -/

/-- If no fault ends the checks, the findings about a program are those about its
nodes in reading order. -/
theorem Place.findings_review {d : Declarations} {root : Place} (h : (root.review d).Completes) :
    (root.review d).findings = root.preorder.flatMap fun p => (p.check d).findings := by
  rw [review_eq] at h ⊢
  exact Review.findings_forM h

namespace Declarations

variable {d : Declarations} {root : Place} {ds : Diagnostics}

/-- What is reported is what was found. -/
theorem toList_of_analyze (h : d.analyze root = .ok ds) :
    ds.toList = (root.preorder.flatMap fun p => (p.check d).findings).map (·.diagnostic) := by
  rw [analyze_eq] at h
  obtain ⟨⟨⟩, houtcome, rfl⟩ := map_eq_ok h
  show (root.review d).findings.map (·.diagnostic) = _
  rw [Place.findings_review ⟨(), houtcome⟩]

/-- What is found at a node of a program is reported. -/
theorem mem_of_mem_findings (h : d.analyze root = .ok ds) {p : Place} (hp : p ∈ root.preorder)
    {f : Finding} (hf : f ∈ (p.check d).findings) : f.diagnostic ∈ ds.toList := by
  rw [toList_of_analyze h]
  exact List.mem_map_of_mem (List.mem_flatMap.mpr ⟨p, hp, hf⟩)

end Declarations

end JavaMinus
