/-
JavaMinus/Proofs/Crossing.lean

Numbers where truth values are wanted, and truth values where numbers are.

A value flows into a declared type where it is assigned to a variable, returned,
passed to a parameter that takes one argument, or stored in an array (`Flows`).
An `int` that flows into a `boolean`, or the other way round, is found fault with
at an assignment whatever the program declares.  At the other three it is compared
under the assumptions about classes that the program does not show the inside of,
and these do not ask whether a name is that of a class: a program in which `int`
and `boolean` are both imported, or are the class and the class it extends, has
them pass for each other (`assumesAlike`).  Nor is a call checked that is taken for
one on an imported class.  These are the only ways out
(`crossing_is_reported_iff`).
-/
import JavaMinus.Proofs.Findings

namespace JavaMinus

/-! ### Types that cross -/

/-- One of the types is `int` and the other one `boolean`. -/
def Ty.Crosses (s t : Ty) : Prop := s = .int ∧ t = .boolean ∨ s = .boolean ∧ t = .int

namespace Declarations

variable (d : Declarations)

/-- Whether `int` and `boolean` are the names of two imported classes, or those of
the class and of the class it extends. -/
def assumesAlike : Bool :=
  (d.isImported "int" && d.isImported "boolean") ||
    (d.isOwnOrSuper "int" && d.isOwnOrSuper "boolean")

variable {d} {s t : Ty}

theorem compatible_of_crosses (h : s.Crosses t) : d.compatible s t = d.assumesAlike := by
  rcases h with ⟨rfl, rfl⟩ | ⟨rfl, rfl⟩
  · rfl
  · rw [assumesAlike, Bool.and_comm (d.isImported "int"), Bool.and_comm (d.isOwnOrSuper "int")]
    rfl

end Declarations

theorem Declarations.isArray_of_typeOf {d : Declarations} {scope : Option String} {t : Tree}
    {ty : Ty} (hk : t.kind = .arrayLiteral) (h : d.typeOf scope t = .ok (some ty)) :
    ty.isArray := by
  obtain ⟨head, cs⟩ := t
  have hk : head.kind = .arrayLiteral := hk
  rw [typeOf.eq_def] at h
  simp only [hk] at h
  cases cs with
  | nil =>
    cases h
    rfl
  | cons first rest =>
    obtain ⟨first?, -, h⟩ := map_eq_ok h
    cases h
    cases first? <;> rfl

/-! ### Flows -/

namespace Place

open Review

variable (d : Declarations)

/-- The method that the class declares takes as many arguments as the call has.  If
it does not, no argument is bound, and the call as a whole is found fault with. -/
def fitsCount (p : Place) : Prop :=
  let parameters := d.parameters p.tree.name
  if (Parameters.openTail? parameters).isSome then
    (Parameters.fixed parameters).length ≤ p.arguments.length
  else p.arguments.length = (Parameters.fixed parameters).length

/-- At a place a value flows into a declared type. -/
inductive Flows (p : Place) : Place → Ty → Prop
  | assigned {target : Binding} {value : Place} (kind : p.tree.kind = .assignment)
      (declared : p.target? d = some target) (here : p.child? 0 = some value) :
      Flows p value target.ty
  | returned {method : String} {value : Place} (kind : p.tree.kind = .returnStmt)
      (inside : p.method? = some method) (here : p.child? 0 = some value) :
      Flows p value ((d.returnType? method).getD .void)
  | stored {target : Binding} {element : Ty} {value : Place}
      (kind : p.tree.kind = .elementAssignment) (declared : p.target? d = some target)
      (array : target.ty.element? = some element) (here : p.child? 1 = some value) :
      Flows p value element
  | passed {parameter : Variable} {value : Place} {i : Nat} (kind : p.tree.kind = .call)
      (declared : d.hasMethod p.tree.name)
      (own : d.targetsOwnClass p.method? p.tree = .ok true) (count : p.fitsCount d)
      (takes : (Parameters.fixed (d.parameters p.tree.name))[i]? = some parameter)
      (here : p.arguments[i]? = some value) : Flows p value parameter.ty

/-- What is found fault with where a value of one type flows into another. -/
def objection (p value : Place) (source destination : Ty) : Finding :=
  match p.tree.kind with
  | .assignment =>
    p.finding (if source == .int then .intToBoolean p.tree.name else .booleanToInt p.tree.name)
  | .call => value.finding (.incompatible source destination)
  | _ => p.finding (.incompatible source destination)

/-- A flow is found fault with.  Where the value is a name that denotes nothing, it
may be the name that is found fault with. -/
inductive IsFault (p value : Place) (source destination : Ty) : Finding → Prop
  | mismatch (found : p.objection value source destination ∈ (p.check d).findings) :
      IsFault p value source destination (p.objection value source destination)
  | unbound (name : value.isUnboundIdentifier d)
      (found : value.finding (.undefinedVariable value.tree.name) ∈ (value.check d).findings) :
      IsFault p value source destination (value.finding (.undefinedVariable value.tree.name))

/-- Nothing keeps `int` and `boolean` apart at a place: it assigns to no variable and
the two pass for each other, or it is a call that is taken for one on an imported
class. -/
def IsLenient (p : Place) : Prop :=
  p.tree.kind ≠ .assignment ∧ d.assumesAlike ∨
    p.tree.kind = .call ∧ p.callsImport d = .ok true

variable {d} {p value : Place} {source destination : Ty}

theorem Flows.mem_children (h : p.Flows d value destination) : value ∈ p.children := by
  cases h with
  | assigned _ _ here => exact mem_children_of_child? here
  | returned _ _ here => exact mem_children_of_child? here
  | stored _ _ _ here => exact mem_children_of_child? here
  | passed _ _ _ _ _ here => exact mem_children_of_arguments (List.mem_of_getElem? here)

/-! ### Flows that are found fault with -/

theorem typed_bind {α : Type} {found : Option Ty} {f : Option Ty → Review α}
    (h : value.type d = .ok found) : (value.typed d >>= f) = f found := by
  rw [typed, h]
  rfl

section Mismatch

variable (htype : value.type d = .ok (some source))
include htype

theorem mem_checkAssignedValue {target : Binding} (hkind : p.tree.kind = .assignment)
    (htarget : p.target? d = some target) (hvalue : p.child? 0 = some value)
    (hcross : source.Crosses target.ty) (hbound : value.isUnboundIdentifier d = false) :
    p.objection value source target.ty ∈ (p.checkAssignedValue d).findings := by
  -- literals have rules of their own, but their types are array types
  have hliteral : (value.tree.kind == .arrayLiteral) = false := by
    apply beq_eq_false_iff_ne.mpr
    intro hk
    have harray := Declarations.isArray_of_typeOf hk htype
    rcases hcross with ⟨rfl, -⟩ | ⟨rfl, -⟩ <;> nomatch harray
  simp only [checkAssignedValue_eq, htarget, hvalue, hliteral, hbound, Bool.or_self,
    Bool.false_eq_true, if_false, typed_bind htype]
  rw [objection, hkind, assignmentProblem?]
  rcases hcross with ⟨rfl, hty⟩ | ⟨rfl, hty⟩ <;> rw [hty] <;> exact List.mem_singleton_self _

theorem mem_wantCompatible (site : Place) (hapart : d.compatible source destination = false) :
    site.finding (.incompatible source destination) ∈
      (wantCompatible d destination value site).findings := by
  rw [wantCompatible_eq, typed_bind htype]
  simp only [hapart]
  exact List.mem_singleton_self _

theorem mem_checkReturn {method : String} (hmethod : p.method? = some method)
    (hvalue : p.child? 0 = some value) (hbound : value.isUnboundIdentifier d = false)
    (hapart : d.compatible source ((d.returnType? method).getD .void) = false) :
    p.finding (.incompatible source ((d.returnType? method).getD .void)) ∈
      (p.checkReturn d).findings := by
  simp only [checkReturn_eq, hmethod, hvalue, hbound, Bool.false_eq_true, if_false,
    typed_bind htype, hapart, Bool.not_false, Bool.or_true]
  exact List.mem_singleton_self _

theorem mem_checkAssignedElement {target : Binding} {element : Ty}
    (hcompletes : (p.checkAssignedElement d).Completes) (htarget : p.target? d = some target)
    (harray : target.ty.element? = some element) (hvalue : p.child? 1 = some value)
    (hapart : d.compatible source element = false) :
    p.finding (.incompatible source element) ∈ (p.checkAssignedElement d).findings := by
  simp only [checkAssignedElement_eq, htarget, harray, hvalue] at hcompletes ⊢
  have hmem := mem_wantCompatible htype p hapart
  split at hcompletes
  · exact hmem
  · obtain ⟨⟨⟩, hindex, -⟩ := hcompletes.right
    exact mem_bind_right hindex hmem

theorem mem_checkFixedArguments {arguments : List Place} {parameters : List Variable} {i : Nat}
    {parameter : Variable} (hcompletes : (checkFixedArguments d arguments parameters).Completes)
    (hvalue : arguments[i]? = some value) (hparameter : parameters[i]? = some parameter)
    (hapart : d.compatible source parameter.ty = false) :
    value.finding (.incompatible source parameter.ty) ∈
      (checkFixedArguments d arguments parameters).findings := by
  induction arguments generalizing parameters i with
  | nil => nomatch hvalue
  | cons a arguments ih =>
    cases parameters with
    | nil => nomatch hparameter
    | cons v parameters =>
      rw [checkFixedArguments_cons] at hcompletes ⊢
      -- the rest is reached since the comparison of the first one comes to an end
      obtain ⟨⟨⟩, hfirst, hrest⟩ := hcompletes.right
      cases i with
      | zero =>
        cases hvalue
        cases hparameter
        exact mem_bind_left (mem_wantCompatible htype value hapart)
      | succ i => exact mem_bind_right hfirst (ih hrest hvalue hparameter)

theorem mem_checkArguments {method : String} {i : Nat} {parameter : Variable}
    (hname : p.tree.name = method) (hcompletes : (p.checkArguments d method).Completes)
    (hcount : p.fitsCount d) (hvalue : p.arguments[i]? = some value)
    (hparameter : (Parameters.fixed (d.parameters method))[i]? = some parameter)
    (hapart : d.compatible source parameter.ty = false) :
    value.finding (.incompatible source parameter.ty) ∈ (p.checkArguments d method).findings := by
  rw [fitsCount, hname] at hcount
  rw [checkArguments_eq] at hcompletes ⊢
  rcases htail : Parameters.openTail? (d.parameters method) with - | tail
  · rw [htail] at hcount
    simp only [htail, if_pos (show _ = _ from hcount)] at hcompletes ⊢
    exact mem_checkFixedArguments htype hcompletes hvalue hparameter hapart
  · rw [htail] at hcount
    simp only [htail, if_pos (show _ ≤ _ from hcount)] at hcompletes ⊢
    exact mem_bind_left (mem_checkFixedArguments htype hcompletes.left hvalue hparameter hapart)

/-- A flow of an `int` into a `boolean`, or the other way round, is found fault with
where the two are kept apart. -/
theorem objection_mem (hcompletes : (p.check d).Completes) (hflow : p.Flows d value destination)
    (hcross : source.Crosses destination) (hstrict : ¬ p.IsLenient d)
    (hbound : value.isUnboundIdentifier d = false) :
    p.objection value source destination ∈ (p.check d).findings := by
  have hapart (hk : p.tree.kind ≠ .assignment) : d.compatible source destination = false := by
    rw [Declarations.compatible_of_crosses hcross]
    exact Bool.eq_false_iff.mpr fun halike => hstrict (Or.inl ⟨hk, halike⟩)
  rw [check_eq] at hcompletes ⊢
  cases hflow with
  | assigned kind declared here =>
    simp only [kind, checkAssignment_eq] at hcompletes ⊢
    obtain ⟨⟨⟩, htarget, -⟩ := hcompletes.right
    exact mem_bind_right htarget (mem_checkAssignedValue htype kind declared here hcross hbound)
  | returned kind inside here =>
    rw [objection, kind]
    exact mem_checkReturn htype inside here hbound (hapart (by rw [kind]; decide))
  | stored kind declared array here =>
    rw [objection, kind]
    simp only [kind, checkElementAssignment_eq] at hcompletes ⊢
    obtain ⟨⟨⟩, htarget, hrest⟩ := hcompletes.right
    exact mem_bind_right htarget (mem_checkAssignedElement htype hrest declared array here
      (hapart (by rw [kind]; decide)))
  | passed kind declared own count takes here =>
    -- arguments are looked at only if the call is not taken for one on an import
    rw [objection, kind]
    simp only [kind, checkCall_eq] at hcompletes ⊢
    obtain ⟨onImport, himport, hrest⟩ := hcompletes.right
    cases onImport with
    | true => exact absurd (Or.inr ⟨kind, himport⟩) hstrict
    | false =>
      refine mem_bind_right himport ?_
      simp only [Bool.false_eq_true, if_false, if_pos declared, own] at hrest ⊢
      exact mem_checkArguments htype rfl hrest count here takes (hapart (by rw [kind]; decide))

end Mismatch

/-! ### Flows that are passed over -/

/-- If a crossing is what a finding is about, `int` and `boolean` do not pass for
each other. -/
def TellsApart (d : Declarations) (f : Finding) : Prop :=
  ∀ s t, s.Crosses t → f.problem = .incompatible s t → d.assumesAlike = false

theorem tellsApart_incompatible {site : Place} {found ty : Ty}
    (h : d.compatible found ty = false) : TellsApart d (site.finding (.incompatible found ty)) := by
  intro s t hcross hproblem
  cases hproblem
  rw [← Declarations.compatible_of_crosses hcross]
  exact h

theorem tellsApart_finding {site : Place} {problem : Problem}
    (h : ∀ s t, problem ≠ .incompatible s t) : TellsApart d (site.finding problem) :=
  fun s t _ hproblem => absurd hproblem (h s t)

theorem finds_check_tellsApart
    (hk : p.tree.kind = .elementAssignment ∨ p.tree.kind = .returnStmt ∨ p.tree.kind = .call) :
    (p.check d).Finds (TellsApart d) := by
  rw [check_eq]
  rcases hk with hk | hk | hk <;> simp only [hk]
  · rw [checkElementAssignment_eq]
    refine (finds_checkTarget (tellsApart_finding (by simp)) (tellsApart_finding (by simp))).bind
      fun _ => ?_
    exact finds_checkAssignedElement (tellsApart_finding (by simp))
      (fun _ => tellsApart_finding (by simp)) fun _ _ => tellsApart_incompatible
  · refine finds_checkReturn (fun ty s t hcross hproblem => ?_)
      fun found ty hreported s t hcross hproblem => ?_
    · cases hproblem
      rcases hcross with ⟨hvoid, -⟩ | ⟨hvoid, -⟩ <;> exact absurd hvoid (by decide)
    · cases hproblem
      rw [Declarations.compatible_of_crosses hcross] at hreported
      rcases hcross with ⟨-, rfl⟩ | ⟨-, rfl⟩ <;> simpa [Ty.int, Ty.boolean, Ty.void] using hreported
  · exact finds_checkCall (fun _ _ _ => tellsApart_finding (by simp))
      (fun _ _ _ _ => tellsApart_incompatible) (fun _ _ _ _ => tellsApart_finding (by simp))
      (tellsApart_finding (by simp))

theorem Flows.kind (h : p.Flows d value destination) (hk : p.tree.kind ≠ .assignment) :
    p.tree.kind = .elementAssignment ∨ p.tree.kind = .returnStmt ∨ p.tree.kind = .call := by
  cases h with
  | assigned kind _ _ => exact absurd kind hk
  | returned kind _ _ => exact Or.inr (Or.inl kind)
  | stored kind _ _ _ => exact Or.inl kind
  | passed kind _ _ _ _ _ => exact Or.inr (Or.inr kind)

/-- A call that is taken for one on an imported class is not found fault with. -/
theorem findings_of_callsImport (hk : p.tree.kind = .call) (h : p.callsImport d = .ok true) :
    (p.check d).findings = [] := by
  rw [check_eq]
  simp only [hk, checkCall_eq, h]
  rfl

theorem objection_not_mem (hflow : p.Flows d value destination)
    (hcross : source.Crosses destination) (hlenient : p.IsLenient d) :
    p.objection value source destination ∉ (p.check d).findings := by
  intro hmem
  rcases hlenient with ⟨hk, halike⟩ | ⟨hk, himport⟩
  · have hproblem : (p.objection value source destination).problem =
        .incompatible source destination := by
      rcases hflow.kind hk with e | e | e <;> rw [objection, e] <;> rfl
    have hapart := finds_check_tellsApart (hflow.kind hk) _ hmem _ _ hcross hproblem
    rw [halike] at hapart
    nomatch hapart
  · rw [findings_of_callsImport hk himport] at hmem
    nomatch hmem

/-- A name that denotes nothing is found where it stands. -/
theorem undefinedVariable_mem (hbound : value.isUnboundIdentifier d) :
    value.finding (.undefinedVariable value.tree.name) ∈ (value.check d).findings := by
  obtain ⟨hk, hnone⟩ := Bool.and_eq_true_iff.mp hbound
  rw [check_eq]
  simp only [eq_of_beq hk, checkIdentifier_eq]
  rw [findings_reportIf_bind, hnone]
  exact List.mem_append_left _ (List.mem_singleton_self _)

/-- In a program that the checks get through, an `int` that flows into a `boolean`,
or the other way round, is reported just if nothing lets them pass for each other
at that place, or the value is a name that denotes nothing. -/
theorem crossing_is_reported_iff {root : Place} {ds : Diagnostics}
    (hanalyzed : d.analyze root = .ok ds) (hp : p ∈ root.preorder)
    (hflow : p.Flows d value destination) (htype : value.type d = .ok (some source))
    (hcross : source.Crosses destination) :
    (∃ f, p.IsFault d value source destination f ∧ f.diagnostic ∈ ds.toList) ↔
      ¬ p.IsLenient d ∨ value.isUnboundIdentifier d := by
  have hvalue : value ∈ root.preorder :=
    mem_preorder_trans (mem_preorder_of_child hflow.mem_children value.mem_preorder_self)
      root.tree root.above hp
  constructor
  · rintro ⟨f, hf, -⟩
    cases hf with
    | mismatch found =>
      exact Or.inl fun hlenient => objection_not_mem hflow hcross hlenient found
    | unbound name _ => exact Or.inr name
  · intro h
    rcases hbound : value.isUnboundIdentifier d with - | -
    · have hcompletes := Declarations.analyze_eq_ok_iff.mp ⟨ds, hanalyzed⟩ p hp
      have hstrict : ¬ p.IsLenient d := h.resolve_right (by rw [hbound]; decide)
      have hfound := objection_mem htype hcompletes hflow hcross hstrict hbound
      exact ⟨_, .mismatch hfound, Declarations.mem_of_mem_findings hanalyzed hp hfound⟩
    · have hfound := undefinedVariable_mem hbound
      exact ⟨_, .unbound hbound hfound, Declarations.mem_of_mem_findings hanalyzed hvalue hfound⟩

/-! ### A number returned for a truth value

    class Parity {
      boolean isOdd() { return 1; }
    }
-/

def oneReturned : Tree := (Form.returnStmt (some (Form.integer 1).tree)).tree

def isOdd : Tree :=
  (Form.methodDecl "isOdd" (Form.typeName "boolean" false false).tree false [oneReturned]).tree

def parityClass : Tree := (Form.classDecl "Parity" none [isOdd]).tree

/-- The class behind some imports. -/
def parity (imports : List String) : Tree :=
  (Form.program (imports.map (fun path => (Form.importDecl path).tree) ++ [parityClass])).tree

def parityDeclarations (imports : List String) : Declarations :=
  ⟨"Parity", none, imports, [], [⟨"isOdd", .boolean, [], [], false⟩]⟩

def parityReturn (imports : List String) : Place :=
  ⟨oneReturned, [isOdd, parityClass, parity imports]⟩

def parityValue (imports : List String) : Place :=
  ⟨(Form.integer 1).tree, (parityReturn imports).around⟩

theorem flows_parity (imports : List String) :
    (parityReturn imports).Flows (parityDeclarations imports) (parityValue imports) .boolean :=
  Flows.returned rfl (show (parityReturn imports).method? = some "isOdd" from rfl) rfl

theorem crossing_is_reported_iff_parity :
    ∃ ds, (parityDeclarations []).analyze (.top (parity [])) = .ok ds ∧
      ((∃ f, (parityReturn []).IsFault (parityDeclarations []) (parityValue []) .int .boolean f ∧
          f.diagnostic ∈ ds.toList) ↔
        ¬ (parityReturn []).IsLenient (parityDeclarations []) ∨
          (parityValue []).isUnboundIdentifier (parityDeclarations [])) := by
  obtain ⟨ds, h⟩ : ∃ ds, (parityDeclarations []).analyze (.top (parity [])) = .ok ds := ⟨_, rfl⟩
  have hplace : parityReturn [] ∈ (Place.top (parity [])).preorder :=
    List.mem_of_getElem? (i := 4) rfl
  exact ⟨ds, h, crossing_is_reported_iff h hplace (flows_parity []) rfl (Or.inl ⟨rfl, rfl⟩)⟩

/-- Where `int` and `boolean` are imported, a number is returned for a truth value
without a report. -/
theorem imported_crossing_unreported :
    ¬ ∀ (tree : Tree) (d : Declarations) (ds : Diagnostics) (p value : Place)
      (source destination : Ty), tree.isGrammatical → Declarations.ofTree tree = .ok d →
      d.analyze (.top tree) = .ok ds → p ∈ (Place.top tree).preorder →
      p.Flows d value destination → value.type d = .ok (some source) →
      source.Crosses destination →
      ∃ f, p.IsFault d value source destination f ∧ f.diagnostic ∈ ds.toList := by
  intro h
  have hgrammar : (parity ["int", "boolean"]).isGrammatical := by decide
  have hplace : parityReturn ["int", "boolean"] ∈
      (Place.top (parity ["int", "boolean"])).preorder := List.mem_of_getElem? (i := 6) rfl
  obtain ⟨f, -, hreported⟩ := h _ _ .empty _ _ _ _ hgrammar rfl rfl hplace
    (flows_parity ["int", "boolean"]) rfl (Or.inl ⟨rfl, rfl⟩)
  nomatch hreported

end Place

end JavaMinus
