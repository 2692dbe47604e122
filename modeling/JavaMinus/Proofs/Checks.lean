/-
JavaMinus/Proofs/Checks.lean

What each check finds.

Checks append to the sink that they are handed, so all there is to know of one is what
it reports into an empty sink and how it ends there (`Inspection.Appends.apply_eq`).
This is its review.  The review of checks that are run one after another is put
together from their reviews (`Inspection.review_bind`, `Inspection.review_forM`), so
that of each check is written down here in the form of the check itself, without a
sink.  In particular the checks report nothing about a program just if the check of
each of its places is clean (`Declarations.check_eq_pure`).
-/
import JavaMinus.Proofs.Inspections
import JavaMinus.Proofs.Reviews

namespace JavaMinus

/-- What a check found, if that is what stands there. -/
def Entry.finding? : Entry → Option Finding
  | earlier _ => none
  | found f => some f

namespace Inspection

variable {α β : Type}

theorem filterMap_finding?_map_found (fs : List Finding) :
    (fs.map .found).filterMap Entry.finding? = fs := by
  rw [List.filterMap_map]
  exact List.filterMap_some

/-- What an inspection reports into an empty sink, and how it ends there. -/
def review (x : Inspection α) : Review α := ⟨(x []).1.filterMap Entry.finding?, (x []).2⟩

theorem review_of_apply_eq {x : Inspection α} {fs : List Finding} {outcome : Except Fault α}
    (h : ∀ sink, x sink = (sink ++ fs.map .found, outcome)) : x.review = ⟨fs, outcome⟩ := by
  rw [review, h, List.nil_append, filterMap_finding?_map_found]

/-- An inspection that appends puts its review into any sink. -/
theorem Appends.apply_eq {x : Inspection α} (hx : x.Appends) (sink : Sink) :
    x sink = (sink ++ x.review.findings.map .found, x.review.outcome) := by
  obtain ⟨fs, outcome, h⟩ := hx
  rw [review_of_apply_eq h, h]

theorem review_reportIf (condition : Bool) (p : Place) (problem : Problem) :
    (reportIf condition p problem).review = .reportIf condition p problem := by
  cases condition <;> rfl

theorem review_bind {x : Inspection α} {f : α → Inspection β} {r : Review α} {g : α → Review β}
    (hx : x.review = r) (happends : ∀ a, (f a).Appends) (hf : ∀ a, (f a).review = g a) :
    (x >>= f).review = r >>= g := by
  obtain rfl := hx
  obtain rfl : (fun a => (f a).review) = g := funext hf
  show Review.mk ((x.andThen f []).1.filterMap _) (x.andThen f []).2 = x.review >>= _
  rw [andThen, review]
  obtain ⟨sink, fault | a⟩ := x []
  · rfl
  · dsimp only
    rw [(happends a).apply_eq, List.filterMap_append, filterMap_finding?_map_found]
    rfl

theorem review_ofExcept_bind {x : Except Fault α} {f : α → Inspection β} {g : α → Review β}
    (hf : ∀ a, (f a).review = g a) : (ofExcept x >>= f).review = .ofExcept x >>= g := by
  cases x with
  | error fault => rfl
  | ok a => exact hf a

/-- Of a type that is not known nothing is found. -/
theorem review_known {type : Except Fault (Option Ty)} {f : Ty → Inspection Unit}
    {g : Ty → Review Unit} (hf : ∀ ty, (f ty).review = g ty) :
    Inspection.review (do match ← ofExcept type with
      | none => pure ()
      | some ty => f ty) = (do match ← Review.ofExcept type with
      | none => pure ()
      | some ty => g ty) := by
  refine review_ofExcept_bind fun found => ?_
  cases found with
  | none => rfl
  | some ty => exact hf ty

theorem review_forM {f : α → Inspection Unit} {g : α → Review Unit} (happends : ∀ a, (f a).Appends)
    (hf : ∀ a, (f a).review = g a) (xs : List α) : (xs.forM f).review = xs.forM g := by
  induction xs with
  | nil => rfl
  | cons x rest ih => exact review_bind (hf x) (fun _ => appends_forM happends rest) fun _ => ih

/-- A loop whose steps find one thing at most and cannot end in a fault. -/
theorem review_forM_found {f : α → Inspection Unit} {g : α → Option Finding}
    (happends : ∀ a, (f a).Appends) (hf : ∀ a, (f a).review = .found (g a).toList) (xs : List α) :
    (xs.forM f).review = .found (xs.filterMap g) := by
  induction xs with
  | nil => rfl
  | cons x rest ih =>
    refine (review_bind (hf x) (fun _ => appends_forM happends rest) fun _ => ih).trans ?_
    rw [List.filterMap_cons]
    cases g x <;> rfl

/-- A loop whose steps compare each entry with a condition. -/
theorem review_forM_reportIf (condition : α → Bool) (p : Place) (problem : α → Problem)
    (xs : List α) :
    (xs.forM fun x => reportIf (condition x) p (problem x)).review =
      .found ((xs.filter condition).map fun x => p.finding (problem x)) := by
  rw [← List.filterMap_eq_filter, List.map_filterMap]
  refine review_forM_found (fun _ => appends_reportIf ..) (fun x => ?_) xs
  rw [review_reportIf, Option.guard]
  cases condition x <;> rfl

end Inspection

namespace Place

open Inspection

variable (d : Declarations)

/-! ### Names -/

def checkIdentifier (p : Place) : Review Unit := (p.inspectIdentifier d).review

theorem checkIdentifier_eq (p : Place) : p.checkIdentifier d = (do
    .reportIf (p.binding? d).isNone p (.undefinedVariable p.tree.name)
    .reportIf (p.isStatic d && (p.binding? d).any (·.origin == .field)) p
      (.fieldRead p.tree.name)) :=
  review_bind (review_reportIf ..) (fun _ => appends_reportIf ..) fun _ => review_reportIf ..

def checkSelf (p : Place) : Review Unit := (p.inspectSelf d).review

theorem checkSelf_eq (p : Place) : p.checkSelf d = .reportIf (p.isStatic d) p .selfUse :=
  review_reportIf ..

def checkTarget (p : Place) : Review Unit := (p.inspectTarget d).review

theorem checkTarget_eq (p : Place) : p.checkTarget d = (do
    .reportIf (p.target? d).isNone p (.undefinedVariable p.tree.name)
    .reportIf (p.isStatic d && (d.field? p.tree.name).isSome) p (.fieldWrite p.tree.name)) :=
  review_bind (review_reportIf ..) (fun _ => appends_reportIf ..) fun _ => review_reportIf ..

/-! ### Values -/

/-- The type of an expression, in a review. -/
def typed (p : Place) : Review (Option Ty) := .ofExcept (p.type d)

def wantType (wanted : Ty) (problem : Ty → Problem) (value site : Place) : Review Unit :=
  (demandType d wanted problem value site).review

theorem wantType_eq (wanted : Ty) (problem : Ty → Problem) (value site : Place) :
    wantType d wanted problem value site = (do
      match ← value.typed d with
      | none => pure ()
      | some ty => .reportIf (ty != wanted) site (problem ty)) :=
  review_known fun _ => review_reportIf ..

def wantCompatible (declared : Ty) (value site : Place) : Review Unit :=
  (demandCompatible d declared value site).review

theorem wantCompatible_eq (declared : Ty) (value site : Place) :
    wantCompatible d declared value site = (do
      match ← value.typed d with
      | none => pure ()
      | some ty => .reportIf (!d.compatible ty declared) site (.incompatible ty declared)) :=
  review_known fun _ => review_reportIf ..

def checkOperands (wanted : Ty) (p : Place) : Review Unit := (p.inspectOperands d wanted).review

theorem checkOperands_eq (wanted : Ty) (p : Place) : p.checkOperands d wanted = (do
    match p.child? 0, p.child? 1 with
    | some left, some right =>
      let leftType := (← left.typed d).getD wanted
      let rightType := (← right.typed d).getD wanted
      .reportIf (leftType != wanted || rightType != wanted) p
        (.incompatible leftType rightType)
    | _, _ => pure ()) := by
  rw [checkOperands, inspectOperands]
  cases p.child? 0 with
  | none => rfl
  | some left =>
    cases p.child? 1 with
    | none => rfl
    | some right =>
      exact review_ofExcept_bind fun _ => review_ofExcept_bind fun _ => review_reportIf ..

def checkArithmetic (p : Place) : Review Unit := (p.inspectArithmetic d).review

theorem checkArithmetic_eq (p : Place) : p.checkArithmetic d = (do
    let _ ← .ofExcept (ArithmeticOperator.ofTree p.tree)
    p.checkOperands d .int) :=
  review_ofExcept_bind fun _ => rfl

def checkLogical (p : Place) : Review Unit := (p.inspectLogical d).review

theorem checkLogical_eq (p : Place) : p.checkLogical d = (do
    let op ← .ofExcept (LogicalOperator.ofTree p.tree)
    p.checkOperands d (if op.isConnective then .boolean else .int)) :=
  review_ofExcept_bind fun _ => rfl

def checkCondition (p : Place) : Review Unit := (p.inspectCondition d).review

theorem checkCondition_eq (p : Place) : p.checkCondition d =
    match p.child? 0 with
    | none => pure ()
    | some condition =>
      wantType d .boolean (.incompatible · .boolean) condition condition := by
  rw [checkCondition, inspectCondition]
  cases p.child? 0 <;> rfl

def checkAssignedValue (p : Place) : Review Unit := (p.inspectAssignedValue d).review

theorem checkAssignedValue_eq (p : Place) : p.checkAssignedValue d = (do
    match p.target? d, p.child? 0 with
    | some target, some value =>
      if value.tree.kind == .arrayLiteral || value.isUnboundIdentifier d then pure ()
      else
        match ← value.typed d with
        | none => pure ()
        | some source =>
          match assignmentProblem? d p.tree.name source target.ty with
          | none => pure ()
          | some problem => .report p problem
    | _, _ => pure ()) := by
  rw [checkAssignedValue, inspectAssignedValue]
  cases p.target? d with
  | none => rfl
  | some target =>
    cases p.child? 0 with
    | none => rfl
    | some value =>
      dsimp only
      split
      · rfl
      · refine review_known fun source => ?_
        cases assignmentProblem? d p.tree.name source target.ty <;> rfl

def checkAssignment (p : Place) : Review Unit := (p.inspectAssignment d).review

theorem checkAssignment_eq (p : Place) : p.checkAssignment d = (do
    p.checkTarget d
    p.checkAssignedValue d) :=
  review_bind rfl (fun _ => appends_inspectAssignedValue d p) fun _ => rfl

def checkReturn (p : Place) : Review Unit := (p.inspectReturn d).review

theorem checkReturn_eq (p : Place) : p.checkReturn d = (do
    match p.method? with
    | none => pure ()
    | some method =>
      let declared := (d.returnType? method).getD .void
      match p.child? 0 with
      | none => .reportIf (declared != .void) p (.incompatible .void declared)
      | some value =>
        if value.isUnboundIdentifier d then pure ()
        else
          match ← value.typed d with
          | none => pure ()
          | some actual =>
            .reportIf (declared == .void || !d.compatible actual declared) p
              (.incompatible actual declared)) := by
  rw [checkReturn, inspectReturn]
  cases p.method? with
  | none => rfl
  | some method =>
    cases p.child? 0 with
    | none => exact review_reportIf ..
    | some value =>
      dsimp only
      split
      · rfl
      · exact review_known fun _ => review_reportIf ..

/-! ### Arrays -/

def wantArray (problem : String → Problem) (array site : Place) : Review Unit :=
  (demandArray d problem array site).review

theorem wantArray_eq (problem : String → Problem) (array site : Place) :
    wantArray d problem array site = (do
      match ← array.typed d with
      | none => pure ()
      | some ty => .reportIf (!ty.isArray) site (problem array.tree.describe)) :=
  review_known fun _ => review_reportIf ..

def checkElementRead (p : Place) : Review Unit := (p.inspectElementRead d).review

theorem checkElementRead_eq (p : Place) : p.checkElementRead d = (do
    match p.child? 0, p.child? 1 with
    | some array, some index =>
      wantArray d .notAnArray array p
      wantType d .int .indexType index p
    | _, _ => pure ()) := by
  rw [checkElementRead, inspectElementRead]
  cases p.child? 0 with
  | none => rfl
  | some array =>
    cases p.child? 1 with
    | none => rfl
    | some index => exact review_bind rfl (fun _ => appends_demandType ..) fun _ => rfl

def checkLength (p : Place) : Review Unit := (p.inspectLength d).review

theorem checkLength_eq (p : Place) : p.checkLength d =
    match p.child? 0 with
    | none => pure ()
    | some array => wantArray d .lengthOfNonArray array p := by
  rw [checkLength, inspectLength]
  cases p.child? 0 <;> rfl

def checkAssignedElement (p : Place) : Review Unit := (p.inspectAssignedElement d).review

theorem checkAssignedElement_eq (p : Place) : p.checkAssignedElement d = (do
    match p.target? d with
    | none => pure ()
    | some target =>
      match target.ty.element? with
      | none => .report p (.notAnArray p.tree.name)
      | some element =>
        match p.child? 0 with
        | none => pure ()
        | some index => wantType d .int .indexType index p
        match p.child? 1 with
        | none => pure ()
        | some value => wantCompatible d element value p) := by
  rw [checkAssignedElement, inspectAssignedElement]
  cases p.target? d with
  | none => rfl
  | some target =>
    dsimp only
    cases target.ty.element? with
    | none => rfl
    | some element =>
      cases p.child? 0 with
      | none => cases p.child? 1 <;> rfl
      | some index =>
        cases p.child? 1 with
        | none => exact review_bind rfl (fun _ => appends_pure ()) fun _ => rfl
        | some value => exact review_bind rfl (fun _ => appends_demandCompatible ..) fun _ => rfl

def checkElementAssignment (p : Place) : Review Unit := (p.inspectElementAssignment d).review

theorem checkElementAssignment_eq (p : Place) : p.checkElementAssignment d = (do
    p.checkTarget d
    p.checkAssignedElement d) :=
  review_bind rfl (fun _ => appends_inspectAssignedElement d p) fun _ => rfl

/-- The elements of known type whose type is not that of the first one. -/
def unlikeElements (p : Place) : List Ty → List Finding
  | [] => []
  | first :: rest => (rest.filter (· != first)).map fun ty => p.finding (.different first ty)

theorem review_inspectElements (p : Place) (types : List Ty) :
    (p.inspectElements types).review = .found (p.unlikeElements types) := by
  cases types with
  | nil => rfl
  | cons first rest => exact review_forM_reportIf ..

/-- The finding against an array literal that stands right below an assignment. -/
def literalAssigned (p : Place) (first : Option Ty) : List Finding :=
  match p.parent? with
  | none => []
  | some statement =>
    if statement.tree.kind == .assignment then
      match statement.target? d with
      | none => []
      | some target =>
        ((literalProblem? statement.tree.name target.ty first).map p.finding).toList
    else []

theorem review_inspectAssignedLiteral (p : Place) (first : Option Ty) :
    (p.inspectAssignedLiteral d first).review = .found (p.literalAssigned d first) := by
  rw [inspectAssignedLiteral, literalAssigned]
  cases p.parent? with
  | none => rfl
  | some statement =>
    dsimp only
    split
    · cases statement.target? d with
      | none => rfl
      | some target =>
        dsimp only
        cases literalProblem? statement.tree.name target.ty first <;> rfl
    · rfl

def checkArrayLiteral (p : Place) : Review Unit := (p.inspectArrayLiteral d).review

/-- The check of a literal types all elements before it finds anything. -/
theorem checkArrayLiteral_eq (p : Place) : p.checkArrayLiteral d = (do
    let types ← .ofExcept (p.children.mapM (·.type d))
    let known := types.filterMap id
    .found (p.unlikeElements known)
    .found (p.literalAssigned d known.head?)) := by
  rw [checkArrayLiteral, inspectArrayLiteral, mapM_ofExcept]
  exact review_ofExcept_bind fun types => review_bind (review_inspectElements ..)
    (fun _ => appends_inspectAssignedLiteral ..) fun _ => review_inspectAssignedLiteral ..

/-- The arrays declared by the children of a place. -/
def declaredArrays (p : Place) : List Variable :=
  ((p.tree.childrenOf .variableDecl).filterMap (·.declaredVariable.toOption)).filter
    (·.ty.isArray)

/-- Every array declared beside a loop whose name stands in the loop. -/
def arraysBeside (p : Place) : List Finding :=
  match p.parent? with
  | none => []
  | some scope =>
    (scope.declaredArrays.filter (p.usedNames.contains ·.name)).map fun v =>
      p.finding (.loopWithArray v.name)

theorem review_inspectArraysBeside (p : Place) :
    p.inspectArraysBeside.review = .found p.arraysBeside := by
  rw [inspectArraysBeside, arraysBeside]
  cases p.parent? with
  | none => rfl
  | some scope =>
    dsimp only
    rw [declaredArrays, List.filter_filter, List.filter_filterMap, List.map_filterMap]
    refine review_forM_found (appends_inspectBeside p) (fun t => ?_) _
    rw [inspectBeside]
    cases t.declaredVariable with
    | error => rfl
    | ok v =>
      show (reportIf _ p _).review = .found ((Option.filter _ (some v)).map _).toList
      rw [Option.filter_some, Bool.and_comm]
      cases p.usedNames.contains v.name && v.ty.isArray <;> rfl

def checkLoop (p : Place) : Review Unit := (p.inspectLoop d).review

theorem checkLoop_eq (p : Place) : p.checkLoop d = (do
    p.checkCondition d
    .found p.arraysBeside) :=
  review_bind rfl (fun _ => appends_inspectArraysBeside p) fun _ => review_inspectArraysBeside p

/-! ### Calls -/

def checkFixedArguments (arguments : List Place) (parameters : List Variable) : Review Unit :=
  (inspectFixedArguments d arguments parameters).review

theorem checkFixedArguments_cons (argument : Place) (arguments : List Place) (parameter : Variable)
    (parameters : List Variable) :
    checkFixedArguments d (argument :: arguments) (parameter :: parameters) = (do
      wantCompatible d parameter.ty argument argument
      checkFixedArguments d arguments parameters) :=
  review_bind rfl (fun _ => appends_inspectFixedArguments ..) fun _ => rfl

def checkOpenArguments (element : Ty) (arguments : List Place) : Review Unit :=
  (inspectOpenArguments d element arguments).review

theorem checkOpenArguments_eq (element : Ty) (arguments : List Place) :
    checkOpenArguments d element arguments = (do
      if ← .ofExcept (areOneArray d element arguments) then pure ()
      else arguments.forM fun argument =>
        wantType d element (.different · element) argument argument) := by
  refine review_ofExcept_bind fun single => ?_
  cases single with
  | true => rfl
  | false => exact review_forM (fun _ => appends_demandType ..) (fun _ => rfl) arguments

def checkArguments (p : Place) (method : String) : Review Unit :=
  (p.inspectArguments d method).review

theorem checkArguments_eq (p : Place) (method : String) : p.checkArguments d method = (do
    let parameters := d.parameters method
    let fixed := Parameters.fixed parameters
    let arguments := p.arguments
    match Parameters.openTail? parameters with
    | none =>
      if arguments.length = fixed.length then checkFixedArguments d arguments fixed
      else .report p (.argumentCount method parameters.length arguments.length)
    | some tail =>
      if fixed.length ≤ arguments.length then
        checkFixedArguments d arguments fixed
        checkOpenArguments d (tail.ty.element?.getD .int) (arguments.drop fixed.length)
      else .report p (.argumentCount method parameters.length arguments.length)) := by
  rw [checkArguments, inspectArguments]
  dsimp only
  cases Parameters.openTail? (d.parameters method) with
  | none =>
    dsimp only
    split <;> rfl
  | some tail =>
    dsimp only
    split
    · exact review_bind rfl (fun _ => appends_inspectOpenArguments ..) fun _ => rfl
    · rfl

def checkCall (p : Place) : Review Unit := (p.inspectCall d).review

theorem checkCall_eq (p : Place) : p.checkCall d = (do
    if ← .ofExcept (p.callsImport d) then pure ()
    else if d.hasMethod p.tree.name then
      if ← .ofExcept (d.targetsOwnClass p.method? p.tree) then p.checkArguments d p.tree.name
      else pure ()
    else .reportIf d.superName.isNone p (.undefinedMethod p.tree.name)) := by
  refine review_ofExcept_bind fun onImport => ?_
  cases onImport with
  | true => rfl
  | false =>
    cases d.hasMethod p.tree.name with
    | false => exact review_reportIf ..
    | true =>
      refine review_ofExcept_bind fun own => ?_
      cases own <;> rfl

/-! ### Declarations -/

/-- The entries whose key stands before them already, with that key.  Entries without a
key are passed over. -/
def repeats (key : String) : List String → List Place → List (Place × String)
  | _, [] => []
  | seen, p :: rest =>
    match p.tree.get? key with
    | none => repeats key seen rest
    | some name =>
      if seen.contains name then (p, name) :: repeats key seen rest
      else repeats key (name :: seen) rest

/-- Every second and later declaration of a name in a scope. -/
def duplicates (scope : DeclarationScope) (key : String) (declarations : List Place) :
    List Finding :=
  (repeats key [] declarations).map fun (p, name) => p.finding (.duplicate scope name)

theorem review_inspectScope (scope : DeclarationScope) (key : String) (ps : List Place) :
    (inspectScope scope key ps).review = .found (duplicates scope key ps) := by
  rw [inspectScope, duplicates]
  generalize ([] : List String) = seen
  induction ps generalizing seen with
  | nil => rfl
  | cons p rest ih =>
    rw [inspectNames, repeats]
    cases p.tree.get? key with
    | none => exact ih seen
    | some name =>
      dsimp only
      split
      · exact review_bind rfl (fun _ => appends_inspectNames ..) fun _ => ih seen
      · exact ih (name :: seen)

/-- The declarations with a type of open tail, with what they declare. -/
def openTails (declarations : List Place) : List (Place × Variable) :=
  declarations.filterMap fun p =>
    match p.tree.declaredVariable with
    | .ok v => if v.ty.isVarargs then some (p, v) else none
    | .error _ => none

theorem review_inspectOpenTails (problem : String → Problem) (ps : List Place) :
    (inspectOpenTails problem ps).review =
      .found ((openTails ps).map fun (p, v) => p.finding (problem v.name)) := by
  rw [openTails, List.map_filterMap]
  refine review_forM_found (appends_inspectOpenTail problem) (fun p => ?_) ps
  rw [inspectOpenTail]
  cases p.tree.declaredVariable with
  | error => rfl
  | ok v =>
    dsimp only
    cases v.ty.isVarargs <;> rfl

/-- Every field or local with an open tail. -/
def openVariables (declarations : List Place) : List Finding :=
  (openTails declarations).map fun (p, v) => p.finding (.varargsVariable v.name)

/-- An open tail as the return type, which stands first in a method. -/
def openReturn (method : Place) : List Finding :=
  match method.child? 0 with
  | none => []
  | some p =>
    match p.tree.kind, p.tree.denotedType with
    | .typeName, .ok ty =>
      if ty.isVarargs then [p.finding (.varargsReturn method.tree.name)] else []
    | _, _ => []

theorem review_inspectOpenReturn (method : Place) :
    method.inspectOpenReturn.review = .found method.openReturn := by
  rw [inspectOpenReturn, openReturn]
  cases method.child? 0 with
  | none => rfl
  | some p =>
    dsimp only
    cases p.tree.kind
    case typeName =>
      cases p.tree.denotedType with
      | error => rfl
      | ok ty =>
        dsimp only
        rw [review_reportIf]
        cases ty.isVarargs <;> rfl
    all_goals rfl

/-- Every parameter with an open tail before the last one. -/
def openParameters (method : Place) : List Finding :=
  (openTails (method.childrenOf .parameter).dropLast).map fun (p, v) =>
    p.finding (.varargsNotLast v.name)

/-- In the method called `varargs`, every parameter whose element type is not that of
the first one. -/
def unlikeParameters (method : Place) : List Finding :=
  if method.tree.get? "name" == some "varargs" then
    let read (p : Place) := p.tree.declaredVariable.toOption
    match (method.childrenOf .parameter).filterMap read with
    | [] => []
    | first :: rest =>
      (rest.filter (·.ty.name != first.ty.name)).map fun v =>
        method.finding (.different (.scalar first.ty.name) (.scalar v.ty.name))
  else []

theorem review_inspectLikeness (method : Place) :
    method.inspectLikeness.review = .found method.unlikeParameters := by
  rw [inspectLikeness, unlikeParameters]
  split
  · dsimp only
    cases (method.childrenOf .parameter).filterMap fun p => p.tree.declaredVariable.toOption with
    | nil => rfl
    | cons first rest => exact review_forM_reportIf ..
  · rfl

def checkProgram (p : Place) : List Finding :=
  duplicates .imports "value" (p.childrenOf .importDecl)

def checkClass (p : Place) : List Finding :=
  duplicates .fields "name" (p.childrenOf .variableDecl) ++
  duplicates .methods "name" (p.childrenOf .methodDecl) ++
  openVariables (p.childrenOf .variableDecl)

theorem review_inspectClass (p : Place) : p.inspectClass.review = .found p.checkClass := by
  rw [checkClass, List.append_assoc]
  exact review_bind (review_inspectScope ..)
    (fun _ => (appends_inspectScope ..).bind fun _ => appends_inspectOpenTails ..)
    fun _ => review_bind (review_inspectScope ..) (fun _ => appends_inspectOpenTails ..)
      fun _ => review_inspectOpenTails ..

def checkMethod (p : Place) : List Finding :=
  duplicates .parameters "name" (p.childrenOf .parameter) ++
  duplicates .locals "name" (p.childrenOf .variableDecl) ++
  p.openReturn ++ p.openParameters ++
  openVariables (p.childrenOf .variableDecl) ++
  p.unlikeParameters

theorem review_inspectMethod (p : Place) : p.inspectMethod.review = .found p.checkMethod := by
  -- what is left to check after each step
  have hlikeness := appends_inspectLikeness p
  have hlocals := (appends_inspectOpenTails .varargsVariable (p.childrenOf .variableDecl)).bind
    fun _ => hlikeness
  have hparameters := (appends_inspectOpenTails .varargsNotLast
    (p.childrenOf .parameter).dropLast).bind fun _ => hlocals
  have hreturn := (appends_inspectOpenReturn p).bind fun _ => hparameters
  have hscope := (appends_inspectScope .locals "name" (p.childrenOf .variableDecl)).bind
    fun _ => hreturn
  simp only [checkMethod, List.append_assoc]
  exact review_bind (review_inspectScope ..) (fun _ => hscope) fun _ =>
    review_bind (review_inspectScope ..) (fun _ => hreturn) fun _ =>
      review_bind (review_inspectOpenReturn p) (fun _ => hparameters) fun _ =>
        review_bind (review_inspectOpenTails ..) (fun _ => hlocals) fun _ =>
          review_bind (review_inspectOpenTails ..) (fun _ => hlikeness) fun _ =>
            review_inspectLikeness p

/-! ### Nodes and programs -/

/-- What is found at a node, and how its check ends. -/
def check (p : Place) : Review Unit := (p.inspect d).review

/-- What is found at a node and at all that is in it, and how it ends. -/
def review (p : Place) : Review Unit := (p.inspectAll d).review

theorem check_eq (p : Place) : p.check d =
    match p.tree.kind with
    | .program => .found p.checkProgram
    | .classDecl => .found p.checkClass
    | .methodDecl => .found p.checkMethod
    | .assignment => p.checkAssignment d
    | .elementAssignment => p.checkElementAssignment d
    | .returnStmt => p.checkReturn d
    | .conditional => p.checkCondition d
    | .loop => p.checkLoop d
    | .identifier => p.checkIdentifier d
    | .self => p.checkSelf d
    | .arithmetic => p.checkArithmetic d
    | .logical => p.checkLogical d
    | .call => p.checkCall d
    | .elementRead => p.checkElementRead d
    | .arrayLiteral => p.checkArrayLiteral d
    | .length => p.checkLength d
    | .importDecl | .variableDecl | .typeName | .parameter | .expressionStmt | .block
    | .integer | .boolean | .newObject | .newArray => pure () := by
  rw [check, inspect]
  cases p.tree.kind
  case program => exact review_inspectScope ..
  case classDecl => exact review_inspectClass p
  case methodDecl => exact review_inspectMethod p
  all_goals rfl

theorem review_eq (p : Place) : p.review d = p.preorder.forM (check d) :=
  review_forM (appends_inspect d) (fun _ => rfl) p.preorder

end Place

namespace Declarations

variable {d : Declarations} {root : Place}

/-- What is found in a program is put behind what was reported before. -/
theorem analyzeInto_eq (before : Diagnostics) :
    d.analyzeInto root before =
      (before ++ ⟨(root.review d).findings.map (·.diagnostic)⟩, (root.review d).outcome) := by
  rw [analyzeInto, (Place.appends_inspectAll d root).apply_eq]
  refine Prod.ext (congrArg Diagnostics.mk ?_) rfl
  dsimp only
  rw [List.map_append, List.map_map, List.map_map]
  exact congrArg (· ++ _) (List.map_id _)

theorem analyze_eq :
    d.analyze root = (root.review d).outcome.map fun _ =>
      ⟨(root.review d).findings.map (·.diagnostic)⟩ := by
  rw [analyze, analyzeInto_eq]
  rfl

/-- If the checks report nothing about a program, each place passes its own check. -/
theorem check_eq_pure (h : d.analyze root = .ok .empty) :
    ∀ p ∈ root.preorder, p.check d = pure () := by
  refine Review.forM_eq_pure ?_
  rw [← Place.review_eq]
  rw [analyze_eq] at h
  rcases e : root.review d with ⟨fs, _ | result⟩
  · rw [e] at h
    cases h
  · rw [e] at h
    injection h with h
    have hnone := List.map_eq_nil_iff.mp (congrArg Diagnostics.toList h)
    exact Review.ext hnone rfl

end Declarations

end JavaMinus
