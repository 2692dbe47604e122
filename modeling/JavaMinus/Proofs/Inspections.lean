/-
JavaMinus/Proofs/Inspections.lean

Checks put what they report behind what was reported.

A check is handed the sink, and could read it, drop entries of it or change their
order.  None does so: each leaves the sink as it was in front of what it adds, and
adds the same and ends in the same way whatever stands in the sink
(`Inspection.Appends`).  A step that reports appends, and inspections that append do
so one after another, also up to a fault between them.  From these the same is shown
for each rule, for each node (`Place.appends_inspect`), and for a whole program
(`Place.appends_inspectAll`).
-/
import JavaMinus.Check.Program

namespace JavaMinus

namespace Inspection

variable {α β : Type}

/-- What was in the sink stays in front, and what is put behind it and the outcome do
not depend on it. -/
def Appends (x : Inspection α) : Prop :=
  ∃ (added : List Finding) (outcome : Except Fault α),
    ∀ sink, x sink = (sink ++ added.map .found, outcome)

theorem appends_ofExcept (outcome : Except Fault α) : (ofExcept outcome).Appends :=
  ⟨[], outcome, fun sink => congrArg (·, outcome) (List.append_nil sink).symm⟩

theorem appends_pure (a : α) : (pure a : Inspection α).Appends := appends_ofExcept (.ok a)

theorem appends_report (p : Place) (problem : Problem) : (report p problem).Appends :=
  ⟨[p.finding problem], .ok (), fun _ => rfl⟩

theorem appends_reportIf (condition : Bool) (p : Place) (problem : Problem) :
    (reportIf condition p problem).Appends := by
  cases condition with
  | false => exact appends_pure ()
  | true => exact appends_report p problem

/-- What stands behind a fault is not run, so it adds nothing. -/
theorem Appends.bind {x : Inspection α} {f : α → Inspection β} (hx : x.Appends)
    (hf : ∀ a, (f a).Appends) : (x >>= f).Appends := by
  obtain ⟨first, outcome, hx⟩ := hx
  have hrun : ∀ sink, (x >>= f) sink = match outcome with
      | .error fault => (sink ++ first.map .found, .error fault)
      | .ok a => f a (sink ++ first.map .found) := by
    intro sink
    show x.andThen f sink = _
    rw [andThen, hx]
    cases outcome <;> rfl
  cases outcome with
  | error fault => exact ⟨first, .error fault, hrun⟩
  | ok a =>
    obtain ⟨second, outcome, hfa⟩ := hf a
    refine ⟨first ++ second, outcome, fun sink => ?_⟩
    rw [hrun, List.map_append, ← List.append_assoc]
    exact hfa _

/-- Of a type that is not known nothing is reported. -/
theorem appends_known {type : Except Fault (Option Ty)} {f : Ty → Inspection Unit}
    (hf : ∀ ty, (f ty).Appends) :
    (do match ← ofExcept type with
      | none => pure ()
      | some ty => f ty).Appends := by
  refine (appends_ofExcept type).bind fun found => ?_
  cases found with
  | none => exact appends_pure ()
  | some ty => exact hf ty

/-- A loop whose steps append does so, also if a fault ends it in between. -/
theorem appends_forM {f : α → Inspection Unit} (hf : ∀ a, (f a).Appends) (xs : List α) :
    (xs.forM f).Appends := by
  induction xs with
  | nil => exact appends_pure ()
  | cons x rest ih => exact (hf x).bind fun _ => ih

/-- Computations that report nothing, one after another, are one such computation. -/
theorem mapM_ofExcept (f : α → Except Fault β) (xs : List α) :
    (xs.mapM fun x => ofExcept (f x)) = ofExcept (xs.mapM f) := by
  suffices h : ∀ ys, List.mapM.loop (fun x => ofExcept (f x)) xs ys =
      ofExcept (List.mapM.loop f xs ys) from h []
  induction xs with
  | nil => exact fun _ => rfl
  | cons x rest ih =>
    intro ys
    funext sink
    rw [List.mapM.loop, List.mapM.loop]
    cases f x with
    | error fault => rfl
    | ok y => exact congrFun (ih (y :: ys)) sink

end Inspection

namespace Place

open Inspection

variable (d : Declarations)

/-! ### Names -/

theorem appends_inspectIdentifier (p : Place) : (p.inspectIdentifier d).Appends :=
  (appends_reportIf ..).bind fun _ => appends_reportIf ..

theorem appends_inspectTarget (p : Place) : (p.inspectTarget d).Appends :=
  (appends_reportIf ..).bind fun _ => appends_reportIf ..

/-! ### Values -/

theorem appends_demandType (wanted : Ty) (problem : Ty → Problem) (value site : Place) :
    (demandType d wanted problem value site).Appends :=
  appends_known fun _ => appends_reportIf ..

theorem appends_demandCompatible (declared : Ty) (value site : Place) :
    (demandCompatible d declared value site).Appends :=
  appends_known fun _ => appends_reportIf ..

theorem appends_inspectOperands (wanted : Ty) (p : Place) :
    (p.inspectOperands d wanted).Appends := by
  rw [inspectOperands]
  split
  · exact (appends_ofExcept _).bind fun _ => (appends_ofExcept _).bind fun _ =>
      appends_reportIf ..
  · exact appends_pure ()

theorem appends_inspectArithmetic (p : Place) : (p.inspectArithmetic d).Appends :=
  (appends_ofExcept _).bind fun _ => appends_inspectOperands d .int p

theorem appends_inspectLogical (p : Place) : (p.inspectLogical d).Appends :=
  (appends_ofExcept _).bind fun _ => appends_inspectOperands d _ p

theorem appends_inspectCondition (p : Place) : (p.inspectCondition d).Appends := by
  rw [inspectCondition]
  split
  · exact appends_pure ()
  · exact appends_demandType ..

theorem appends_inspectAssignedValue (p : Place) : (p.inspectAssignedValue d).Appends := by
  rw [inspectAssignedValue]
  split
  · split
    · exact appends_pure ()
    · refine appends_known fun source => ?_
      split
      · exact appends_pure ()
      · exact appends_report ..
  · exact appends_pure ()

theorem appends_inspectAssignment (p : Place) : (p.inspectAssignment d).Appends :=
  (appends_inspectTarget d p).bind fun _ => appends_inspectAssignedValue d p

theorem appends_inspectReturn (p : Place) : (p.inspectReturn d).Appends := by
  rw [inspectReturn]
  split
  · exact appends_pure ()
  · dsimp only
    split
    · exact appends_reportIf ..
    · split
      · exact appends_pure ()
      · exact appends_known fun _ => appends_reportIf ..

/-! ### Arrays -/

theorem appends_demandArray (problem : String → Problem) (array site : Place) :
    (demandArray d problem array site).Appends :=
  appends_known fun _ => appends_reportIf ..

theorem appends_inspectElementRead (p : Place) : (p.inspectElementRead d).Appends := by
  rw [inspectElementRead]
  split
  · exact (appends_demandArray ..).bind fun _ => appends_demandType ..
  · exact appends_pure ()

theorem appends_inspectLength (p : Place) : (p.inspectLength d).Appends := by
  rw [inspectLength]
  split
  · exact appends_pure ()
  · exact appends_demandArray ..

theorem appends_inspectAssignedElement (p : Place) : (p.inspectAssignedElement d).Appends := by
  rw [inspectAssignedElement]
  split
  · exact appends_pure ()
  · split
    · exact appends_report ..
    · next element _ =>
      dsimp only
      split <;> split
      · exact appends_pure ()
      · exact appends_demandCompatible ..
      · exact (appends_demandType ..).bind fun _ => appends_pure ()
      · exact (appends_demandType ..).bind fun _ => appends_demandCompatible ..

theorem appends_inspectElementAssignment (p : Place) :
    (p.inspectElementAssignment d).Appends :=
  (appends_inspectTarget d p).bind fun _ => appends_inspectAssignedElement d p

theorem appends_inspectElements (p : Place) (types : List Ty) :
    (p.inspectElements types).Appends := by
  cases types with
  | nil => exact appends_pure ()
  | cons first rest => exact appends_forM (fun _ => appends_reportIf ..) rest

theorem appends_inspectAssignedLiteral (p : Place) (first : Option Ty) :
    (p.inspectAssignedLiteral d first).Appends := by
  rw [inspectAssignedLiteral]
  split
  · exact appends_pure ()
  · split
    · split
      · exact appends_pure ()
      · split
        · exact appends_pure ()
        · exact appends_report ..
    · exact appends_pure ()

theorem appends_inspectArrayLiteral (p : Place) : (p.inspectArrayLiteral d).Appends := by
  rw [inspectArrayLiteral, mapM_ofExcept]
  refine (appends_ofExcept _).bind fun types => ?_
  exact (appends_inspectElements ..).bind fun _ => appends_inspectAssignedLiteral ..

theorem appends_inspectBeside (p : Place) (declaration : Tree) :
    (p.inspectBeside declaration).Appends := by
  rw [inspectBeside]
  split
  · exact appends_pure ()
  · exact appends_reportIf ..

theorem appends_inspectArraysBeside (p : Place) : p.inspectArraysBeside.Appends := by
  rw [inspectArraysBeside]
  split
  · exact appends_pure ()
  · exact appends_forM (appends_inspectBeside p) _

theorem appends_inspectLoop (p : Place) : (p.inspectLoop d).Appends :=
  (appends_inspectCondition d p).bind fun _ => appends_inspectArraysBeside p

/-! ### Calls -/

theorem appends_inspectFixedArguments (arguments : List Place) (parameters : List Variable) :
    (inspectFixedArguments d arguments parameters).Appends := by
  induction arguments generalizing parameters with
  | nil => exact appends_pure ()
  | cons argument rest ih =>
    cases parameters with
    | nil => exact appends_pure ()
    | cons parameter parameters =>
      exact (appends_demandCompatible ..).bind fun _ => ih parameters

theorem appends_inspectOpenArguments (element : Ty) (arguments : List Place) :
    (inspectOpenArguments d element arguments).Appends := by
  refine (appends_ofExcept _).bind fun single => ?_
  cases single with
  | true => exact appends_pure ()
  | false => exact appends_forM (fun _ => appends_demandType ..) arguments

theorem appends_inspectArguments (p : Place) (method : String) :
    (p.inspectArguments d method).Appends := by
  rw [inspectArguments]
  split
  · split
    · exact appends_inspectFixedArguments ..
    · exact appends_report ..
  · split
    · exact (appends_inspectFixedArguments ..).bind fun _ => appends_inspectOpenArguments ..
    · exact appends_report ..

theorem appends_inspectCall (p : Place) : (p.inspectCall d).Appends := by
  refine (appends_ofExcept _).bind fun onImport => ?_
  cases onImport with
  | true => exact appends_pure ()
  | false =>
    show (if d.hasMethod p.tree.name then _ else _ : Inspection Unit).Appends
    split
    · refine (appends_ofExcept _).bind fun own => ?_
      cases own with
      | true => exact appends_inspectArguments ..
      | false => exact appends_pure ()
    · exact appends_reportIf ..

/-! ### Declarations -/

theorem appends_inspectNames (scope : DeclarationScope) (key : String) (seen : List String)
    (ps : List Place) : (inspectNames scope key seen ps).Appends := by
  induction ps generalizing seen with
  | nil => exact appends_pure ()
  | cons p rest ih =>
    rw [inspectNames]
    split
    · exact ih seen
    · split
      · exact (appends_report ..).bind fun _ => ih seen
      · exact ih _

theorem appends_inspectScope (scope : DeclarationScope) (key : String) (ps : List Place) :
    (inspectScope scope key ps).Appends :=
  appends_inspectNames scope key [] ps

theorem appends_inspectOpenTail (problem : String → Problem) (p : Place) :
    (inspectOpenTail problem p).Appends := by
  rw [inspectOpenTail]
  split
  · exact appends_pure ()
  · exact appends_reportIf ..

theorem appends_inspectOpenTails (problem : String → Problem) (ps : List Place) :
    (inspectOpenTails problem ps).Appends :=
  appends_forM (appends_inspectOpenTail problem) ps

theorem appends_inspectOpenReturn (method : Place) : method.inspectOpenReturn.Appends := by
  rw [inspectOpenReturn]
  split
  · exact appends_pure ()
  · split
    · exact appends_reportIf ..
    · exact appends_pure ()

theorem appends_inspectLikeness (method : Place) : method.inspectLikeness.Appends := by
  rw [inspectLikeness]
  split
  · dsimp only
    split
    · exact appends_pure ()
    · exact appends_forM (fun _ => appends_reportIf ..) _
  · exact appends_pure ()

theorem appends_inspectClass (p : Place) : p.inspectClass.Appends :=
  (appends_inspectScope ..).bind fun _ =>
    (appends_inspectScope ..).bind fun _ => appends_inspectOpenTails ..

theorem appends_inspectMethod (p : Place) : p.inspectMethod.Appends :=
  (appends_inspectScope ..).bind fun _ =>
    (appends_inspectScope ..).bind fun _ =>
      (appends_inspectOpenReturn p).bind fun _ =>
        (appends_inspectOpenTails ..).bind fun _ =>
          (appends_inspectOpenTails ..).bind fun _ => appends_inspectLikeness p

/-! ### Nodes and programs -/

/-- The check of a node appends to the sink that it is handed. -/
theorem appends_inspect (p : Place) : (p.inspect d).Appends := by
  rcases e : p.tree.kind <;> rw [inspect, e]
  case program => exact appends_inspectScope ..
  case classDecl => exact appends_inspectClass p
  case methodDecl => exact appends_inspectMethod p
  case assignment => exact appends_inspectAssignment d p
  case elementAssignment => exact appends_inspectElementAssignment d p
  case returnStmt => exact appends_inspectReturn d p
  case conditional => exact appends_inspectCondition d p
  case loop => exact appends_inspectLoop d p
  case identifier => exact appends_inspectIdentifier d p
  case self => exact appends_reportIf ..
  case arithmetic => exact appends_inspectArithmetic d p
  case logical => exact appends_inspectLogical d p
  case call => exact appends_inspectCall d p
  case elementRead => exact appends_inspectElementRead d p
  case arrayLiteral => exact appends_inspectArrayLiteral d p
  case length => exact appends_inspectLength d p
  all_goals exact appends_pure ()

/-- So do the checks of a node and all that is in it, one after another. -/
theorem appends_inspectAll (p : Place) : (p.inspectAll d).Appends :=
  appends_forM (appends_inspect d) p.preorder

end Place

end JavaMinus
