/-
JavaMinus/Check/Inspection.lean

Checks that report as they go.

A sink holds all that was reported about a program, in order.  What the checks
report stands in it as a finding, which is given its wording when the checks
are done.  An inspection is handed the sink and hands it on, with what it
reported put behind what was there.  It goes on after a broken rule.  A fault
ends it and leaves the sink as it is by then.
-/
import JavaMinus.Check.Finding
import JavaMinus.Fault

namespace JavaMinus

/-- What stands in a sink. -/
inductive Entry where
  /-- What was reported before the checks. -/
  | earlier (diagnostic : Diagnostic)
  | found (finding : Finding)
  deriving DecidableEq, Repr

def Entry.diagnostic : Entry → Diagnostic
  | earlier d => d
  | found f => f.diagnostic

/-- What was reported so far. -/
abbrev Sink := List Entry

/-- A computation that is handed the sink and hands it on, also when it ends in a
fault. -/
def Inspection (α : Type) : Type := Sink → Sink × Except Fault α

namespace Inspection

variable {α β : Type}

/-- Hand the sink on, with the value that it came with. -/
def andThen (x : Inspection α) (f : α → Inspection β) : Inspection β := fun sink =>
  match x sink with
  | (reported, .error fault) => (reported, .error fault)
  | (reported, .ok a) => f a reported

instance : Monad Inspection where
  pure a := fun sink => (sink, .ok a)
  bind := andThen

/-- A computation that may end in a fault and reports nothing. -/
def ofExcept (outcome : Except Fault α) : Inspection α := fun sink => (sink, outcome)

/-- Report a broken rule at a place. -/
def report (p : Place) (problem : Problem) : Inspection Unit := fun sink =>
  (sink ++ [.found (p.finding problem)], .ok ())

/-- Report a broken rule at a place if a condition holds. -/
def reportIf (condition : Bool) (p : Place) (problem : Problem) : Inspection Unit :=
  if condition then report p problem else pure ()

end Inspection

end JavaMinus
