/-
JavaMinus/Diagnostics.lean

What is reported about a program, in the order in which it was found.

Every diagnostic of this library comes from the semantic stage and is an
error.  A collection only ever grows at its end.
-/
import JavaMinus.Position

namespace JavaMinus

/-- The stage that reports. -/
inductive Stage where
  | semantic
  deriving DecidableEq, Inhabited, Repr

instance : ToString Stage := ⟨fun | .semantic => "semantic"⟩

/-- How grave a diagnostic is.  An error forbids to generate code. -/
inductive Severity where
  | error
  deriving DecidableEq, Inhabited, Repr

instance : ToString Severity := ⟨fun | .error => "error"⟩

/-- A message about one place of the source. -/
structure Diagnostic where
  stage : Stage
  severity : Severity
  position : Position
  message : String
  deriving DecidableEq, Inhabited, Repr

namespace Diagnostic

/-- A message that a rule of the language is broken. -/
def error (position : Position) (message : String) : Diagnostic :=
  ⟨.semantic, .error, position, message⟩

def isError (d : Diagnostic) : Bool := d.severity == .error

instance : ToString Diagnostic := ⟨fun d => s!"{d.position}: {d.severity}: {d.message}"⟩

@[simp] theorem isError_eq_true (d : Diagnostic) : d.isError = true := by
  obtain ⟨_, ⟨⟩, _, _⟩ := d
  rfl

end Diagnostic

/-- Diagnostics in the order in which they were reported. -/
structure Diagnostics where
  toList : List Diagnostic
  deriving DecidableEq, Inhabited, Repr

namespace Diagnostics

def empty : Diagnostics := ⟨[]⟩

def push (ds : Diagnostics) (d : Diagnostic) : Diagnostics := ⟨ds.toList ++ [d]⟩

/-- Put all of another collection behind this one. -/
def append (ds es : Diagnostics) : Diagnostics := ⟨ds.toList ++ es.toList⟩

instance : Append Diagnostics := ⟨append⟩

def isEmpty (ds : Diagnostics) : Bool := ds.toList.isEmpty

def size (ds : Diagnostics) : Nat := ds.toList.length

def errors (ds : Diagnostics) : List Diagnostic := ds.toList.filter (·.isError)

def hasErrors (ds : Diagnostics) : Bool := ds.toList.any (·.isError)

def errorCount (ds : Diagnostics) : Nat := ds.errors.length

def messages (ds : Diagnostics) : List String := ds.toList.map (·.message)

/-- How many messages begin with the given text. -/
def countStartingWith (ds : Diagnostics) (start : String) : Nat :=
  ds.messages.countP fun message => start.toList.isPrefixOf message.toList

/-- The collection as a text, one diagnostic to a line. -/
def text (ds : Diagnostics) : String :=
  String.join (ds.toList.map fun d => s!"{d}\n")

@[simp] theorem toList_append (ds es : Diagnostics) :
    (ds ++ es).toList = ds.toList ++ es.toList := rfl

@[simp] theorem toList_push (ds : Diagnostics) (d : Diagnostic) :
    (ds.push d).toList = ds.toList ++ [d] := rfl

@[simp] theorem errors_eq (ds : Diagnostics) : ds.errors = ds.toList := by
  simp [errors]

/-- Every diagnostic is an error, so the errors are all that there is. -/
theorem errorCount_eq_size (ds : Diagnostics) : ds.errorCount = ds.size := by
  simp [errorCount, size]

theorem hasErrors_eq_not_isEmpty (ds : Diagnostics) : ds.hasErrors = !ds.isEmpty := by
  obtain ⟨l⟩ := ds
  cases l <;> simp [hasErrors, isEmpty]

end Diagnostics

end JavaMinus
