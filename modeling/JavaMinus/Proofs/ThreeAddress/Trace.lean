/-
JavaMinus/Proofs/ThreeAddress/Trace.lean

What lines do, read from the lines alone.

Lines are read from top to bottom, and nothing is run: a temporary stands for
the term that was put into it (`Term`), and whatever can be noticed is written
down with the terms that it is done to (`Effect`).  What an effect comes to is
a term of its own, told by the number of effects in front of it.  So two calls
that look alike are told apart by the place where each is made, and an operand
says which of the two it came from.

Besides labels and jumps, which do not stand in an expression, every line
either has an effect or puts a term into a temporary.
-/
import JavaMinus.ThreeAddress.Code
import Mathlib.Logic.Function.Basic

namespace JavaMinus.ThreeAddress

/-! ### Terms and effects -/

/-- A value, by what it is computed from. -/
inductive Term where
  /-- A number, by the text that writes it. -/
  | number (text : String)
  | truth (value : Bool)
  /-- The object that the method works on. -/
  | self
  | classRef (name : String)
  /-- What a variable of the method holds. -/
  | named (name : String)
  | operation (symbol : String) (left right : Term)
  | length (array : Term)
  /-- What the effect at a place came to. -/
  | outcome (place : Nat)
  /-- The part that a node lacks. -/
  | nothing
  deriving DecidableEq, Inhabited, Repr

/-- What can be noticed of a line, with the terms that it is done to. -/
inductive Effect where
  | call (receiver : Term) (method : String) (arguments : List Term)
  | fieldRead (name : String)
  | elementRead (array index : Term)
  | newObject (className : String)
  /-- Running the constructor of a new object. -/
  | construct (object : Term)
  | newArray (size : Term)
  /-- Putting a value into a variable of the method. -/
  | assign (name : String) (value : Term)
  | fieldWrite (name : String) (value : Term)
  | store (array index value : Term)
  | leave (value : Option Term)
  deriving DecidableEq, Inhabited, Repr

/-! ### Reading lines -/

/-- What was read of lines so far. -/
structure Trace where
  /-- What the temporaries stand for. -/
  held : Nat → Term
  effects : List Effect

namespace Trace

/-- Nothing was read yet. -/
def start : Trace := ⟨fun _ => .nothing, []⟩

def cell (s : Trace) : Cell → Term
  | .temporary n => s.held n
  | .named name => .named name

def term (s : Trace) : Operand → Term
  | .cell c _ => s.cell c
  | .number text => .number text
  | .truth b => .truth b
  | .self _ => .self
  | .classRef name => .classRef name

def receiver (s : Trace) : Receiver → Term
  | .classRef name => .classRef name
  | .self => .self
  | .object x => s.term x

def call (s : Trace) (i : Invocation) : Effect :=
  .call (s.receiver i.receiver) i.method (i.arguments.map s.term)

/-- Something is noticed. -/
def note (s : Trace) (e : Effect) : Trace := { s with effects := s.effects ++ [e] }

/-- A term is put into a cell, which is noticed of a variable of the method. -/
def put (s : Trace) (c : Cell) (x : Term) : Trace :=
  match c with
  | .temporary n => { s with held := Function.update s.held n x }
  | .named name => s.note (.assign name x)

/-- The term of what comes next. -/
def next (s : Trace) : Term := .outcome s.effects.length

/-- What computing a source does, and what it comes to. -/
def source (s : Trace) : Source → Trace × Term
  | .operand x => (s, s.term x)
  | .arithmetic op x y => (s, .operation op.symbol (s.term x) (s.term y))
  | .logical op x y => (s, .operation op.symbol (s.term x) (s.term y))
  | .length x => (s, .length (s.term x))
  | .fieldRead name _ => (s.note (.fieldRead name), s.next)
  | .call i => (s.note (s.call i), s.next)
  | .newArray size _ => (s.note (.newArray (s.term size)), s.next)
  | .newObject name => (s.note (.newObject name), s.next)
  | .element array i _ => (s.note (.elementRead (s.term array) (s.term i)), s.next)

/-- A line is read. -/
def line (s : Trace) : Line → Trace
  | .assign c _ source => (s.source source).1.put c (s.source source).2
  | .store array i _ x => s.note (.store (s.cell array) (s.term i) (s.term x))
  | .fieldWrite name _ x => s.note (.fieldWrite name (s.term x))
  | .call i => s.note (s.call i)
  | .construct x => s.note (.construct (s.term x))
  | .ret _ x => s.note (.leave (x.map s.term))
  | .label _ | .branch .. | .jump _ => s

/-- Lines are read from top to bottom. -/
def lines (s : Trace) (ls : List Line) : Trace := ls.foldl line s

@[simp] theorem lines_nil (s : Trace) : s.lines [] = s := rfl

@[simp] theorem lines_append (s : Trace) (ls ls' : List Line) :
    s.lines (ls ++ ls') = (s.lines ls).lines ls' := List.foldl_append

@[simp] theorem lines_singleton (s : Trace) (l : Line) : s.lines [l] = s.line l := rfl

@[simp] theorem effects_note (s : Trace) (e : Effect) : (s.note e).effects = s.effects ++ [e] := rfl

@[simp] theorem held_note (s : Trace) (e : Effect) : (s.note e).held = s.held := rfl

@[simp] theorem effects_put_temporary (s : Trace) (n : Nat) (x : Term) :
    (s.put (.temporary n) x).effects = s.effects := rfl

@[simp] theorem held_put_temporary (s : Trace) (n : Nat) (x : Term) :
    (s.put (.temporary n) x).held = Function.update s.held n x := rfl

end Trace

/-! ### Terms of earlier temporaries -/

/-- What is read of a trace depends on the temporaries below a number alone. -/
def Below (n : Nat) (read : Trace → List Term) : Prop :=
  ∀ s s' : Trace, (∀ m < n, s'.held m = s.held m) → read s' = read s

section Below

variable {n n' : Nat} {read read' : Trace → List Term}

theorem Below.mono (h : Below n read) (hle : n ≤ n') : Below n' read :=
  fun s s' hs => h s s' fun m hm => hs m (Nat.lt_of_lt_of_le hm hle)

theorem below_const (n : Nat) (xs : List Term) : Below n fun _ => xs := fun _ _ _ => rfl

theorem below_held (n : Nat) : Below (n + 1) fun s => [s.held n] := by
  intro s s' hs
  exact congrArg (fun x => [x]) (hs n (Nat.lt_succ_self n))

theorem Below.append (h : Below n read) (h' : Below n read') :
    Below n fun s => read s ++ read' s := by
  intro s s' hs
  show read s' ++ read' s' = read s ++ read' s
  rw [h s s' hs, h' s s' hs]

end Below

end JavaMinus.ThreeAddress
