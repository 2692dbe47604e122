/-
JavaMinus/Proofs/ThreeAddress/Courses.lean

The course that the evaluation of a tree takes.

A call, a field that is read, an element that is read, a new object and a new
array do something that can be noticed.  The acts of a tree are these, each at
its node, in the order in which the tree is evaluated: the parts from left to
right, and then the node itself (`evaluation`).

The course of a tree says besides what each act is done to and what the tree
comes to (`course`).  It is told from the tree alone, as what the operands of a
node come to is handed on to the node.  It has some deeds that are no acts of the
program: arrays are built for literals and for open tails of arguments, a
constructor runs, a variable is set, a method is left.  Without these its deeds
are the acts in the order of evaluation (`counts_course`).

In a tree that the language can write every node is evaluated: the acts are those
of the nodes that have one, each behind the nodes below it (`evaluation_of_formed`).
-/
import JavaMinus.Proofs.Bodies
import JavaMinus.Proofs.Typing
import JavaMinus.Proofs.ThreeAddress.Trace

namespace JavaMinus.ThreeAddress

open Declarations

/-! ### Acts -/

/-- What is done for a node. -/
inductive Act where
  /-- What the node itself does, behind its parts. -/
  | eval (t : Tree)
  /-- Reading the field that holds the array which an assignment writes to. -/
  | fetch (t : Tree)
  /-- Making the array that parts of the node are put into. -/
  | make (t : Tree)
  /-- Putting a part of the node into that array. -/
  | put (t : Tree)
  /-- Running the constructor of the object that the node makes. -/
  | construct (t : Tree)
  /-- Setting the variable of the method that the node assigns to. -/
  | set (t : Tree)
  /-- Leaving the method. -/
  | leave (t : Tree)

/-- Whether an act is counted among the effects of the program. -/
def Act.isCounted : Act → Bool
  | eval _ | fetch _ => true
  | make _ | put _ | construct _ | set _ | leave _ => false

section Order

variable (d : Declarations) (scope : Option String)

/-- Whether the target of an assignment is a field. -/
def assignsField (t : Tree) : Bool := (assigned? d scope t).any (·.origin == .field)

/-- Whether a node does something that can be noticed. -/
def hasEffect (t : Tree) : Bool :=
  match t.kind with
  | .call | .elementRead | .newObject | .newArray | .elementAssignment => true
  | .identifier => (d.identifier? scope t).any (·.origin == .field)
  | .assignment => assignsField d scope t
  | _ => false

/-- How many of its children are operands of a node.  Children of an
expression beyond these are not evaluated. -/
def arity (t : Tree) : Nat :=
  match t.kind with
  | .call | .arrayLiteral => t.children.length
  | .arithmetic | .logical | .elementRead | .elementAssignment => 2
  | .newArray | .length | .assignment | .expressionStmt | .returnStmt => 1
  | _ => 0

/-- The parts of a node that are evaluated, from left to right. -/
def operands (t : Tree) : List Tree := t.children.take (arity t)

/-- Whether a statement has no statements in it. -/
def isSimple (t : Tree) : Bool :=
  match t.kind with
  | .assignment | .elementAssignment | .expressionStmt | .returnStmt => true
  | _ => false

/-- What is done in front of the parts of a node. -/
def fetched (t : Tree) : List Act :=
  if t.kind = .elementAssignment ∧ assignsField d scope t then [.fetch t] else []

/-- What is done behind the parts of a node. -/
def own (t : Tree) : List Act := if hasEffect d scope t then [.eval t] else []

/-- The acts of a node in the order of evaluation: its operands from left to
right, and then what the node itself does. -/
def evaluation : Tree → List Act :=
  Tree.fold fun t parts => fetched d scope t ++ (parts.take (arity t)).flatten ++ own d scope t

/-- The nodes of a tree, each behind those below it. -/
def postorder : Tree → List Tree := Tree.fold fun t parts => parts.flatten ++ [t]

end Order

/-! ### The acts of a formed tree -/

section Formed

variable {d : Declarations} {scope : Option String} {t : Tree}

theorem evaluation_eq (t : Tree) :
    evaluation d scope t =
      fetched d scope t ++ (operands t).flatMap (evaluation d scope) ++ own d scope t := by
  rw [evaluation, Tree.fold_eq, ← List.map_take, ← List.flatMap_def]
  rfl

theorem postorder_eq (t : Tree) : postorder t = t.children.flatMap postorder ++ [t] := by
  rw [postorder, Tree.fold_eq, ← List.flatMap_def]

/-- A tree that the language can write has no children besides its operands, if it
is an expression or a statement without statements in it. -/
theorem operands_eq_children (h : t.isFormed) (hk : t.kind.isExpression ∨ isSimple t) :
    operands t = t.children := by
  have hwanted := Tree.wanted_of_isFormed h
  have hlength : t.children.length ≤ arity t := by
    rw [isSimple] at hk
    rw [Tree.hasWantedChildren] at hwanted
    rw [arity]
    rcases e : t.kind <;> simp only [e] at hwanted hk ⊢
    case call | arrayLiteral => exact le_rfl
    case returnStmt =>
      rcases Bool.or_eq_true_iff.mp hwanted with hnone | hone
      · exact (Tree.length_of_areWanted hnone).le.trans (Nat.zero_le 1)
      · exact (Tree.length_of_areWanted hone).le
    case integer | boolean | identifier | self | newObject | arithmetic | logical | elementRead
        | elementAssignment | newArray | length | assignment | expressionStmt =>
      exact (Tree.length_of_areWanted hwanted).le
    all_goals simp [Kind.isExpression] at hk
  rw [operands, List.take_of_length_le hlength]

theorem fetched_of_isExpression (hk : t.kind.isExpression) : fetched d scope t = [] := by
  refine if_neg ?_
  rintro ⟨he, -⟩
  rw [he] at hk
  nomatch hk

theorem isExpression_of_operand (h : t.isFormed) (hk : t.kind.isExpression ∨ isSimple t) {u : Tree}
    (hu : u ∈ t.children) : u.kind.isExpression := by
  rcases hk with hk | hk
  · exact Tree.isExpression_of_child h hk hu
  · refine Tree.isExpression_of_child_of_simple h ?_ hu
    rw [isSimple] at hk
    rcases e : t.kind <;> rw [e] at hk <;> first | decide | nomatch hk

/-- The acts of a formed tree are those of its nodes that have one, each behind the
nodes below it; only an assignment into an array that a field holds has one in front
as well. -/
theorem evaluation_of_formed (d : Declarations) (scope : Option String) (t : Tree) (h : t.Formed)
    (hk : t.kind.isExpression ∨ isSimple t) :
    evaluation d scope t =
      fetched d scope t ++ ((postorder t).filter (hasEffect d scope)).map Act.eval := by
  induction t using Tree.induction with
  | step t ih =>
    have hparts : t.children.flatMap (evaluation d scope) =
        t.children.flatMap fun u => ((postorder u).filter (hasEffect d scope)).map Act.eval := by
      rw [List.flatMap_def, List.flatMap_def]
      refine congrArg List.flatten (List.map_congr_left fun u hu => ?_)
      have hexpression := isExpression_of_operand h.self hk hu
      rw [ih u hu (h.child hu) (Or.inl hexpression), fetched_of_isExpression hexpression,
        List.nil_append]
    have hown : own d scope t = ([t].filter (hasEffect d scope)).map Act.eval := by
      rw [own]
      rcases e : hasEffect d scope t with - | - <;> simp [e]
    rw [evaluation_eq, operands_eq_children h.self hk, hparts, hown, postorder_eq,
      List.filter_append, List.map_append, List.filter_flatMap, List.map_flatMap,
      List.append_assoc]

end Formed

/-! ### Courses -/

/-- An act with what can be noticed of it. -/
structure Deed where
  act : Act
  effect : Effect

/-- What evaluating something comes to, and what is done for it. -/
structure Account where
  terms : List Term
  deeds : List Deed

/-- What happens where as many effects have been before. -/
def Course := Nat → Account

namespace Course

/-- It is done with the values at hand. -/
def values (xs : List Term) : Course := fun _ => ⟨xs, []⟩

/-- Something is done that comes to nothing. -/
def deed (a : Act) (e : Effect) : Course := fun _ => ⟨[], [⟨a, e⟩]⟩

/-- Something is done that comes to a value. -/
def outcome (a : Act) (e : Effect) : Course := fun n => ⟨[.outcome n], [⟨a, e⟩]⟩

/-- One after the other, for the values of both. -/
def before (e e' : Course) : Course := fun n =>
  let first := e n
  let second := e' (n + first.deeds.length)
  ⟨first.terms ++ second.terms, first.deeds ++ second.deeds⟩

/-- The values of one course go into another. -/
def into (e : Course) (more : List Term → Course) : Course := fun n =>
  let first := e n
  let second := more first.terms (n + first.deeds.length)
  ⟨second.terms, first.deeds ++ second.deeds⟩

/-- From left to right. -/
def inTurn : List Course → Course
  | [] => values []
  | e :: rest => e.before (inTurn rest)

variable {e e' e'' : Course}

@[simp] theorem values_before : (values []).before e = e := rfl

@[simp] theorem before_values : e.before (values []) = e := by
  funext n
  simp [before, values]

theorem before_assoc : (e.before e').before e'' = e.before (e'.before e'') := by
  funext n
  simp [before, Nat.add_assoc]

@[simp] theorem values_into (xs : List Term) (more : List Term → Course) :
    (values xs).into more = more xs := rfl

/-- To pass values on as they are changes nothing. -/
@[simp] theorem into_values : e.into values = e := by
  funext n
  simp [into, values]

theorem into_assoc {more more' : List Term → Course} :
    (e.into more).into more' = e.into fun xs => (more xs).into more' := by
  funext n
  simp [into, Nat.add_assoc]

theorem inTurn_append (es es' : List Course) :
    inTurn (es ++ es') = (inTurn es).before (inTurn es') := by
  induction es with
  | nil => rfl
  | cons e rest ih => rw [List.cons_append, inTurn, ih, inTurn, before_assoc]

end Course

/-! ### The course of a tree -/

/-- The value at a position of a row. -/
def operand (xs : List Term) (i : Nat) : Term := xs.getD i .nothing

/-- Parts go into an array from a position on. -/
def putFrom (t : Tree) (array : Term) : Nat → List Course → Course
  | _, [] => .values []
  | i, part :: rest =>
    (((Course.values [array]).before part).into fun xs =>
      .deed (.put t) (.store (operand xs 0) (.number (toString i)) (operand xs 1))).before
    (putFrom t array (i + 1) rest)

/-- A new array is made, and parts go into it. -/
def build (t : Tree) (parts : List Course) : Course :=
  (Course.outcome (.make t) (.newArray (.number (toString parts.length)))).into fun array =>
    (putFrom t (operand array 0) 0 parts).before (.values array)

section Tree

variable (d : Declarations) (scope : Option String)

/-- The parameters that arguments of a call are fitted to. -/
def knownParameters (t : Tree) : List Variable :=
  if (d.known? scope t).isSome then d.parameters t.name else []

/-- Whether arguments for an open tail are a single array, which is passed on as
it is. -/
def passesArray : List Tree → Bool
  | [t] => (d.known? scope t).any (·.isArray)
  | _ => false

/-- How many arguments stand in front of those that go into a new array, if any
do. -/
def packedFrom? (parameters : List Variable) (arguments : List Tree) : Option Nat :=
  let fixed := (Parameters.fixed parameters).length
  if (Parameters.openTail? parameters).isSome && !passesArray d scope (arguments.drop fixed) then
    some fixed
  else none

/-- The position of the first child of a node that goes into a new array, if the
node builds one. -/
def builtFrom? (t : Tree) : Option Nat :=
  match t.kind with
  | .arrayLiteral => some 0
  | .call =>
    -- the receiver stands in front of the arguments
    (packedFrom? d scope (knownParameters d scope t) t.children.tail).map (· + 1)
  | _ => none

/-- The array that an assignment to an element writes to. -/
def holder (t : Tree) : Course :=
  if t.kind = .elementAssignment then
    if assignsField d scope t then .outcome (.fetch t) (.fieldRead t.name)
    else .values [.named t.name]
  else .values []

/-- The operands of a node from left to right. -/
def row (t : Tree) (parts : List Course) : Course :=
  (holder d scope t).before <|
    match builtFrom? d scope t with
    | some n => (Course.inTurn (parts.take n)).before (build t (parts.drop n))
    | none => Course.inTurn (parts.take (arity t))

/-- What a name comes to. -/
def nameCourse (t : Tree) : Course :=
  match d.identifier? scope t with
  | none => .values [.named t.name]
  | some binding =>
    if binding.origin = .field then .outcome (.eval t) (.fieldRead t.name)
    else if binding.origin.isVariable then .values [.named t.name]
    else .values [.classRef t.name]

/-- What a node does with its operands. -/
def ownCourse (t : Tree) : List Term → Course :=
  match t.kind with
  | .integer => fun _ => .values [.number ((t.get? "value").getD "0")]
  | .boolean => fun _ => .values [.truth (t.flag "value")]
  | .self => fun _ => .values [.self]
  | .identifier => fun _ => nameCourse d scope t
  | .arithmetic | .logical => fun xs =>
    .values [.operation ((t.get? "op").getD "") (operand xs 0) (operand xs 1)]
  | .length => fun xs => .values [.length (operand xs 0)]
  | .arrayLiteral => .values
  | .call => fun xs => .outcome (.eval t) (.call (operand xs 0) t.name xs.tail)
  | .elementRead => fun xs => .outcome (.eval t) (.elementRead (operand xs 0) (operand xs 1))
  | .newArray => fun xs => .outcome (.eval t) (.newArray (operand xs 0))
  | .newObject => fun _ => (Course.outcome (.eval t) (.newObject t.name)).into fun object =>
    (Course.deed (.construct t) (.construct (operand object 0))).before (.values object)
  | .assignment => fun xs =>
    if assignsField d scope t then .deed (.eval t) (.fieldWrite t.name (operand xs 0))
    else .deed (.set t) (.assign t.name (operand xs 0))
  | .elementAssignment => fun xs =>
    .deed (.eval t) (.store (operand xs 0) (operand xs 1) (operand xs 2))
  | .returnStmt => fun xs => .deed (.leave t) (.leave xs.head?)
  | _ => fun _ => .values []

/-- The course of a tree: that of its operands from left to right, and then what
the node does with them. -/
def course : Tree → Course :=
  Tree.fold fun t parts => (row d scope t parts).into (ownCourse d scope t)

end Tree

/-! ### Acts of a course -/

/-- The acts of a course that are counted. -/
def Course.Counts (e : Course) (as : List Act) : Prop :=
  ∀ n, ((e n).deeds.map Deed.act).filter Act.isCounted = as

section Counts

variable {d : Declarations} {scope : Option String} {t : Tree} {e e' : Course}
  {as as' : List Act}

open Course

theorem counts_values (xs : List Term) : (values xs).Counts [] := fun _ => rfl

theorem counts_deed {a : Act} (ha : a.isCounted) (x : Effect) : (deed a x).Counts [a] :=
  fun _ => List.filter_cons_of_pos ha

theorem counts_outcome {a : Act} (ha : a.isCounted) (x : Effect) : (outcome a x).Counts [a] :=
  fun _ => List.filter_cons_of_pos ha

theorem counts_silent_deed {a : Act} (ha : a.isCounted = false) (x : Effect) :
    (deed a x).Counts [] :=
  fun _ => List.filter_cons_of_neg (by simp [ha])

theorem counts_silent_outcome {a : Act} (ha : a.isCounted = false) (x : Effect) :
    (outcome a x).Counts [] :=
  fun _ => List.filter_cons_of_neg (by simp [ha])

theorem Course.Counts.before (h : e.Counts as) (h' : e'.Counts as') :
    (e.before e').Counts (as ++ as') := by
  intro n
  simp only [Course.before, List.map_append, List.filter_append, h n, h' _]

theorem Course.Counts.into {more : List Term → Course} (h : e.Counts as)
    (h' : ∀ xs, (more xs).Counts as') : (e.into more).Counts (as ++ as') := by
  intro n
  simp only [Course.into, List.map_append, List.filter_append, h n, h' _ _]

theorem counts_inTurn {f : Tree → Course} {g : Tree → List Act} {ts : List Tree}
    (h : ∀ u ∈ ts, (f u).Counts (g u)) : (inTurn (ts.map f)).Counts (ts.flatMap g) := by
  induction ts with
  | nil => exact counts_values []
  | cons u rest ih =>
    exact (h u (List.mem_cons_self ..)).before (ih fun v hv => h v (List.mem_cons_of_mem _ hv))

/-- To put parts into an array is to evaluate the parts. -/
theorem counts_putFrom (t : Tree) (array : Term) (i : Nat) {f : Tree → Course}
    {g : Tree → List Act} {ts : List Tree} (h : ∀ u ∈ ts, (f u).Counts (g u)) :
    (putFrom t array i (ts.map f)).Counts (ts.flatMap g) := by
  induction ts generalizing i with
  | nil => exact counts_values []
  | cons u rest ih =>
    have hpart := (counts_values [array]).before (h u (List.mem_cons_self ..))
    have hput := hpart.into fun xs => counts_silent_deed (a := .put t) rfl
      (.store (operand xs 0) (.number (toString i)) (operand xs 1))
    have hrest := ih (i + 1) fun v hv => h v (List.mem_cons_of_mem _ hv)
    rw [List.nil_append, List.append_nil] at hput
    exact hput.before hrest

theorem counts_build (t : Tree) {f : Tree → Course} {g : Tree → List Act} {ts : List Tree}
    (h : ∀ u ∈ ts, (f u).Counts (g u)) : (build t (ts.map f)).Counts (ts.flatMap g) := by
  have hmake := counts_silent_outcome (a := .make t) rfl
    (.newArray (.number (toString (ts.map f).length)))
  have hboth := hmake.into fun array =>
    (counts_putFrom t (operand array 0) 0 h).before (counts_values array)
  rwa [List.nil_append, List.append_nil] at hboth

theorem counts_holder (d : Declarations) (scope : Option String) (t : Tree) :
    (holder d scope t).Counts (fetched d scope t) := by
  rw [holder, fetched]
  by_cases hk : t.kind = .elementAssignment
  · rw [if_pos hk]
    by_cases hfield : assignsField d scope t
    · rw [if_pos hfield, if_pos ⟨hk, hfield⟩]
      exact counts_outcome rfl _
    · rw [if_neg hfield, if_neg fun h => hfield h.2]
      exact counts_values _
  · rw [if_neg hk, if_neg fun h => hk h.1]
    exact counts_values _

theorem course_eq (t : Tree) :
    course d scope t =
      (row d scope t (t.children.map (course d scope))).into (ownCourse d scope t) := by
  rw [course, Tree.fold_eq]

/-- A node that builds an array evaluates all its children. -/
theorem operands_of_builtFrom?_eq_some {n : Nat} (h : builtFrom? d scope t = some n) :
    operands t = t.children := by
  have hkind : t.kind = .arrayLiteral ∨ t.kind = .call := by
    rw [builtFrom?] at h
    split at h
    · next hk => exact Or.inl hk
    · next hk => exact Or.inr hk
    · nomatch h
  rcases hkind with hk | hk <;> rw [operands, arity, hk, List.take_length]

theorem counts_row {f : Tree → Course} {g : Tree → List Act}
    (h : ∀ u ∈ t.children, (f u).Counts (g u)) :
    (row d scope t (t.children.map f)).Counts
      (fetched d scope t ++ (operands t).flatMap g) := by
  refine (counts_holder d scope t).before ?_
  rcases e : builtFrom? d scope t with - | n
  · rw [← List.map_take]
    exact counts_inTurn fun u hu => h u (List.mem_of_mem_take hu)
  · rw [operands_of_builtFrom?_eq_some e]
    have hfront : (inTurn ((t.children.take n).map f)).Counts ((t.children.take n).flatMap g) :=
      counts_inTurn fun u hu => h u (List.mem_of_mem_take hu)
    have hbuilt : (build t ((t.children.drop n).map f)).Counts ((t.children.drop n).flatMap g) :=
      counts_build t fun u hu => h u (List.mem_of_mem_drop hu)
    have hboth := hfront.before hbuilt
    rw [← List.flatMap_append, List.take_append_drop] at hboth
    simpa only [List.map_take, List.map_drop] using hboth

theorem counts_ownCourse (d : Declarations) (scope : Option String) (t : Tree)
    (xs : List Term) : (ownCourse d scope t xs).Counts (own d scope t) := by
  rw [own, hasEffect]
  cases hk : t.kind <;> simp only [ownCourse, hk]
  case call | elementRead | newArray => exact counts_outcome rfl _
  case elementAssignment => exact counts_deed rfl _
  case returnStmt => exact counts_silent_deed rfl _
  case newObject =>
    have hrun := (counts_outcome (a := .eval t) rfl (.newObject t.name)).into fun object =>
      (counts_silent_deed (a := .construct t) rfl (.construct (operand object 0))).before
        (counts_values object)
    exact hrun
  case assignment =>
    split
    · exact counts_deed rfl _
    · exact counts_silent_deed rfl _
  case identifier =>
    rw [nameCourse]
    rcases d.identifier? scope t with - | b
    · exact counts_values _
    · by_cases hfield : b.origin = .field
      · simpa [hfield] using counts_outcome (a := .eval t) rfl (.fieldRead t.name)
      · simp only [if_neg hfield, Option.any_some, beq_eq_false_iff_ne.mpr hfield]
        split <;> exact counts_values _
  all_goals exact counts_values _

/-- The acts of the course of a tree that are counted are those of its
evaluation. -/
theorem counts_course (d : Declarations) (scope : Option String) (t : Tree) :
    (course d scope t).Counts (evaluation d scope t) := by
  induction t using Tree.induction with
  | step t ih =>
    rw [course_eq, evaluation_eq]
    exact (counts_row ih).into (counts_ownCourse d scope t)

end Counts

end JavaMinus.ThreeAddress
