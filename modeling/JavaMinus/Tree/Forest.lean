/-
JavaMinus/Tree/Forest.lean

Growing trees from their leaves.

A forest holds every node that was made so far.  Nodes are numbered from zero
in the order in which they are made, and a node takes its children from those
that already stand without a parent; so every child has a smaller number than
its parent, and no node is ever below two others.  Taking a node that does
not exist or already has a parent is a misuse and makes nothing.

A node keeps the tree below it, which never changes after the node is made,
and the number of its parent, which is filled in when it is taken.
-/
import JavaMinus.Tree.Place

namespace JavaMinus

/-- Every node made so far: at its number, the tree below it and the number
of its parent, once it has one. -/
structure Forest where
  trees : Array Tree
  parents : Array (Option Nat)
  deriving Inhabited

/-- Ways to misuse a forest. -/
inductive Misuse where
  /-- No node has this number. -/
  | unknownNode (id : Nat)
  /-- The node is already a child of another one. -/
  | takenTwice (id : Nat)
  deriving DecidableEq, Repr

namespace Forest

def empty : Forest := ⟨#[], #[]⟩

/-- How many nodes were made. -/
def size (f : Forest) : Nat := f.trees.size

def tree? (f : Forest) (id : Nat) : Option Tree := f.trees[id]?

/-- The number of a node's parent. -/
def parent? (f : Forest) (id : Nat) : Option Nat := (f.parents[id]?).join

/-- The numbers of a node's children, from left to right. -/
def children (f : Forest) (id : Nat) : List Nat :=
  match f.tree? id with
  | none => []
  | some t => t.children.map (·.id)

/-- Put the node `id` above each of the given ones, which must exist and have
no parent. -/
def takeAll (id : Nat) (parents : Array (Option Nat)) :
    List Nat → Except Misuse (Array (Option Nat))
  | [] => .ok parents
  | child :: rest =>
    match parents[child]? with
    | none => .error (.unknownNode child)
    | some (some _) => .error (.takenTwice child)
    | some none => takeAll id (parents.setIfInBounds child (some id)) rest

/-- Make one node over the given children. -/
def add (f : Forest) (kind : Kind) (attributes : Attributes) (position : Position)
    (children : List Nat) : Except Misuse Forest := do
  let id := f.size
  let parents ← takeAll id f.parents children
  let below := children.filterMap f.tree?
  pure ⟨f.trees.push (.node ⟨id, kind, attributes, position⟩ below), parents.push none⟩

/-- The trees around a node from its parent outwards.  Parents are made after
their children, so the walk upwards ends. -/
def above (f : Forest) (id : Nat) : List Tree :=
  match f.parent? id with
  | none => []
  | some p =>
    -- true of every parent in a forest that `add` made
    if id < p ∧ p < f.size then (f.tree? p).toList ++ f.above p else []
termination_by f.size - id

/-- A node as a place, in the surroundings that the finished forest gives
it. -/
def place? (f : Forest) (id : Nat) : Option Place :=
  (f.tree? id).map (⟨·, f.above id⟩)

end Forest

end JavaMinus
