/-
JavaMinus/Tree/Basic.lean

Program trees.

A tree is a head, which holds what a node says of itself, over the trees of
its children from left to right.  The number in the head tells nodes of one
forest apart; nothing that the library computes from a tree depends on it.

The outline of a tree lists its nodes one to a line in the order in which
they are read, each indented by its depth.
-/
import JavaMinus.Position
import JavaMinus.Tree.Attributes
import JavaMinus.Tree.Kind

namespace JavaMinus

/-- What a node says of itself. -/
structure Head where
  id : Nat
  kind : Kind
  attributes : Attributes
  position : Position
  deriving DecidableEq, Inhabited, Repr

/-- A node over the trees of its children. -/
inductive Tree where
  | node (head : Head) (children : List Tree)
  deriving Inhabited

namespace Tree

def head : Tree → Head
  | node h _ => h

def children : Tree → List Tree
  | node _ cs => cs

def id (t : Tree) : Nat := t.head.id

def kind (t : Tree) : Kind := t.head.kind

def position (t : Tree) : Position := t.head.position

def get? (t : Tree) (key : String) : Option String := t.head.attributes.get? key

def has (t : Tree) (key : String) : Bool := t.head.attributes.has key

def flag (t : Tree) (key : String) : Bool := t.head.attributes.flag key

/-- The name that a node carries; a node without one has the empty name. -/
def name (t : Tree) : String := (t.get? "name").getD ""

/-- The children of one kind, from left to right. -/
def childrenOf (t : Tree) (kind : Kind) : List Tree :=
  t.children.filter (·.kind == kind)

/-- The leftmost child of one kind. -/
def firstChildOf? (t : Tree) (kind : Kind) : Option Tree :=
  t.children.find? (·.kind == kind)

/-- What tells a node from all others of its forest, as a text: its kind, its
number and its place. -/
def designation (t : Tree) : String := s!"{t.kind}#{t.id}@{t.position}"

/-! ### Reading order -/

mutual
/-- The trees of a tree: the tree itself, and then those of its children
from left to right. -/
def preorder : Tree → List Tree
  | node h cs => node h cs :: preorderAll cs

/-- The trees of a row of trees, one after another. -/
def preorderAll : List Tree → List Tree
  | [] => []
  | t :: rest => t.preorder ++ preorderAll rest
end

/-- The trees strictly inside a tree, in reading order. -/
def descendants (t : Tree) : List Tree := preorderAll t.children

theorem preorder_eq (t : Tree) : t.preorder = t :: t.descendants := by
  cases t with
  | node h cs => simp only [preorder, descendants, children]

/-! ### Outlines -/

/-- One line of an outline, without its end: the indented kind, and the
attributes, if there are any, in brackets. -/
def outlineLine (depth : Nat) (h : Head) : String :=
  let indent := String.ofList (List.replicate (2 * depth) ' ')
  let entries := h.attributes.entries.map fun (key, value) => s!"{key}: {value}"
  let listed := if entries.isEmpty then "" else " (" ++ ", ".intercalate entries ++ ")"
  indent ++ h.kind.text ++ listed

mutual
/-- The lines of the outline of a tree that lies at the given depth. -/
def outlineLines (depth : Nat) : Tree → List String
  | node h cs => outlineLine depth h :: outlineLinesAll (depth + 1) cs

def outlineLinesAll (depth : Nat) : List Tree → List String
  | [] => []
  | t :: rest => t.outlineLines depth ++ outlineLinesAll depth rest
end

/-- The outline of a tree; every line is ended by a line feed. -/
def outline (t : Tree) : String :=
  String.join ((t.outlineLines 0).map (· ++ "\n"))

end Tree

end JavaMinus
