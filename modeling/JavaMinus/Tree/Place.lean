/-
JavaMinus/Tree/Place.lean

Trees in their surroundings.

A place is a tree together with the trees that enclose it, the nearest first.
What a node means may depend on where it stands: an identifier on the method
around it, a loop on the declarations beside it.  Such questions are asked of
a place, and a walk hands on places rather than trees.

Main statement: forgetting the surroundings of the places in a tree leaves
the reading order of the tree (`map_tree_preorder`).
-/
import JavaMinus.Tree.Basic

namespace JavaMinus

/-- A tree, and the trees that enclose it from the nearest outwards. -/
structure Place where
  tree : Tree
  above : List Tree
  deriving Inhabited

namespace Place

/-- The place of a tree that nothing encloses. -/
def top (t : Tree) : Place := ⟨t, []⟩

/-- What a tree at this place encloses its children with. -/
def around (p : Place) : List Tree := p.tree :: p.above

def children (p : Place) : List Place :=
  p.tree.children.map (⟨·, p.around⟩)

def child? (p : Place) (i : Nat) : Option Place := p.children[i]?

/-- The place at the end of a path of child positions. -/
def descend? (p : Place) : List Nat → Option Place
  | [] => some p
  | i :: path => (p.child? i).bind (·.descend? path)

def parent? (p : Place) : Option Place :=
  match p.above with
  | [] => none
  | t :: rest => some ⟨t, rest⟩

/-- The nearest tree of a kind among the given ones, with those after it. -/
def nearest? (kind : Kind) : List Tree → Option Place
  | [] => none
  | t :: rest => if t.kind = kind then some ⟨t, rest⟩ else nearest? kind rest

/-- The nearest enclosing place of a kind. -/
def ancestor? (p : Place) (kind : Kind) : Option Place := nearest? kind p.above

mutual
/-- A tree in the given surroundings and all places inside it, in reading
order. -/
def within (above : List Tree) : Tree → List Place
  | .node h cs => ⟨.node h cs, above⟩ :: withinAll (.node h cs :: above) cs

def withinAll (above : List Tree) : List Tree → List Place
  | [] => []
  | t :: rest => within above t ++ withinAll above rest
end

/-- The place itself and all places inside it, in reading order. -/
def preorder (p : Place) : List Place := within p.above p.tree

/-- The places strictly inside a place, in reading order. -/
def descendants (p : Place) : List Place := withinAll p.around p.tree.children

theorem preorder_eq (p : Place) : p.preorder = p :: p.descendants := by
  obtain ⟨⟨h, cs⟩, above⟩ := p
  simp only [preorder, within, descendants, around, Tree.children]

mutual
theorem map_tree_within (above : List Tree) :
    ∀ t : Tree, (within above t).map (·.tree) = t.preorder
  | .node h cs => by
    simp only [within, List.map_cons, Tree.preorder, map_tree_withinAll]

theorem map_tree_withinAll (above : List Tree) :
    ∀ ts : List Tree, (withinAll above ts).map (·.tree) = Tree.preorderAll ts
  | [] => by simp only [withinAll, List.map_nil, Tree.preorderAll]
  | t :: rest => by
    simp only [withinAll, List.map_append, Tree.preorderAll, map_tree_within,
      map_tree_withinAll]
end

/-- A walk over places visits the nodes of the tree in reading order. -/
theorem map_tree_preorder (p : Place) : p.preorder.map (·.tree) = p.tree.preorder :=
  map_tree_within p.above p.tree

/-- The name of the method that a place belongs to: the one it declares, or
else the one declared by the nearest method around it.  There is none outside
of methods, and none if the method has no name. -/
def method? (p : Place) : Option String :=
  match nearest? .methodDecl p.around with
  | none => none
  | some m => m.tree.get? "name"

end Place

end JavaMinus
