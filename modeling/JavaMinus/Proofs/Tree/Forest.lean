/-
JavaMinus/Proofs/Tree/Forest.lean

Forests stay well-formed while they grow.

A forest keeps its nodes in two ways: every node keeps the tree below it, and every
node keeps the number of its parent, which is filled in when it is taken.  The two
agree, whatever is made in whatever order (`WellFormed`): a node takes only nodes
without a parent, so it never takes one that another node has, nor one twice, and
it takes only nodes that were made before it.

So numbers grow on the way upwards and fall on the way downwards, and every walk
along parents or children comes to an end (`forests_are_well_formed`).
-/
import Mathlib.Data.List.Nodup
import Mathlib.Order.WellFounded
import JavaMinus.Proofs.Computation
import JavaMinus.Tree.Form

namespace JavaMinus

namespace Forest

/-! ### Taking children -/

/-- What is known when a node has taken its children: each of them existed and had
no parent, none was taken twice, and they alone have a new parent. -/
structure Taken (id : Nat) (parents : Array (Option Nat)) (children : List Nat)
    (parents' : Array (Option Nat)) : Prop where
  size : parents'.size = parents.size
  free : ∀ c ∈ children, parents[c]? = some none
  nodup : children.Nodup
  parent : ∀ c, parents'[c]? = if c ∈ children then some (some id) else parents[c]?

theorem taken_of_takeAll {id : Nat} {parents parents' : Array (Option Nat)} {children : List Nat}
    (h : takeAll id parents children = .ok parents') : Taken id parents children parents' := by
  induction children generalizing parents with
  | nil =>
    obtain rfl : parents = parents' := Except.ok.inj h
    exact ⟨rfl, List.forall_mem_nil _, .nil, fun c => (if_neg List.not_mem_nil).symm⟩
  | cons child rest ih =>
    rw [takeAll] at h
    split at h
    case h_1 | h_2 => nomatch h
    case h_3 hchild =>
      obtain ⟨hsize, hfree, hnodup, hparent⟩ := ih h
      have hset : ∀ c, (parents.setIfInBounds child (some id))[c]? =
          if c = child then some (some id) else parents[c]? := by
        intro c
        rw [Array.getElem?_setIfInBounds]
        split
        · next heq =>
          obtain ⟨hlt, -⟩ := Array.getElem?_eq_some_iff.mp hchild
          rw [if_pos heq.symm, if_pos hlt]
        · next hne => rw [if_neg (Ne.symm hne)]
      -- a child that stood in the list once more would have been taken already
      have hnot : child ∉ rest := by
        intro hmem
        have := hfree child hmem
        rw [hset, if_pos rfl] at this
        nomatch this
      refine ⟨hsize.trans Array.size_setIfInBounds, ?_, List.nodup_cons.mpr ⟨hnot, hnodup⟩, ?_⟩
      · intro c hc
        rcases List.mem_cons.mp hc with rfl | hc
        · exact hchild
        · have hne : c ≠ child := fun heq => hnot (heq ▸ hc)
          rw [← hfree c hc, hset, if_neg hne]
      · intro c
        rw [hparent, hset]
        by_cases hrest : c ∈ rest
        · rw [if_pos hrest, if_pos (List.mem_cons_of_mem _ hrest)]
        · rw [if_neg hrest]
          simp only [List.mem_cons, hrest, or_false]

/-! ### What making a node does -/

variable {f f' : Forest} {kind : Kind} {attributes : Attributes} {position : Position}
  {children : List Nat}

/-- A forest whose two ways of keeping its nodes agree. -/
structure WellFormed (f : Forest) : Prop where
  sized : f.parents.size = f.size
  /-- A node has the number that it is found at, and so has every node below it. -/
  numbered : ∀ id t, f.tree? id = some t → t.id = id
  below : ∀ id t, f.tree? id = some t → ∀ u ∈ t.children, f.tree? u.id = some u
  parent_iff : ∀ p c, c ∈ f.children p ↔ f.parent? c = some p
  nodup : ∀ p, (f.children p).Nodup
  lt : ∀ p c, c ∈ f.children p → c < p ∧ p < f.size

theorem tree?_eq_some {id : Nat} (h : id < f.size) : ∃ t, f.tree? id = some t :=
  ⟨_, Array.getElem?_eq_getElem h⟩

/-- A node that was made: it stands behind all others, over the children that were
given, which have it as their parent. -/
structure Grown (f : Forest) (head : Head) (children : List Nat) (f' : Forest) : Prop where
  number : head.id = f.size
  free : ∀ c ∈ children, c < f.size ∧ f.parent? c = none
  nodup : children.Nodup
  sized : f'.parents.size = f'.size
  size : f'.size = f.size + 1
  tree? : ∀ id, f'.tree? id =
    if id = f.size then some (.node head (children.filterMap f.tree?)) else f.tree? id
  parent? : ∀ c, f'.parent? c = if c ∈ children then some f.size else f.parent? c

theorem grown_of_add (hf : f.parents.size = f.size)
    (h : f.add kind attributes position children = .ok f') :
    Grown f ⟨f.size, kind, attributes, position⟩ children f' := by
  obtain ⟨parents, hparents, h⟩ := bind_eq_ok h
  obtain rfl := Except.ok.inj h
  obtain ⟨hsize, hfree, hnodup, hparent⟩ := taken_of_takeAll hparents
  have hlt : ∀ c ∈ children, c < f.size := by
    intro c hc
    obtain ⟨hlt, -⟩ := Array.getElem?_eq_some_iff.mp (hfree c hc)
    exact hlt.trans_eq hf
  refine ⟨rfl, ?_, hnodup, ?_, Array.size_push _, ?_, ?_⟩
  · intro c hc
    rw [parent?, hfree c hc]
    exact ⟨hlt c hc, rfl⟩
  · show (parents.push none).size = (f.trees.push _).size
    rw [Array.size_push, Array.size_push, hsize, hf]
    rfl
  · intro id
    exact Array.getElem?_push
  · intro c
    show ((parents.push none)[c]?).join = _
    rw [Array.getElem?_push]
    split
    · next heq =>
      -- the node itself is nobody's child yet
      have hnot : c ∉ children := fun hc => (hlt c hc).ne (heq.trans (hsize.trans hf))
      rw [if_neg hnot, parent?, Array.getElem?_eq_none (by omega)]
      rfl
    · rw [hparent]
      split
      · rfl
      · rfl

namespace Grown

variable {head : Head} (hf : f.WellFormed) (h : Grown f head children f')
include hf h

theorem children_eq (p : Nat) :
    f'.children p = if p = f.size then children else f.children p := by
  rw [Forest.children, h.tree?]
  by_cases hp : p = f.size
  · rw [if_pos hp, if_pos hp]
    -- the trees of the children have the numbers that were given
    show (children.filterMap f.tree?).map Tree.id = children
    rw [List.map_filterMap]
    refine (List.filterMap_congr ?_).trans List.filterMap_some
    intro c hc
    obtain ⟨t, ht⟩ := tree?_eq_some (h.free c hc).1
    rw [ht, Option.map_some, hf.numbered c t ht]
  · rw [if_neg hp, if_neg hp]
    rfl

theorem wellFormed : f'.WellFormed where
  sized := h.sized
  numbered id t ht := by
    rw [h.tree?] at ht
    split at ht
    · next heq =>
      obtain rfl := Option.some.inj ht
      exact h.number.trans heq.symm
    · exact hf.numbered id t ht
  below id t ht u hu := by
    have hold : f.tree? u.id = some u := by
      rw [h.tree?] at ht
      split at ht
      · obtain rfl := Option.some.inj ht
        obtain ⟨c, -, hc⟩ := List.mem_filterMap.mp hu
        rwa [hf.numbered c u hc]
      · exact hf.below id t ht u hu
    have hlt : u.id < f.size := (Array.getElem?_eq_some_iff.mp hold).1
    rw [h.tree?, if_neg hlt.ne, hold]
  parent_iff p c := by
    rw [h.children_eq hf, h.parent?]
    by_cases hp : p = f.size
    · subst hp
      rw [if_pos rfl]
      by_cases hc : c ∈ children
      · simp only [hc, if_true]
      · -- no older node has the new one as its parent
        rw [if_neg hc, ← hf.parent_iff]
        exact iff_of_false hc fun hold => (hf.lt _ _ hold).2.ne rfl
    · rw [if_neg hp, hf.parent_iff]
      by_cases hc : c ∈ children
      · rw [if_pos hc, (h.free c hc).2]
        exact iff_of_false nofun fun heq => hp (Option.some.inj heq).symm
      · rw [if_neg hc]
  nodup p := by
    rw [h.children_eq hf]
    split
    · exact h.nodup
    · exact hf.nodup p
  lt p c hc := by
    rw [h.children_eq hf] at hc
    rw [h.size]
    split at hc
    · next heq =>
      rw [heq]
      exact ⟨(h.free c hc).1, Nat.lt_succ_self _⟩
    · obtain ⟨hlt, hp⟩ := hf.lt p c hc
      exact ⟨hlt, Nat.lt_succ_of_lt hp⟩

end Grown

theorem wellFormed_empty : empty.WellFormed where
  sized := rfl
  numbered _ _ h := nomatch h
  below _ _ h := nomatch h
  parent_iff _ _ := iff_of_false nofun nofun
  nodup _ := .nil
  lt _ _ h := nomatch h

/-! ### Walks come to an end -/

/-- The loop that goes outwards from a node to the nearest one of a kind, given the
parent to begin with; there is no answer if so many turns are not enough. -/
def climb (f : Forest) (kind : Kind) : Nat → Option Nat → Option (Option Tree)
  | 0, _ => none
  | _ + 1, none => some none
  | turns + 1, some id =>
    match f.tree? id with
    | none => none
    | some t => if t.kind = kind then some (some t) else f.climb kind turns (f.parent? id)

namespace WellFormed

variable (hf : f.WellFormed)
include hf

/-- No number stands twice in the lists of children of all nodes. -/
theorem nodup_flatMap : ((List.range f.size).flatMap f.children).Nodup := by
  rw [List.nodup_flatMap]
  refine ⟨fun p _ => hf.nodup p, List.nodup_range.imp ?_⟩
  intro p q hne c hp hq
  rw [hf.parent_iff] at hp hq
  exact hne (Option.some.inj (hp.symm.trans hq))

theorem lt_of_parent? {p c : Nat} (h : f.parent? c = some p) : c < p ∧ p < f.size :=
  hf.lt p c ((hf.parent_iff p c).mpr h)

theorem wellFounded_parent : WellFounded fun p c => f.parent? c = some p := by
  refine Subrelation.wf ?_ (measure fun id => f.size - id).wf
  intro p c hp
  have hlt := hf.lt_of_parent? hp
  show f.size - p < f.size - c
  omega

theorem wellFounded_children : WellFounded fun c p => c ∈ f.children p :=
  Subrelation.wf (fun h => (hf.lt _ _ h).1) Nat.lt_wfRel.wf

theorem above_eq_cons {p c : Nat} (h : f.parent? c = some p) :
    ∃ t, f.tree? p = some t ∧ f.above c = t :: f.above p := by
  obtain ⟨hlt, hp⟩ := hf.lt_of_parent? h
  obtain ⟨t, ht⟩ := tree?_eq_some hp
  refine ⟨t, ht, ?_⟩
  rw [above, h]
  show (if c < p ∧ p < f.size then (f.tree? p).toList ++ f.above p else []) = _
  rw [if_pos ⟨hlt, hp⟩, ht]
  rfl

/-- The loop ends before it has made as many turns as there are nodes behind the one
that it began at, with the nearest tree of the kind around this one. -/
theorem climb_eq (kind : Kind) {turns id : Nat} (hid : id < f.size) (hturns : f.size ≤ turns + id) :
    f.climb kind turns (f.parent? id) =
      some ((Place.nearest? kind (f.above id)).map (·.tree)) := by
  induction turns generalizing id with
  | zero => omega
  | succ turns ih =>
    rcases e : f.parent? id with - | p
    · rw [above, e]
      rfl
    · obtain ⟨hlt, hp⟩ := hf.lt_of_parent? e
      obtain ⟨t, ht, habove⟩ := hf.above_eq_cons e
      rw [climb, ht, habove, Place.nearest?]
      show (if t.kind = kind then some (some t) else f.climb kind turns (f.parent? p)) = _
      split
      · rfl
      · exact ih hp (by omega)

end WellFormed

/-- A well-formed forest with the given lists of children, node by node. -/
structure Holds (f : Forest) (lists : List (List Nat)) : Prop where
  wellFormed : f.WellFormed
  size : f.size = lists.length
  children : ∀ id, f.children id = lists[id]?.getD []

theorem Holds.add {lists : List (List Nat)} (hf : f.Holds lists)
    (h : f.add kind attributes position children = .ok f') : f'.Holds (lists ++ [children]) := by
  have hgrown := grown_of_add hf.wellFormed.sized h
  refine ⟨hgrown.wellFormed hf.wellFormed, ?_, fun id => ?_⟩
  · rw [hgrown.size, hf.size, List.length_append, List.length_singleton]
  · rw [hgrown.children_eq hf.wellFormed, hf.size, hf.children]
    split
    · next heq => rw [heq, List.getElem?_concat_length, Option.getD_some]
    · next hne =>
      rcases Nat.lt_or_gt_of_ne hne with hlt | hgt
      · rw [List.getElem?_append_left hlt]
      · rw [List.getElem?_eq_none hgt.le, List.getElem?_eq_none]
        rw [List.length_append, List.length_singleton]
        omega

end Forest

/-! ### Drafts -/

namespace Draft

/-- One of the calls by which a draft goes on. -/
inductive Step where
  | moveTo (position : Position)
  | add (kind : Kind) (attributes : Attributes) (children : List Nat)
  | addForm (form : Form Nat)

/-- The children that a step gives to the node that it makes, if it makes one. -/
def Step.children? : Step → Option (List Nat)
  | .moveTo _ => none
  | .add _ _ children => some children
  | .addForm form => some form.children

def step (d : Draft) : Step → Except Misuse Draft
  | .moveTo position => .ok (d.moveTo position)
  | .add kind attributes children => d.add kind attributes children
  | .addForm form => d.addForm form

/-- The draft that steps come to from nothing, unless one of them is a misuse. -/
def ofSteps (steps : List Step) : Except Misuse Draft := steps.foldlM step .empty

variable {d d' : Draft} {lists : List (List Nat)}

theorem holds_of_step {s : Step} (hd : d.forest.Holds lists) (h : d.step s = .ok d') :
    d'.forest.Holds (lists ++ s.children?.toList) := by
  have hadd : ∀ {kind attributes children}, d.add kind attributes children = .ok d' →
      d'.forest.Holds (lists ++ [children]) := by
    intro kind attributes children h
    obtain ⟨forest, hforest, h⟩ := bind_eq_ok h
    obtain rfl := Except.ok.inj h
    exact hd.add hforest
  cases s with
  | moveTo position =>
    obtain rfl := Except.ok.inj h
    rwa [Step.children?, Option.toList_none, List.append_nil]
  | add kind attributes children => exact hadd h
  | addForm form => exact hadd h

theorem holds_of_steps {steps : List Step} (hd : d.forest.Holds lists)
    (h : steps.foldlM step d = .ok d') :
    d'.forest.Holds (lists ++ steps.filterMap Step.children?) := by
  induction steps generalizing d lists with
  | nil =>
    obtain rfl : d = d' := Except.ok.inj h
    rwa [List.filterMap_nil, List.append_nil]
  | cons s rest ih =>
    rw [List.foldlM_cons] at h
    obtain ⟨d₁, hs, hrest⟩ := bind_eq_ok h
    have hheld := ih (holds_of_step hd hs) hrest
    rw [List.append_assoc] at hheld
    cases e : s.children? <;> simpa [List.filterMap_cons, e] using hheld

/-- **Forests.**  Whatever steps a draft was made by, its nodes have the children that
the steps gave them, and the numbers of parents fit: a node has just the one for its
parent that has it as a child.  No node is a child twice, and children have smaller
numbers than their parents, so that no walk along parents or along children goes on
forever.  From every node the search for the nearest one of a kind around it comes to
an end, and finds what is around the place of the node. -/
theorem forests_are_well_formed {steps : List Step} (h : ofSteps steps = .ok d) :
    d.forest.size = (steps.filterMap Step.children?).length ∧
    (∀ p, d.forest.children p = (steps.filterMap Step.children?)[p]?.getD []) ∧
    (∀ p c, c ∈ d.forest.children p ↔ d.forest.parent? c = some p) ∧
    ((List.range d.forest.size).flatMap d.forest.children).Nodup ∧
    (∀ p c, c ∈ d.forest.children p → c < p ∧ p < d.forest.size) ∧
    (WellFounded fun p c => d.forest.parent? c = some p) ∧
    (WellFounded fun c p => c ∈ d.forest.children p) ∧
    ∀ id < d.forest.size, ∃ place, d.forest.place? id = some place ∧
      ∀ kind turns, d.forest.size ≤ turns →
        d.forest.climb kind turns (d.forest.parent? id) =
          some ((place.ancestor? kind).map (·.tree)) := by
  have hempty : (empty.forest).Holds [] := ⟨Forest.wellFormed_empty, rfl, fun _ => rfl⟩
  obtain ⟨hd, hsize, hchildren⟩ := holds_of_steps hempty h
  refine ⟨hsize, hchildren, hd.parent_iff, hd.nodup_flatMap, hd.lt, hd.wellFounded_parent,
    hd.wellFounded_children, ?_⟩
  intro id hid
  obtain ⟨t, ht⟩ := Forest.tree?_eq_some hid
  refine ⟨⟨t, d.forest.above id⟩, ?_, ?_⟩
  · rw [Forest.place?, ht]
    rfl
  · intro kind turns hturns
    exact hd.climb_eq kind hid (hturns.trans (Nat.le_add_right ..))

/-! ### A draft with a node that is left over

    int sum() { return x + 1; }
-/

/-- The steps make the method; node 1 is never taken. -/
def summing : List Step :=
  [.moveTo ⟨1, 1⟩, .addForm (.identifier "x"), .addForm .self, .addForm (.integer 1),
   .addForm (.arithmetic "+" 0 2), .addForm (.typeName "int" false false), .moveTo ⟨2, 1⟩,
   .add .returnStmt .empty [3], .addForm (.methodDecl "sum" 4 false [5])]

theorem forests_are_well_formed_summing :
    ∃ d method, ofSteps summing = .ok d ∧ d.forest.tree? 6 = some method ∧
      d.forest.size = 7 ∧ d.forest.children 6 = [4, 5] ∧
      (∀ p c, c ∈ d.forest.children p ↔ d.forest.parent? c = some p) ∧
      (∀ p, 1 ∉ d.forest.children p) ∧
      ∃ place, d.forest.place? 0 = some place ∧
        (place.ancestor? .methodDecl).map (·.tree) = some method := by
  obtain ⟨d, hd⟩ : ∃ d, ofSteps summing = .ok d := ⟨_, rfl⟩
  obtain ⟨hsize, hchildren, hparent, -, -, -, -, hclimb⟩ := forests_are_well_formed hd
  have hseven : d.forest.size = 7 := hsize
  obtain ⟨place, hplace, hends⟩ := hclimb 0 (by rw [hseven]; decide)
  obtain rfl : _ = d := Except.ok.inj hd
  refine ⟨_, _, hd, rfl, hsize, hchildren 6, hparent, ?_, place, hplace, ?_⟩
  · intro p hp
    nomatch (hparent p 1).mp hp
  · exact (Option.some.inj (hends .methodDecl 7 hseven.le)).symm

/-- A node is taken once. -/
example : ofSteps [.addForm .self, .addForm (.expressionStmt 0), .addForm (.expressionStmt 0)] =
    .error (.takenTwice 0) := rfl

end Draft

end JavaMinus
