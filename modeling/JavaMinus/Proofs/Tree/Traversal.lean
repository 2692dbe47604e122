/-
JavaMinus/Proofs/Tree/Traversal.lean

Walks through a forest.

The nodes inside a node can be listed without recursion, by a loop that keeps a
stack: it takes the node on top, lists it, and pushes its children from the right to
the left, so that the leftmost of them is on top.  On the stack lie nodes of different
depths; what they stand for is the reading order of the trees below them, one tree
after another, and a turn of the loop moves the first node of that order to the list
(`run_eq`).

In reading order a node stands in front of everything inside it.  So of the nodes
around a given one the innermost stands last, and this is what the search upwards
along parents finds first (`traversal_is_preorder`).
-/
import JavaMinus.Proofs.Tree.Forest
import Mathlib.Data.List.Pairwise
import Mathlib.Logic.Relation

namespace JavaMinus

namespace Forest

/-! ### Reading order by numbers -/

/-- The numbers of the nodes inside a node, in the order in which the recursion over
its tree comes to them. -/
def descendants (f : Forest) (id : Nat) : List Nat :=
  ((f.tree? id).map fun t => t.descendants.map (·.id)).getD []

/-- A node, and the nodes inside it. -/
def preorder (f : Forest) (id : Nat) : List Nat := id :: f.descendants id

/-- The first node has the second one for its parent. -/
def HasParent (f : Forest) (child parent : Nat) : Prop := f.parent? child = some parent

/-- Whether `a` is a node of a kind that has the node `id` inside it. -/
def encloses (f : Forest) (kind : Kind) (id a : Nat) : Bool :=
  decide (id ∈ f.descendants a) && (f.tree? a).any (·.kind == kind)

/-- The nodes of a kind around a node, as they stand in the reading order of the tree
of `root`. -/
def enclosing (f : Forest) (kind : Kind) (root id : Nat) : List Nat :=
  (f.preorder root).filter (f.encloses kind id)

/-! ### The loop with a stack -/

/-- What the loop has listed, and its stack, of which the first node is on top. -/
structure Walk where
  listed : List Nat
  stack : List Nat

/-- Push nodes one after another. -/
def pushAll (stack : List Nat) (ids : List Nat) : List Nat :=
  ids.foldl (fun stack id => id :: stack) stack

/-- The loop until its stack is empty; there is no answer if so many turns are not
enough. -/
def Walk.run (f : Forest) : Nat → Walk → Option (List Nat)
  | _, ⟨listed, []⟩ => some listed
  | 0, ⟨_, _ :: _⟩ => none
  | turns + 1, ⟨listed, id :: rest⟩ =>
    run f turns ⟨listed ++ [id], pushAll rest (f.children id).reverse⟩

/-- List the nodes inside a node by the loop. -/
def walk (f : Forest) (turns id : Nat) : Option (List Nat) :=
  Walk.run f turns ⟨[], pushAll [] (f.children id).reverse⟩

/-- What is pushed from the right to the left lies on the stack from the left to the
right. -/
theorem pushAll_reverse (stack ids : List Nat) : pushAll stack ids.reverse = ids ++ stack := by
  rw [pushAll, List.foldl_reverse]
  induction ids with
  | nil => rfl
  | cons id rest ih => rw [List.foldr_cons, ih, List.cons_append]

variable {f : Forest}

theorem descendants_of_tree? {id : Nat} {t : Tree} (h : f.tree? id = some t) :
    f.descendants id = t.descendants.map (·.id) := by
  rw [descendants, h, Option.map_some, Option.getD_some]

theorem map_id_preorderAll {ts : List Tree} (h : ∀ u ∈ ts, f.tree? u.id = some u) :
    (Tree.preorderAll ts).map (·.id) = (ts.map (·.id)).flatMap f.preorder := by
  induction ts with
  | nil => rfl
  | cons t rest ih =>
    obtain ⟨ht, hrest⟩ := List.forall_mem_cons.mp h
    rw [Tree.preorderAll, List.map_append, ih hrest, Tree.preorder_eq, List.map_cons,
      ← descendants_of_tree? ht, List.map_cons, List.flatMap_cons, preorder]

namespace WellFormed

variable (hf : f.WellFormed)
include hf

/-- Inside a node are its children, each in front of what is inside it. -/
theorem descendants_eq (id : Nat) :
    f.descendants id = (f.children id).flatMap f.preorder := by
  rw [children]
  rcases e : f.tree? id with - | t
  · rw [descendants, e]
    rfl
  · rw [descendants_of_tree? e, Tree.descendants]
    exact map_id_preorderAll (hf.below id t e)

/-- The invariant of the loop: what is listed, in front of the trees of the stack in
reading order, stays the same.  A turn lists one node of it. -/
theorem run_eq (turns : Nat) (w : Walk) :
    w.run f turns =
      if (w.stack.flatMap f.preorder).length ≤ turns
      then some (w.listed ++ w.stack.flatMap f.preorder) else none := by
  induction turns generalizing w with
  | zero =>
    obtain ⟨listed, - | ⟨id, rest⟩⟩ := w
    · rw [Walk.run, List.flatMap_nil, List.length_nil, if_pos (Nat.le_refl 0), List.append_nil]
    · rw [Walk.run, if_neg]
      exact Nat.not_succ_le_zero _
  | succ turns ih =>
    obtain ⟨listed, - | ⟨id, rest⟩⟩ := w
    · rw [Walk.run, List.flatMap_nil, List.length_nil, if_pos (Nat.zero_le _), List.append_nil]
    · have hstack : (pushAll rest (f.children id).reverse).flatMap f.preorder =
          f.descendants id ++ rest.flatMap f.preorder := by
        rw [pushAll_reverse, List.flatMap_append, ← hf.descendants_eq]
      rw [Walk.run, ih, hstack, List.flatMap_cons, preorder, List.append_assoc,
        List.singleton_append, List.cons_append]
      simp only [List.length_cons, Nat.add_le_add_iff_right]

/-- The loop takes just as many turns as there are nodes to list. -/
theorem walk_eq (turns id : Nat) :
    f.walk turns id =
      if (f.descendants id).length ≤ turns then some (f.descendants id) else none := by
  rw [walk, hf.run_eq, pushAll_reverse, List.append_nil, ← hf.descendants_eq, List.nil_append]

/-! ### Upwards and downwards -/

/-- A node lies inside another one just if the way upwards from it comes there. -/
theorem mem_descendants_iff {n m : Nat} :
    m ∈ f.descendants n ↔ Relation.TransGen f.HasParent m n := by
  induction n using hf.wellFounded_children.induction with
  | _ n ih =>
    rw [hf.descendants_eq, List.mem_flatMap, Relation.TransGen.tail'_iff]
    -- the last step of the way upwards is the one from a child
    constructor
    · rintro ⟨c, hc, hm⟩
      refine ⟨c, ?_, (hf.parent_iff n c).mp hc⟩
      rcases List.mem_cons.mp hm with rfl | hm
      · exact .refl
      · exact ((ih c hc).mp hm).to_reflTransGen
    · rintro ⟨c, hm, hparent⟩
      have hc : c ∈ f.children n := (hf.parent_iff n c).mpr hparent
      refine ⟨c, hc, List.mem_cons.mpr ?_⟩
      rcases Relation.reflTransGen_iff_eq_or_transGen.mp hm with heq | hm
      · exact Or.inl heq.symm
      · exact Or.inr ((ih c hc).mpr hm)

theorem mem_preorder_iff {n m : Nat} :
    m ∈ f.preorder n ↔ Relation.ReflTransGen f.HasParent m n := by
  rw [preorder, List.mem_cons, hf.mem_descendants_iff,
    Relation.reflTransGen_iff_eq_or_transGen, eq_comm]

/-- The nodes that a child lies in are its parent and those that the parent lies in. -/
theorem mem_descendants_iff_of_parent? {c p a : Nat} (h : f.parent? c = some p) :
    c ∈ f.descendants a ↔ p ∈ f.preorder a := by
  rw [hf.mem_descendants_iff, hf.mem_preorder_iff, Relation.TransGen.head'_iff]
  constructor
  · rintro ⟨p', hp', hup⟩
    obtain rfl : p = p' := Option.some.inj (h.symm.trans hp')
    exact hup
  · exact fun hup => ⟨p, h, hup⟩

theorem lt_of_mem_descendants {n m : Nat} (h : m ∈ f.descendants n) : m < n := by
  have hup := hf.mem_descendants_iff.mp h
  induction hup with
  | single hparent => exact (hf.lt_of_parent? hparent).1
  | tail hup hparent ih =>
    exact (ih (hf.mem_descendants_iff.mpr hup)).trans (hf.lt_of_parent? hparent).1

/-- No node lies in the trees of two children of one node. -/
theorem eq_of_mem_preorder {p c c' m : Nat} (hc : f.parent? c = some p)
    (hc' : f.parent? c' = some p) (hm : m ∈ f.preorder c) (hm' : m ∈ f.preorder c') : c = c' := by
  -- one of two siblings inside the other would have its own parent inside itself
  have hapart : ∀ {c c'}, f.parent? c = some p → f.parent? c' = some p →
      Relation.ReflTransGen f.HasParent c c' → c = c' := by
    intro c c' hc hc' hup
    rcases Relation.reflTransGen_iff_eq_or_transGen.mp hup with heq | hup
    · exact heq.symm
    · have hp := (hf.mem_descendants_iff_of_parent? hc).mp (hf.mem_descendants_iff.mpr hup)
      have hlt : c' < p := (hf.lt_of_parent? hc').1
      rcases List.mem_cons.mp hp with heq | hp
      · omega
      · have := hf.lt_of_mem_descendants hp
        omega
  have hunique : Relator.RightUnique f.HasParent := fun _ _ _ h h' =>
    Option.some.inj (Eq.trans (Eq.symm h) h')
  rcases Relation.ReflTransGen.total_of_right_unique hunique (hf.mem_preorder_iff.mp hm)
    (hf.mem_preorder_iff.mp hm') with hup | hup
  · exact hapart hc hc' hup
  · exact (hapart hc' hc hup).symm

/-! ### What stands in front -/

/-- In reading order no node stands twice, and none stands in front of one that it
lies in. -/
theorem pairwise_preorder (n : Nat) : (f.preorder n).Pairwise fun a b => a ∉ f.preorder b := by
  induction n using hf.wellFounded_children.induction with
  | _ n ih =>
    refine List.pairwise_cons.mpr ⟨?_, ?_⟩
    · -- what is inside a node has a smaller number
      intro b hb hn
      have hlt := hf.lt_of_mem_descendants hb
      rcases List.mem_cons.mp hn with heq | hn
      · omega
      · have := hf.lt_of_mem_descendants hn
        omega
    · rw [hf.descendants_eq, List.pairwise_flatMap]
      refine ⟨ih, (hf.nodup n).imp_of_mem ?_⟩
      -- a node of an earlier child inside one of a later child would be below both
      intro c c' hc hc' hne a ha b hb hab
      refine hne (hf.eq_of_mem_preorder ((hf.parent_iff n c).mp hc) ((hf.parent_iff n c').mp hc')
        ha ?_)
      rw [hf.mem_preorder_iff] at hab hb ⊢
      exact hab.trans hb

theorem nodup_preorder (n : Nat) : (f.preorder n).Nodup :=
  (hf.pairwise_preorder n).imp fun h heq => h (List.mem_cons.mpr (Or.inl heq))

/-! ### The innermost node of a kind -/

theorem enclosing_of_root {m : Nat} (kind : Kind) (root : Nat) (h : f.parent? m = none) :
    f.enclosing kind root m = [] := by
  refine List.filter_eq_nil_iff.mpr fun a _ ha => ?_
  obtain ⟨hm, -⟩ := Bool.and_eq_true_iff.mp ha
  have hup := hf.mem_descendants_iff.mp (of_decide_eq_true hm)
  obtain ⟨p, hp, -⟩ := Relation.TransGen.head'_iff.mp hup
  nomatch h.symm.trans hp

/-- If the parent is of the kind, it is the last: whatever stands behind it in reading
order is not around it. -/
theorem getLast?_enclosing {m p root : Nat} {t : Tree} (h : f.parent? m = some p)
    (hp : p ∈ f.preorder root) (ht : f.tree? p = some t) :
    (f.enclosing t.kind root m).getLast? = some p := by
  obtain ⟨before, after, hsplit⟩ := List.append_of_mem hp
  have hpairs := hf.pairwise_preorder root
  rw [hsplit, List.pairwise_append, List.pairwise_cons] at hpairs
  have hbehind : after.filter (f.encloses t.kind m) = [] := by
    refine List.filter_eq_nil_iff.mpr fun b hb hencloses => ?_
    obtain ⟨hm, -⟩ := Bool.and_eq_true_iff.mp hencloses
    exact hpairs.2.1.1 b hb ((hf.mem_descendants_iff_of_parent? h).mp (of_decide_eq_true hm))
  have hself : f.encloses t.kind m p := by
    rw [encloses, ht, Option.any_some, beq_self_eq_true, Bool.and_true]
    exact decide_eq_true ((hf.mem_descendants_iff_of_parent? h).mpr (List.mem_cons_self ..))
  rw [enclosing, hsplit, List.filter_append, List.filter_cons_of_pos hself, hbehind,
    List.getLast?_concat]

/-- If the parent is of another kind, the nodes of the kind around a node are those
around its parent. -/
theorem enclosing_eq_of_parent? {m p : Nat} {t : Tree} {kind : Kind} (root : Nat)
    (h : f.parent? m = some p) (ht : f.tree? p = some t) (hkind : t.kind ≠ kind) :
    f.enclosing kind root m = f.enclosing kind root p := by
  refine List.filter_congr fun a _ => ?_
  rw [encloses, encloses]
  by_cases hpa : a = p
  · rw [hpa, ht, Option.any_some, beq_false_of_ne hkind, Bool.and_false, Bool.and_false]
  · have hiff : m ∈ f.descendants a ↔ p ∈ f.descendants a := by
      rw [hf.mem_descendants_iff_of_parent? h, preorder, List.mem_cons]
      exact or_iff_right fun heq => hpa heq.symm
    rw [decide_eq_decide.mpr hiff]

/-- The search upwards finds the last of the nodes of a kind around a node. -/
theorem nearest?_eq (kind : Kind) {root m : Nat} (hroot : f.parent? root = none)
    (hm : Relation.ReflTransGen f.HasParent m root) :
    Place.nearest? kind (f.above m) = (f.enclosing kind root m).getLast?.bind f.place? := by
  -- upwards, one parent after the other
  induction m using hf.wellFounded_parent.induction with
  | _ m ih =>
    rcases e : f.parent? m with - | p
    · rw [hf.enclosing_of_root kind root e, above, e]
      rfl
    · obtain ⟨t, ht, habove⟩ := hf.above_eq_cons e
      have hp : Relation.ReflTransGen f.HasParent p root := by
        rcases Relation.ReflTransGen.cases_head hm with rfl | ⟨p', hp', hup⟩
        · cases hroot.symm.trans e
        · obtain rfl : p = p' := Option.some.inj (e.symm.trans hp')
          exact hup
      rw [habove, Place.nearest?]
      split
      · next hkind =>
        -- the search stops at the parent, which is the last one around the node
        rw [← hkind, hf.getLast?_enclosing e (hf.mem_preorder_iff.mpr hp) ht, Option.bind_some,
          place?, ht]
        rfl
      · next hkind => rw [ih p e hp, hf.enclosing_eq_of_parent? root e ht hkind]

/-- Every way upwards ends at a node without a parent. -/
theorem exists_root (m : Nat) :
    ∃ root, f.parent? root = none ∧ Relation.ReflTransGen f.HasParent m root := by
  induction m using hf.wellFounded_parent.induction with
  | _ m ih =>
    rcases e : f.parent? m with - | p
    · exact ⟨m, e, .refl⟩
    · obtain ⟨root, hroot, hup⟩ := ih p e
      exact ⟨root, hroot, .head e hup⟩

end WellFormed

/-! ### Places -/

namespace WellFormed

theorem above_of_mem_children (hf : f.WellFormed) {t u : Tree} (ht : f.tree? t.id = some t)
    (hu : u ∈ t.children) : f.above u.id = t :: f.above t.id := by
  have hchild : u.id ∈ f.children t.id := by
    rw [children, ht]
    exact List.mem_map_of_mem hu
  obtain ⟨t', ht', habove⟩ := hf.above_eq_cons ((hf.parent_iff _ _).mp hchild)
  obtain rfl : t = t' := Option.some.inj (ht.symm.trans ht')
  exact habove

mutual
/-- The places that the recursion over a tree comes to are those of the numbers that
it lists. -/
theorem map_some_within (hf : f.WellFormed) :
    ∀ t : Tree, f.tree? t.id = some t →
      (Place.within (f.above t.id) t).map some = t.preorder.map fun u => f.place? u.id
  | .node h cs, ht => by
    rw [Place.within, Tree.preorder, List.map_cons, List.map_cons]
    refine congrArg₂ _ ?_ (map_some_withinAll hf cs fun u hu => ⟨hf.below _ _ ht u hu, ?_⟩)
    · rw [place?, ht, Option.map_some]
    · exact hf.above_of_mem_children ht hu

theorem map_some_withinAll (hf : f.WellFormed) {above : List Tree} :
    ∀ ts : List Tree, (∀ u ∈ ts, f.tree? u.id = some u ∧ f.above u.id = above) →
      (Place.withinAll above ts).map some = (Tree.preorderAll ts).map fun u => f.place? u.id
  | [], _ => by rw [Place.withinAll, Tree.preorderAll, List.map_nil, List.map_nil]
  | t :: rest, h => by
    obtain ⟨⟨ht, habove⟩, hrest⟩ := List.forall_mem_cons.mp h
    rw [Place.withinAll, Tree.preorderAll, List.map_append, List.map_append, ← habove,
      map_some_within hf t ht, habove, map_some_withinAll hf rest hrest]
end

/-- The places inside the place of a node are those of the nodes inside it. -/
theorem map_some_descendants (hf : f.WellFormed) {id : Nat} {place : Place}
    (h : f.place? id = some place) :
    place.descendants.map some = (f.descendants id).map f.place? := by
  obtain ⟨t, ht, rfl⟩ := Option.map_eq_some_iff.mp h
  have hid : t.id = id := hf.numbered id t ht
  rw [descendants_of_tree? ht, List.map_map]
  refine hf.map_some_withinAll t.children fun u hu => ⟨hf.below id t ht u hu, ?_⟩
  rw [hf.above_of_mem_children (hid ▸ ht) hu, hid]
  rfl

end WellFormed

end Forest

namespace Draft

variable {d : Draft}

theorem wellFormed_of_ofSteps {steps : List Step} (h : ofSteps steps = .ok d) :
    d.forest.WellFormed := by
  have hempty : (empty.forest).Holds [] := ⟨Forest.wellFormed_empty, rfl, fun _ => rfl⟩
  exact (holds_of_steps hempty h).wellFormed

/-- **Traversal.**  In a forest that was made by steps, the loop with a stack lists the
nodes inside a node in just as many turns as there are of them, in the order of the
recursion, none of them twice; the places of these nodes are those inside the place of
the node.  They are the nodes from which the way upwards along parents comes to it.  So
the search upwards for the nearest node of a kind finds the last of the nodes of this
kind that have the node inside them, in the reading order of the tree that it lies in. -/
theorem traversal_is_preorder {steps : List Step} (h : ofSteps steps = .ok d) {n : Nat}
    (hn : n < d.forest.size) :
    (∀ turns, d.forest.walk turns n =
      if (d.forest.descendants n).length ≤ turns then some (d.forest.descendants n) else none) ∧
    d.forest.descendants n = (d.forest.children n).flatMap d.forest.preorder ∧
    (d.forest.preorder n).Nodup ∧
    (∀ m, m ∈ d.forest.descendants n ↔ Relation.TransGen d.forest.HasParent m n) ∧
    (∃ root, d.forest.parent? root = none ∧ n ∈ d.forest.preorder root) ∧
    ∃ place, d.forest.place? n = some place ∧
      place.descendants.map some = (d.forest.descendants n).map d.forest.place? ∧
      ∀ root kind, d.forest.parent? root = none → n ∈ d.forest.preorder root →
        place.ancestor? kind = (d.forest.enclosing kind root n).getLast?.bind d.forest.place? ∧
        ∀ turns, d.forest.size ≤ turns → d.forest.climb kind turns (d.forest.parent? n) =
          some ((d.forest.enclosing kind root n).getLast?.bind d.forest.tree?) := by
  have hf := wellFormed_of_ofSteps h
  obtain ⟨t, ht⟩ := Forest.tree?_eq_some hn
  have hplace : d.forest.place? n = some ⟨t, d.forest.above n⟩ := by
    rw [Forest.place?, ht]
    rfl
  refine ⟨fun turns => hf.walk_eq turns n, hf.descendants_eq n, hf.nodup_preorder n,
    fun m => hf.mem_descendants_iff, ?_, _, hplace, hf.map_some_descendants hplace, ?_⟩
  · obtain ⟨root, hroot, hup⟩ := hf.exists_root n
    exact ⟨root, hroot, hf.mem_preorder_iff.mpr hup⟩
  · intro root kind hroot hmem
    have hnearest := hf.nearest?_eq kind hroot (hf.mem_preorder_iff.mp hmem)
    refine ⟨hnearest, fun turns hturns => ?_⟩
    have htree : ∀ id, (d.forest.place? id).map (·.tree) = d.forest.tree? id := by
      intro id
      rw [Forest.place?, Option.map_map]
      exact Option.map_id_apply
    rw [hf.climb_eq kind hn (hturns.trans (Nat.le_add_right ..)), hnearest, Option.map_bind]
    exact congrArg some (Option.bind_congr fun id _ => htree id)

/-! ### A loop inside a block

    { while (more) { x = a + 1; } }
-/

/-- The steps make the outer block. -/
def nesting : List Step :=
  [.addForm (.identifier "more"), .addForm (.identifier "a"), .addForm (.integer 1),
   .addForm (.arithmetic "+" 1 2), .addForm (.assignment "x" 3), .addForm (.block [4]),
   .addForm (.loop 0 5), .addForm (.block [6])]

theorem traversal_is_preorder_nesting :
    ∃ d place, ofSteps nesting = .ok d ∧ 7 < d.forest.size ∧
      d.forest.walk 7 7 = some [6, 0, 5, 4, 3, 1, 2] ∧ d.forest.walk 6 7 = none ∧
      d.forest.place? 1 = some place ∧ d.forest.parent? 7 = none ∧ 1 ∈ d.forest.preorder 7 ∧
      d.forest.enclosing .block 7 1 = [7, 5] ∧
      place.ancestor? .block = d.forest.place? 5 := by
  obtain ⟨d, hd⟩ : ∃ d, ofSteps nesting = .ok d := ⟨_, rfl⟩
  obtain ⟨hsize, hroot, hinside, hblocks⟩ : d.forest.size = 8 ∧ d.forest.parent? 7 = none ∧
      d.forest.descendants 7 = [6, 0, 5, 4, 3, 1, 2] ∧
      d.forest.enclosing .block 7 1 = [7, 5] := by
    obtain rfl : _ = d := Except.ok.inj hd
    exact ⟨rfl, rfl, rfl, rfl⟩
  have hmem : 1 ∈ d.forest.preorder 7 := by
    rw [Forest.preorder, hinside]
    decide
  obtain ⟨hwalk, -⟩ := traversal_is_preorder hd (n := 7) (by rw [hsize]; decide)
  rw [hinside] at hwalk
  obtain ⟨-, -, -, -, -, place, hplace, -, hfound⟩ :=
    traversal_is_preorder hd (n := 1) (by rw [hsize]; decide)
  obtain ⟨hblock, -⟩ := hfound 7 .block hroot hmem
  rw [hblocks] at hblock
  exact ⟨d, place, hd, by rw [hsize]; decide, hwalk 7, hwalk 6, hplace, hroot, hmem, hblocks,
    hblock⟩

end Draft

end JavaMinus
