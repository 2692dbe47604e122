/-
JavaMinus/Proofs/ThreeAddress/Effects.lean

The order of effects.

The lines of a lowered expression do what the course of the expression says:
its effects are theirs, one for one and in the same order, each done to the
terms that the operands of its node came to, and the operand that the
expression is lowered to stands for what the course comes to.  The same holds
of assignments, returns and expressions that stand as statements
(`effects_in_evaluation_order`).

Lines follow a course where this holds whatever was read in front of them
(`Follow`).  They also leave alone what earlier temporaries hold, so an operand
stands for the same term when the lines of its neighbours have been passed.
-/
import JavaMinus.Proofs.ThreeAddress.Courses
import JavaMinus.Proofs.ThreeAddress.Expansion

namespace JavaMinus.ThreeAddress

open Declarations

/-! ### Lines that follow a course -/

/-- Lines that take the temporaries from one number to another follow a course.
The course depends on what is given in front of the lines, and what it comes to
is read behind them. -/
structure Follow (ls : List Line) (given read : Trace → List Term) (lo hi : Nat)
    (e : List Term → Course) : Prop where
  le : lo ≤ hi
  keeps : ∀ s : Trace, ∀ m < lo, (s.lines ls).held m = s.held m
  settled : Below hi read
  effects : ∀ s : Trace, (s.lines ls).effects =
    s.effects ++ (e (given s) s.effects.length).deeds.map Deed.effect
  terms : ∀ s : Trace, read (s.lines ls) = (e (given s) s.effects.length).terms

section Follow

variable {ls ls' : List Line} {given read read' : Trace → List Term} {lo mid hi : Nat}
  {e e' : List Term → Course}

/-- What is given is at hand behind no lines. -/
theorem follow_given (h : Below lo given) : Follow [] given given lo lo Course.values :=
  ⟨le_rfl, fun _ _ _ => rfl, h, fun s => (List.append_nil s.effects).symm, fun _ => rfl⟩

theorem follow_value (xs : List Term) (h : ∀ s : Trace, read s = xs) (n : Nat) :
    Follow [] given read n n fun _ => .values xs := by
  obtain rfl : read = fun _ => xs := funext h
  exact ⟨le_rfl, fun _ _ _ => rfl, below_const n xs, fun s => (List.append_nil s.effects).symm,
    fun _ => rfl⟩

theorem Follow.congr (h : Follow ls given read lo hi e) (he : ∀ s, e (given s) = e' (given s)) :
    Follow ls given read lo hi e' :=
  ⟨h.le, h.keeps, h.settled, fun s => he s ▸ h.effects s, fun s => he s ▸ h.terms s⟩

/-- A course that depends on nothing is followed whatever is given. -/
theorem Follow.of_const {e : Course} {given' : Trace → List Term}
    (h : Follow ls given read lo hi fun _ => e) : Follow ls given' read lo hi fun _ => e :=
  ⟨h.le, h.keeps, h.settled, h.effects, h.terms⟩

theorem Follow.into (h : Follow ls given read lo mid e) (h' : Follow ls' read read' mid hi e') :
    Follow (ls ++ ls') given read' lo hi fun xs => (e xs).into e' where
  le := h.le.trans h'.le
  keeps := by
    intro s m hm
    rw [Trace.lines_append, h'.keeps _ m (hm.trans_le h.le), h.keeps s m hm]
  settled := h'.settled
  effects := by
    intro s
    rw [Trace.lines_append, h'.effects, h.effects, h.terms, List.length_append, List.length_map,
      List.append_assoc, ← List.map_append]
    rfl
  terms := by
    intro s
    rw [Trace.lines_append, h'.terms, h.effects, h.terms, List.length_append, List.length_map]
    rfl

theorem Follow.before (h : Follow ls given read lo mid e) (h' : Follow ls' given read' mid hi e')
    (hgiven : Below lo given) :
    Follow (ls ++ ls') given (fun s => read s ++ read' s) lo hi
      fun xs => (e xs).before (e' xs) where
  le := h.le.trans h'.le
  keeps := by
    intro s m hm
    rw [Trace.lines_append, h'.keeps _ m (hm.trans_le h.le), h.keeps s m hm]
  settled := (h.settled.mono h'.le).append h'.settled
  effects := by
    intro s
    rw [Trace.lines_append, h'.effects, h.effects, hgiven s _ (h.keeps s), List.length_append,
      List.length_map, List.append_assoc, ← List.map_append]
    rfl
  terms := by
    intro s
    -- the later lines leave alone what the values of the earlier ones are read off
    have hfirst : read (s.lines (ls ++ ls')) = read (s.lines ls) := by
      rw [Trace.lines_append]
      exact h.settled _ _ (h'.keeps _)
    show read (s.lines (ls ++ ls')) ++ read' (s.lines (ls ++ ls')) = _
    rw [hfirst, Trace.lines_append, h'.terms, h.terms, h.effects, hgiven s _ (h.keeps s),
      List.length_append, List.length_map]
    rfl

/-! ### Single lines -/

variable {n : Nat} {tag : Tag} {source : Source}

/-- A fresh temporary leaves the earlier ones alone. -/
theorem held_assign (s : Trace) (n : Nat) (tag : Tag) (source : Source) {m : Nat} (hm : m < n) :
    (s.line (.assign (.temporary n) tag source)).held m = s.held m := by
  have hsource : (s.source source).1.held = s.held := by cases source <;> rfl
  rw [Trace.line, Trace.held_put_temporary, Function.update_of_ne hm.ne, hsource]

/-- A source without an effect is put into a fresh temporary. -/
theorem follow_compute {f : List Term → List Term}
    (h : ∀ s : Trace, (s.source source).1 = s ∧ [(s.source source).2] = f (given s)) :
    Follow [.assign (.temporary n) tag source] given (fun s => [s.held n]) n (n + 1)
      fun xs => .values (f xs) where
  le := Nat.le_succ n
  keeps := fun s _ hm => held_assign s n tag source hm
  settled := below_held n
  effects := by
    intro s
    rw [Trace.lines_singleton, Trace.line, Trace.effects_put_temporary, (h s).1]
    exact (List.append_nil s.effects).symm
  terms := by
    intro s
    rw [Trace.lines_singleton, Trace.line, Trace.held_put_temporary, Function.update_self]
    exact (h s).2

/-- A copy in a fresh temporary stands for what the operand stands for. -/
theorem follow_copy (x : Operand) (n : Nat) (tag : Tag) :
    Follow [.assign (.temporary n) tag (.operand x)] (fun s => [s.term x]) (fun s => [s.held n])
      n (n + 1) Course.values :=
  follow_compute fun _ => ⟨rfl, rfl⟩

/-- A source with an effect is put into a fresh temporary. -/
theorem follow_outcome {a : Act} {f : List Term → Effect}
    (h : ∀ s : Trace, s.source source = (s.note (f (given s)), s.next)) :
    Follow [.assign (.temporary n) tag source] given (fun s => [s.held n]) n (n + 1)
      fun xs => .outcome a (f xs) where
  le := Nat.le_succ n
  keeps := fun s _ hm => held_assign s n tag source hm
  settled := below_held n
  effects := by
    intro s
    rw [Trace.lines_singleton, Trace.line, Trace.effects_put_temporary, h]
    rfl
  terms := by
    intro s
    rw [Trace.lines_singleton, Trace.line, Trace.held_put_temporary, Function.update_self, h]
    rfl

/-- A line with an effect that comes to nothing. -/
theorem follow_deed {l : Line} {a : Act} {f : List Term → Effect}
    (h : ∀ s : Trace, s.line l = s.note (f (given s))) (n : Nat) :
    Follow [l] given (fun _ => []) n n fun xs => .deed a (f xs) where
  le := le_rfl
  keeps := by
    intro s m _
    rw [Trace.lines_singleton, h, Trace.held_note]
  settled := below_const n []
  effects := by
    intro s
    rw [Trace.lines_singleton, h]
    rfl
  terms := fun _ => rfl

/-- A part is put into the element at a position, which goes through a temporary. -/
theorem follow_put {array n : Nat} {x : Operand} (tag : Tag) (t : Tree) (i : Nat)
    (harray : array < n) (hx : Below n fun s => [s.term x]) :
    Follow [.assign (.temporary n) .i32 (.operand (.number (toString i))),
        .store (.temporary array) (.cell (.temporary n) .i32) tag x]
      (fun s => [s.held array] ++ [s.term x]) (fun _ => []) n (n + 1) fun xs =>
      .deed (.put t) (.store (operand xs 0) (.number (toString i)) (operand xs 1)) where
  le := Nat.le_succ n
  keeps := fun s _ hm => held_assign s n .i32 (.operand (.number (toString i))) hm
  settled := below_const (n + 1) []
  effects := by
    intro s
    let s' := s.line (.assign (.temporary n) .i32 (.operand (.number (toString i))))
    have hkeeps : ∀ m < n, s'.held m = s.held m := fun _ hm => held_assign s n .i32 _ hm
    have hi : s'.held n = .number (toString i) := Function.update_self ..
    have hvalue : s'.term x = s.term x := List.head_eq_of_cons_eq (hx s s' hkeeps)
    show s.effects ++ [.store (s'.held array) (s'.held n) (s'.term x)] = _
    rw [hkeeps array harray, hi, hvalue]
    rfl
  terms := fun _ => rfl

end Follow

/-! ### Courses by form -/

section Lowered

variable {d : Declarations} {scope : Option String} {t u w : Tree} {ts : List Tree}
  {wanted : Option Ty} {c c' : Counters} {v : Value}

open Course

theorem operands_one (harity : arity t = 1) (hu : t.children[0]? = some u) : operands t = [u] := by
  rw [operands, harity]
  rcases e : t.children with - | ⟨first, rest⟩
  · rw [e] at hu
    cases hu
  · rw [e] at hu
    injection hu with hu
    rw [hu, List.take_succ_cons, List.take_zero]

theorem operands_two (harity : arity t = 2) (hu : t.children[0]? = some u)
    (hw : t.children[1]? = some w) : operands t = [u, w] := by
  rw [operands, harity]
  rcases e : t.children with - | ⟨first, - | ⟨second, rest⟩⟩
  · rw [e] at hu
    cases hu
  · rw [e] at hw
    cases hw
  · rw [e] at hu hw
    injection hu with hu
    injection hw with hw
    rw [hu, hw, List.take_succ_cons, List.take_succ_cons, List.take_zero]

/-- The operands of a node that builds no array. -/
theorem row_of_builtFrom?_eq_none (h : builtFrom? d scope t = none) :
    row d scope t (t.children.map (course d scope)) =
      (holder d scope t).before (inTurn ((operands t).map (course d scope))) := by
  rw [row, h, operands, List.map_take]

/-- The course of a node that neither builds an array nor assigns to an element. -/
theorem course_of_operands (hcall : t.kind ≠ .call) (hliteral : t.kind ≠ .arrayLiteral)
    (hassignment : t.kind ≠ .elementAssignment) :
    course d scope t =
      (inTurn ((operands t).map (course d scope))).into (ownCourse d scope t) := by
  have hbuilt : builtFrom? d scope t = none := by
    rw [builtFrom?]
    split
    · next hk => exact absurd hk hliteral
    · next hk => exact absurd hk hcall
    · rfl
  rw [course_eq, row_of_builtFrom?_eq_none hbuilt, holder, if_neg hassignment, values_before]

/-- The course of an expression without operands. -/
theorem course_of_leaf {k : Kind} (hk : t.kind = k)
    (hleaf : k ∈ [Kind.integer, .boolean, .identifier, .self, .newObject]) :
    course d scope t = ownCourse d scope t [] := by
  have hkinds : k = .integer ∨ k = .boolean ∨ k = .identifier ∨ k = .self ∨ k = .newObject := by
    simpa using hleaf
  rcases hkinds with rfl | rfl | rfl | rfl | rfl <;>
    rw [course_of_operands (by simp [hk]) (by simp [hk]) (by simp [hk]), operands, arity, hk] <;>
    rfl

theorem course_of_one {k : Kind} (hk : t.kind = k)
    (hone : k ∈ [Kind.newArray, .length, .assignment, .expressionStmt, .returnStmt])
    (hu : t.children[0]? = some u) :
    course d scope t = (course d scope u).into (ownCourse d scope t) := by
  have hkinds : k = .newArray ∨ k = .length ∨ k = .assignment ∨ k = .expressionStmt ∨
    k = .returnStmt := by simpa using hone
  rcases hkinds with rfl | rfl | rfl | rfl | rfl <;>
    rw [course_of_operands (by simp [hk]) (by simp [hk]) (by simp [hk]),
      operands_one (by rw [arity, hk]) hu, List.map_singleton, inTurn, inTurn, before_values]

theorem course_of_two {k : Kind} (hk : t.kind = k)
    (htwo : k ∈ [Kind.arithmetic, .logical, .elementRead]) (hu : t.children[0]? = some u)
    (hw : t.children[1]? = some w) :
    course d scope t =
      ((course d scope u).before (course d scope w)).into (ownCourse d scope t) := by
  have hkinds : k = .arithmetic ∨ k = .logical ∨ k = .elementRead := by simpa using htwo
  rcases hkinds with rfl | rfl | rfl <;>
    rw [course_of_operands (by simp [hk]) (by simp [hk]) (by simp [hk]),
      operands_two (by rw [arity, hk]) hu hw, List.map_cons, List.map_singleton, inTurn, inTurn,
      inTurn, before_values]

/-- The course of a name. -/
theorem course_of_identifier (hk : t.kind = .identifier) :
    course d scope t = nameCourse d scope t := by
  rw [course_of_leaf hk (by decide), ownCourse, hk]

theorem course_of_classRef (hk : t.kind = .identifier) {b : Binding}
    (hb : d.identifier? scope t = some b) (hclass : b.origin.isVariable = false) :
    course d scope t = .values [.classRef t.name] := by
  have hfield : b.origin ≠ .field := by
    intro hfield
    rw [hfield] at hclass
    nomatch hclass
  simp [course_of_identifier hk, nameCourse, hb, hfield, hclass]

/-- A literal array is built of all its children. -/
theorem course_of_arrayLiteral (hk : t.kind = .arrayLiteral) :
    course d scope t = build t (t.children.map (course d scope)) := by
  have hbuilt : builtFrom? d scope t = some 0 := by rw [builtFrom?, hk]
  have hholder : holder d scope t = .values [] := by rw [holder, hk, if_neg (by decide)]
  have hrow : row d scope t (t.children.map (course d scope)) =
      build t (t.children.map (course d scope)) := by
    rw [row, hholder, hbuilt]
    rfl
  rw [course_eq, hrow, ownCourse, hk]
  exact into_values

/-! ### Lowered parts -/

/-- The lines of a value follow a course, and its operand stands for what the
course comes to. -/
abbrev Value.Follows (v : Value) (c c' : Counters) (e : Course) : Prop :=
  Follow v.code (fun _ => []) (fun s => [s.term v.operand]) c.temporaries c'.temporaries fun _ => e

/-- The lines of an expression follow its course. -/
def LowersInOrder (d : Declarations) (scope : Option String) (t : Tree) : Prop :=
  ∀ wanted c v c', Yields d scope t wanted c v c' → v.Follows c c' (course d scope t)

theorem YieldsIndex.follows (h : YieldsIndex d scope t c v c') (ht : LowersInOrder d scope t) :
    v.Follows c c' (course d scope t) := by
  cases h with
  | @literal x c₁ tag _ hx =>
    -- the copy in a temporary stands for the same term
    have hcopy := (ht _ _ _ _ hx).into (follow_copy x.operand c₁.temporaries tag)
    rwa [into_values] at hcopy
  | other _ hx => exact ht _ _ _ _ hx

theorem YieldsStores.follow {array i : Nat} {element : Ty} {stores : List Line} (t : Tree)
    (h : YieldsStores d scope array element i ts c stores c')
    (hts : ∀ u ∈ ts, LowersInOrder d scope u) (harray : array < c.temporaries) :
    Follow stores (fun s => [s.held array]) (fun _ => []) c.temporaries c'.temporaries
      fun xs => putFrom t (operand xs 0) i (ts.map (course d scope)) := by
  induction h with
  | nil => exact follow_value [] (fun _ => rfl) _
  | @cons i u rest c x c₁ more c₂ hx _ ih =>
    have hheld : Below c.temporaries fun s => [s.held array] :=
      (below_held array).mono harray
    have hX := hts u (List.mem_cons_self ..) _ _ _ _ hx
    have hMore := ih (fun u hu => hts u (List.mem_cons_of_mem _ hu))
      (harray.trans_le (hX.le.trans (Nat.le_succ _)))
    have hgiven : Follow [] (fun s => [s.held array]) (fun s => [s.held array]) c.temporaries
        c.temporaries fun xs => .values [operand xs 0] :=
      (follow_given hheld).congr fun _ => rfl
    have hput := follow_put (Tag.ofTy element) t i (harray.trans_le hX.le) hX.settled
    exact ((hgiven.before hX.of_const hheld).into hput).before hMore hheld

theorem YieldsArray.follows {element : Ty} (t : Tree) (h : YieldsArray d scope element ts c v c')
    (hts : ∀ u ∈ ts, LowersInOrder d scope u) :
    v.Follows c c' (build t (ts.map (course d scope))) := by
  obtain ⟨hstores⟩ := h
  have hheld : Below (c.temporaries + 1) fun s => [s.held c.temporaries] :=
    below_held c.temporaries
  have hmake : Follow [.assign (.temporary c.temporaries) (.array (Tag.ofName element.name))
        (.newArray (.number (toString ts.length)) (.array (Tag.ofName element.name)))]
      (fun _ => []) (fun s => [s.held c.temporaries]) c.temporaries (c.temporaries + 1)
      fun _ => .outcome (.make t) (.newArray (.number (toString ts.length))) :=
    follow_outcome fun _ => rfl
  have hStores := hstores.follow t hts (Nat.lt_succ_self _)
  -- the array is still held when the last part has gone into it
  have harray := hStores.before (follow_given (hheld.mono hStores.le)) hheld
  rw [List.append_nil] at harray
  rw [build, List.length_map]
  exact hmake.into harray

theorem YieldsReceiver.follow {code : List Line} {receiver : Receiver}
    (h : YieldsReceiver d scope t c code receiver c') (ht : LowersInOrder d scope t) :
    Follow code (fun _ => []) (fun s => [s.receiver receiver]) c.temporaries c'.temporaries
      fun _ => course d scope t := by
  cases h with
  | self hk =>
    rw [course_of_leaf hk (by decide), ownCourse, hk]
    exact follow_value [.self] (fun _ => rfl) _
  | classRef hk hb hclass =>
    rw [course_of_classRef hk hb hclass]
    exact follow_value [.classRef t.name] (fun _ => rfl) _
  | object _ hx => exact ht _ _ _ _ hx

/-- The lines of values in a row follow a course, and their operands stand for
what the course comes to. -/
abbrev FollowRow (xs : List Value) (c c' : Counters) (e : Course) : Prop :=
  Follow (xs.flatMap (·.code)) (fun _ => []) (fun s => xs.map fun x => s.term x.operand)
    c.temporaries c'.temporaries fun _ => e

theorem Value.Follows.row {e : Course} (h : v.Follows c c' e) : FollowRow [v] c c' e := by
  rw [FollowRow, List.flatMap_singleton]
  exact h

theorem FollowRow.append {xs ys : List Value} {c₁ : Counters} {e e' : Course}
    (h : FollowRow xs c c₁ e) (h' : FollowRow ys c₁ c' e') :
    FollowRow (xs ++ ys) c c' (e.before e') := by
  rw [FollowRow, List.flatMap_append]
  simp only [List.map_append]
  exact Follow.before h h' (below_const _ [])

theorem YieldsEach.follow {parameters : List Variable} {xs : List Value}
    (h : YieldsEach d scope parameters ts c xs c') (hts : ∀ u ∈ ts, LowersInOrder d scope u) :
    FollowRow xs c c' (inTurn (ts.map (course d scope))) := by
  induction h with
  | nil => exact follow_value [] (fun _ => rfl) _
  | cons hx _ ih =>
    have hX := (hts _ (List.mem_cons_self ..) _ _ _ _ hx).row
    exact hX.append (ih fun u hu => hts u (List.mem_cons_of_mem _ hu))

theorem YieldsTail.follows (t : Tree) (h : YieldsTail d scope ts c v c')
    (hts : ∀ u ∈ ts, LowersInOrder d scope u) :
    v.Follows c c' (if passesArray d scope ts then inTurn (ts.map (course d scope))
      else build t (ts.map (course d scope))) := by
  cases h with
  | @single u ty _ _ hone hty hisArray hx =>
    subst hone
    have hpasses : passesArray d scope [u] := by rw [passesArray, known?_eq hty]; exact hisArray
    rw [if_pos hpasses, List.map_singleton, inTurn, inTurn, before_values]
    exact hts u (List.mem_singleton_self u) _ _ _ _ hx
  | packed hnone hx =>
    -- a single argument that is known to be an array would have been passed as it is
    have hpasses : ¬ passesArray d scope ts := by
      rw [passesArray.eq_def]
      split
      · next u =>
        intro hany
        obtain ⟨ty, hknown, hisArray⟩ := Option.any_eq_true _ _ |>.mp hany
        rw [hnone u ty rfl (typeOf_of_known? hknown)] at hisArray
        cases hisArray
      · exact Bool.false_ne_true
    rw [if_neg hpasses]
    exact hx.follows t hts

theorem YieldsArguments.follow {parameters : List Variable} {xs : List Value} (t : Tree)
    (h : YieldsArguments d scope parameters ts c xs c') (hts : ∀ u ∈ ts, LowersInOrder d scope u) :
    FollowRow xs c c' (match packedFrom? d scope parameters ts with
      | some n => (inTurn ((ts.take n).map (course d scope))).before
          (build t ((ts.drop n).map (course d scope)))
      | none => inTurn (ts.map (course d scope))) := by
  rw [packedFrom?]
  cases h with
  | each hopen hxs =>
    rw [hopen]
    exact hxs.follow hts
  | @tail _ xs _ x _ hopen hxs hx =>
    have hXs := hxs.follow fun u hu => hts u (List.mem_of_mem_take hu)
    have hX := hx.follows t fun u hu => hts u (List.mem_of_mem_drop hu)
    have hboth := hXs.append hX.row
    rw [hopen]
    rcases e : passesArray d scope (ts.drop (Parameters.fixed parameters).length) with - | -
    · rw [e] at hboth
      exact hboth
    -- a single array is passed on as the arguments in front of it are
    · rw [e, if_pos rfl, ← inTurn_append, ← List.map_append, List.take_append_drop] at hboth
      exact hboth

/-- The lines in front of a call follow the course of its operands, which the
call is made with. -/
theorem YieldsCall.follow {call : Call} (hk : t.kind = .call)
    (h : YieldsCall d scope t wanted c call c')
    (ht : ∀ u ∈ t.children, LowersInOrder d scope u) :
    ∃ read, Follow call.code (fun _ => []) read c.temporaries c'.temporaries
        (fun _ => row d scope t (t.children.map (course d scope))) ∧
      ∀ s : Trace, s.call call.invocation =
        .call (operand (read s) 0) t.name (read s).tail := by
  obtain @⟨receiver, arguments, declared, code, target, c₁, xs, c₂, hcs, hdeclared, hreceiver,
    hxs⟩ := h
  -- the call was fitted to the parameters of what it was found to be declared as
  have hknown : d.known? scope t = declared := known?_eq (by rw [typeOf_call _ _ _ hk, hdeclared])
  have hbuilt : builtFrom? d scope t =
      (packedFrom? d scope (knownParameters d scope t) arguments).map (· + 1) := by
    rw [builtFrom?, hk, hcs, List.tail_cons]
  have hholder : holder d scope t = .values [] := by rw [holder, hk, if_neg (by decide)]
  rw [hcs, List.forall_mem_cons] at ht
  have hArguments := hxs.follow t ht.2
  rw [← hknown, ← knownParameters] at hArguments
  refine ⟨fun s => [s.receiver target] ++ xs.map fun x => s.term x.operand, ?_, ?_⟩
  · have hrow := (hreceiver.follow ht.1).before hArguments (below_const _ [])
    rw [row, hholder, values_before, hbuilt]
    rcases e : packedFrom? d scope (knownParameters d scope t) arguments with - | n
    · rw [e] at hrow
      rw [Option.map_none, arity, hk, ← List.map_take, List.take_length, hcs]
      exact hrow
    · rw [e] at hrow
      rw [hcs, Option.map_some, List.map_cons]
      simp only [List.take_succ_cons, List.drop_succ_cons, ← List.map_take, ← List.map_drop, inTurn,
        before_assoc]
      exact hrow
  · intro s
    rw [Trace.call, List.map_map]
    rfl

/-! ### Expressions -/

theorem symbol_of_arithmetic {op : ArithmeticOperator} (h : ArithmeticOperator.ofTree t = .ok op) :
    op.symbol = (t.get? "op").getD "" := by
  rw [ArithmeticOperator.ofTree] at h
  split at h
  · next hfound =>
    obtain rfl := Except.ok.inj h
    simpa using List.find?_some hfound
  · nomatch h

theorem symbol_of_logical {op : LogicalOperator} (h : LogicalOperator.ofTree t = .ok op) :
    op.symbol = (t.get? "op").getD "" := by
  rw [LogicalOperator.ofTree] at h
  split at h
  · next hfound =>
    obtain rfl := Except.ok.inj h
    simpa using List.find?_some hfound
  · nomatch h

/-- An expression that is an operand as it stands. -/
theorem follows_plain {x : Operand} {y : Term} (h : ∀ s : Trace, s.term x = y) (c : Counters) :
    (Value.plain x).Follows c c (.values [y]) :=
  follow_value [y] (fun s => congrArg (fun x => [x]) (h s)) c.temporaries

/-- **Expressions.**  The lines of an expression follow its course. -/
theorem lowersInOrder (d : Declarations) (scope : Option String) (t : Tree) :
    LowersInOrder d scope t := by
  induction t using Tree.induction with
  | step t ih =>
    intro wanted c v c' h
    have hpart : ∀ {i : Nat} {u : Tree}, t.children[i]? = some u → LowersInOrder d scope u :=
      fun hu => ih _ (List.mem_of_getElem? hu)
    have hnothing (n : Nat) : Below n fun _ => [] := below_const n []
    -- by form; the operands come first and what the node does itself comes last
    cases h.expands with
    | integer hk | boolean hk | self hk =>
      rw [course_of_leaf hk (by decide), ownCourse, hk]
      exact follows_plain (fun _ => rfl) c
    | unbound hk hb =>
      have hname : nameCourse d scope t = .values [.named t.name] := by rw [nameCourse, hb]
      rw [course_of_identifier hk, hname]
      exact follows_plain (fun _ => rfl) c
    | variable_ hk hb hvariable hfield =>
      have hname : nameCourse d scope t = .values [.named t.name] := by
        simp [nameCourse, hb, hvariable, hfield]
      rw [course_of_identifier hk, hname]
      exact follows_plain (fun _ => rfl) c
    | classRef hk hb hclass =>
      rw [course_of_classRef hk hb hclass]
      exact follows_plain (fun _ => rfl) c
    | field hk hb hfield =>
      have hname : nameCourse d scope t = .outcome (.eval t) (.fieldRead t.name) := by
        simp [nameCourse, hb, hfield]
      rw [course_of_identifier hk, hname]
      exact follow_outcome fun _ => rfl
    | arithmetic hk hop hleft hright hx hy =>
      have hrow := (hpart hleft _ _ _ _ hx).before (hpart hright _ _ _ _ hy) (hnothing _)
      rw [course_of_two hk (by decide) hleft hright, ownCourse, hk, ← symbol_of_arithmetic hop]
      exact hrow.into (follow_compute fun _ => ⟨rfl, rfl⟩)
    | logical hk hop hleft hright hx hy =>
      have hrow := (hpart hleft _ _ _ _ hx).before (hpart hright _ _ _ _ hy) (hnothing _)
      rw [course_of_two hk (by decide) hleft hright, ownCourse, hk, ← symbol_of_logical hop]
      exact hrow.into (follow_compute fun _ => ⟨rfl, rfl⟩)
    | call hk hcall =>
      obtain ⟨read, hrow, hmade⟩ := hcall.follow hk ih
      rw [course_eq, ownCourse, hk]
      exact hrow.into (follow_outcome fun s => congrArg (fun e => (s.note e, s.next)) (hmade s))
    | elementRead hk harray hindex _ _ hx hi =>
      have hrow := (hpart harray _ _ _ _ hx).before (hi.follows (hpart hindex)) (hnothing _)
      rw [course_of_two hk (by decide) harray hindex, ownCourse, hk]
      exact hrow.into (follow_outcome fun _ => rfl)
    | emptyLiteral hk hcs hx =>
      rw [course_of_arrayLiteral hk, hcs]
      exact hx.follows t (List.forall_mem_nil _)
    | arrayLiteral hk _ _ hx =>
      rw [course_of_arrayLiteral hk]
      exact hx.follows t ih
    | newObject hk =>
      rw [course_of_leaf hk (by decide), ownCourse, hk]
      have hmake : Follow [.assign (.temporary c.temporaries) (.object t.name) (.newObject t.name)]
          (fun _ => []) (fun s => [s.held c.temporaries]) c.temporaries (c.temporaries + 1)
          fun _ => .outcome (.eval t) (.newObject t.name) :=
        follow_outcome fun _ => rfl
      have hheld := below_held c.temporaries
      have hconstruct : Follow [.construct (.cell (.temporary c.temporaries) (.object t.name))]
          (fun s => [s.held c.temporaries]) (fun _ => []) (c.temporaries + 1) (c.temporaries + 1)
          fun object => .deed (.construct t) (.construct (operand object 0)) :=
        follow_deed (fun _ => rfl) _
      exact hmake.into (hconstruct.before (follow_given hheld) hheld)
    | newArray hk hsize hx =>
      rw [course_of_one hk (by decide) hsize, ownCourse, hk]
      exact (hpart hsize _ _ _ _ hx).into (follow_outcome fun _ => rfl)
    | length hk harray hx =>
      rw [course_of_one hk (by decide) harray, ownCourse, hk]
      exact (hpart harray _ _ _ _ hx).into (follow_compute fun _ => ⟨rfl, rfl⟩)

theorem Yields.follows (h : Yields d scope t wanted c v c') : v.Follows c c' (course d scope t) :=
  lowersInOrder d scope t wanted c v c' h

/-! ### Statements -/

theorem assignsField_eq_false (h : ∀ b, assigned? d scope t = some b → b.origin ≠ .field) :
    assignsField d scope t = false := by
  rw [assignsField]
  rcases e : assigned? d scope t with - | b
  · rfl
  · simpa using h b e

/-- The course of an assignment to an element: the array, the index and the value,
and then the store. -/
theorem course_of_elementAssignment (hk : t.kind = .elementAssignment)
    (hu : t.children[0]? = some u) (hw : t.children[1]? = some w) :
    course d scope t =
      (((holder d scope t).before (course d scope u)).before (course d scope w)).into fun xs =>
        .deed (.eval t) (.store (operand xs 0) (operand xs 1) (operand xs 2)) := by
  have hbuilt : builtFrom? d scope t = none := by rw [builtFrom?, hk]
  rw [course_eq, row_of_builtFrom?_eq_none hbuilt, operands_two (by rw [arity, hk]) hu hw,
    ownCourse, hk, List.map_cons, List.map_singleton, inTurn, inTurn, inTurn, before_values,
    before_assoc]

/-- **Statements.**  The lines of a statement without statements in it follow its
course. -/
theorem YieldsLines.follow {result : Ty} {ls : List Line} (hsimple : isSimple t)
    (h : YieldsLines d scope result t c ls c') :
    Follow ls (fun _ => []) (fun _ => []) c.temporaries c'.temporaries
      fun _ => course d scope t := by
  have hnothing (n : Nat) : Below n fun _ => [] := below_const n []
  cases h.expands with
  | assignment hk hfield _ hvalue hx =>
    rw [course_of_one hk (by decide) hvalue, ownCourse, hk]
    simp only [assignsField_eq_false hfield, Bool.false_eq_true, if_false]
    exact hx.follows.into (follow_deed (fun _ => rfl) _)
  | fieldAssignment hk hb hfield hvalue hx =>
    have hassigns : assignsField d scope t := by simp [assignsField, hb, hfield]
    rw [course_of_one hk (by decide) hvalue, ownCourse, hk]
    simp only [hassigns, if_true]
    exact hx.follows.into (follow_deed (fun _ => rfl) _)
  | elementAssignment hk hfield _ hindex hvalue hi hx =>
    have hholder : holder d scope t = .values [.named t.name] := by
      simp [holder, hk, assignsField_eq_false hfield]
    have harray : Follow [] (fun _ => []) (fun s => [s.cell (.named t.name)]) c.temporaries
        c.temporaries fun _ => .values [.named t.name] :=
      follow_value [.named t.name] (fun _ => rfl) _
    have hrow := (harray.before (hi.follows (lowersInOrder _ _ _)) (hnothing _)).before
      hx.follows (hnothing _)
    rw [course_of_elementAssignment hk hindex hvalue, hholder]
    exact hrow.into (follow_deed (fun _ => rfl) _)
  | @fieldElementAssignment b _ _ _ _ _ _ _ hk hb hfield _ hindex hvalue hi hx =>
    have hholder : holder d scope t = .outcome (.fetch t) (.fieldRead t.name) := by
      simp [holder, assignsField, hk, hb, hfield]
    -- the array is fetched in front of the operands, and stored into behind them
    have hfetch : Follow [.assign (.temporary c.temporaries) (Tag.ofTy b.ty)
          (.fieldRead t.name (Tag.ofTy b.ty))]
        (fun _ => []) (fun s => [s.held c.temporaries]) c.temporaries (c.temporaries + 1)
        fun _ => .outcome (.fetch t) (.fieldRead t.name) :=
      follow_outcome fun _ => rfl
    have hrow := (hfetch.before (hi.follows (lowersInOrder _ _ _)) (hnothing _)).before
      hx.follows (hnothing _)
    rw [course_of_elementAssignment hk hindex hvalue, hholder]
    exact hrow.into (follow_deed (fun _ => rfl) _)
  | @callStmt e call _ hk he hcall hrun =>
    obtain ⟨read, hrow, hmade⟩ := hrun.follow hcall fun u _ => lowersInOrder d scope u
    -- what the call comes to is dropped
    have hline : Follow [.call call.invocation] read (fun _ => []) c'.temporaries c'.temporaries
        fun xs => .deed (.eval e) (.call (operand xs 0) e.name xs.tail) := by
      refine follow_deed ?_ _
      exact fun s => congrArg s.note (hmade s)
    rw [course_of_one hk (by decide) he, course_eq e, into_assoc, ownCourse, hcall, ownCourse, hk]
    exact hrow.into hline
  | expressionStmt hk he _ hx =>
    have hdropped := hx.follows.into (follow_value [] (fun _ => rfl) _)
    rw [List.append_nil] at hdropped
    rw [course_of_one hk (by decide) he, ownCourse, hk]
    exact hdropped
  | returnNothing hk hcs =>
    rw [course_of_operands (by simp [hk]) (by simp [hk]) (by simp [hk]), operands, hcs,
      List.take_nil, List.map_nil, inTurn, values_into, ownCourse, hk]
    exact follow_deed (fun _ => rfl) _
  | returnValue hk hvalue hx =>
    rw [course_of_one hk (by decide) hvalue, ownCourse, hk]
    exact hx.follows.into (follow_deed (fun _ => rfl) _)
  | conditional hk | loop hk | block hk =>
    rw [isSimple, hk] at hsimple
    cases hsimple

/-- **Effects.**  What the lines of an expression do, and to which terms, is what the
course of the expression says, one effect for each deed and in their order,
whatever was read in front of them; and the operand stands for what the course
comes to.  So it is with a statement without statements in it.  Of the deeds of a
course those that are counted do the acts of the tree in the order of evaluation,
and in a formed tree these are one for each node that has an effect, and one for the
field that an assignment into an array reads first. -/
theorem effects_in_evaluation_order (d : Declarations) (scope : Option String) (t : Tree) :
    (∀ (wanted : Option Ty) (c : Counters) (v : Value) (c' : Counters),
      (lower d scope t wanted).run c = .ok (v, c') → ∀ s : Trace,
      (s.lines v.code).effects =
          s.effects ++ (course d scope t s.effects.length).deeds.map Deed.effect ∧
        [(s.lines v.code).term v.operand] = (course d scope t s.effects.length).terms) ∧
    (∀ (result : Ty) (c : Counters) (ls : List Line) (c' : Counters), isSimple t →
      (lowerStatement d scope result t).run c = .ok (ls, c') → ∀ s : Trace,
      (s.lines ls).effects =
        s.effects ++ (course d scope t s.effects.length).deeds.map Deed.effect) ∧
    (∀ n, ((course d scope t n).deeds.map Deed.act).filter Act.isCounted =
      evaluation d scope t) ∧
    (t.Formed → (t.kind.isExpression ∨ isSimple t) → evaluation d scope t =
      fetched d scope t ++ ((postorder t).filter (hasEffect d scope)).map Act.eval) := by
  refine ⟨?_, ?_, counts_course d scope t, evaluation_of_formed d scope t⟩
  · intro wanted c v c' h s
    have hfollow : v.Follows c c' (course d scope t) := Yields.follows h
    exact ⟨hfollow.effects s, hfollow.terms s⟩
  · intro result c ls c' hsimple h s
    exact (YieldsLines.follow hsimple h).effects s

end Lowered

/-! ### A statement with effects in all its parts

    class Count {
      int[] seen;
      int next() { ... }
      int sum(int n, int... xs) { ... }

      // in a method:
      seen[this.next()] = this.sum(seen[0], this.next(), (new int[2]).length);
    }
-/

def countingDeclarations : Declarations :=
  ⟨"Count", none, [], [⟨"seen", .intArray⟩],
    [⟨"next", .int, [], [], false⟩, ⟨"sum", .int, [⟨"n", .int⟩, ⟨"xs", .intVarargs⟩], [], false⟩]⟩

def counting : Tree :=
  let next := (Form.call "next" Form.self.tree []).tree
  let first := (Form.elementRead (Form.identifier "seen").tree (Form.integer 0).tree).tree
  let size := (Form.length (Form.newArray (Form.integer 2).tree).tree).tree
  let sum := (Form.call "sum" Form.self.tree [first, next, size]).tree
  (Form.elementAssignment "seen" next sum).tree

/-- What the statement does: the array that is assigned to, the index and the
arguments come first, of which two go into the array for the open tail. -/
def countingEffects : List Effect :=
  [.fieldRead "seen",
   .call .self "next" [],
   .fieldRead "seen",
   .elementRead (.outcome 2) (.number "0"),
   .newArray (.number "2"),
   .call .self "next" [],
   .store (.outcome 4) (.number "0") (.outcome 5),
   .newArray (.number "2"),
   .store (.outcome 4) (.number "1") (.length (.outcome 7)),
   .call .self "sum" [.outcome 3, .outcome 4],
   .store (.outcome 0) (.outcome 1) (.outcome 9)]

/-- Three of the effects build the array for the open tail.  Eight are acts of the
program: one fetches the array, and each of seven nodes has one. -/
theorem counting_does_its_acts :
    ∃ ls c', (lowerStatement countingDeclarations (some "next") .int counting).run ⟨0, 0⟩ =
        .ok (ls, c') ∧
      (Trace.start.lines ls).effects = countingEffects ∧
      evaluation countingDeclarations (some "next") counting = .fetch counting ::
        ((postorder counting).filter (hasEffect countingDeclarations (some "next"))).map .eval ∧
      (evaluation countingDeclarations (some "next") counting).length = 8 := by
  obtain ⟨-, hstatement, -, hformed⟩ :=
    effects_in_evaluation_order countingDeclarations (some "next") counting
  have hcounting : counting.Formed := List.all_eq_true.mp (by decide +kernel)
  have hsome : ((lowerStatement countingDeclarations (some "next") .int counting).run
      ⟨0, 0⟩).toOption.isSome := by decide +kernel
  rcases hrun : (lowerStatement countingDeclarations (some "next") .int counting).run ⟨0, 0⟩
    with fault | ⟨ls, c'⟩
  · rw [hrun] at hsome
    nomatch hsome
  · have heffects := hstatement .int ⟨0, 0⟩ ls c' rfl hrun Trace.start
    have hcourse : (course countingDeclarations (some "next") counting 0).deeds.map Deed.effect =
        countingEffects := by decide +kernel
    exact ⟨ls, c', rfl, heffects.trans hcourse, hformed hcounting (Or.inr rfl), by decide +kernel⟩

end JavaMinus.ThreeAddress
