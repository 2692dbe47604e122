/-
JavaMinus/Proofs/ThreeAddress/Expansion.lean

What an expression or a statement was lowered to.

Where the lowering of an expression comes to a value, each of its parts came to
one, from the counters that the part before it left.  `Expands` says so with one
rule for each form of expression, and the relations in front of it do for the
lists of parts: elements that are stored, arguments that are passed.  Statements
have rules of the same kind (`ExpandsStatement`).  Proofs about lowered code go
by these rules (`Yields.expands`, `YieldsLines.expands`) and do not look into
the lowering again.

The rules do not ask for a tree that the language can write.  A part is the
child at a position; what stands behind the parts is not lowered.
-/
import JavaMinus.Proofs.Computation
import JavaMinus.ThreeAddress.Statement

namespace JavaMinus.ThreeAddress

/-! ### Values -/

/-- The counters behind one more temporary. -/
def Counters.next (c : Counters) : Counters := ⟨c.temporaries + 1, c.labels⟩

@[simp] theorem Counters.temporaries_next (c : Counters) :
    c.next.temporaries = c.temporaries + 1 := rfl

@[simp] theorem Counters.labels_next (c : Counters) : c.next.labels = c.labels := rfl

theorem run_freshTemporary_eq_ok {c c' : Counters} {n : Nat}
    (h : freshTemporary.run c = .ok (n, c')) : c.temporaries = n ∧ c.next = c' := by
  injection h with h
  injection h with hn hc
  exact ⟨hn, hc⟩

theorem run_freshLabel_eq_ok {c c' : Counters} {n : Nat} (h : freshLabel.run c = .ok (n, c')) :
    c.labels = n ∧ ⟨c.temporaries, c.labels + 1⟩ = c' := by
  injection h with h
  injection h with hn hc
  exact ⟨hn, hc⟩

/-- A source that is computed into the temporary of a number, behind some
lines. -/
def Value.computed (before : List Line) (n : Nat) (tag : Tag) (source : Source) : Value :=
  ⟨.cell (.temporary n) tag, before ++ [.assign (.temporary n) tag source]⟩

theorem run_compute_eq_ok {before : List Line} {tag : Tag} {source : Source} {c c' : Counters}
    {v : Value} (h : (compute before tag source).run c = .ok (v, c')) :
    v = .computed before c.temporaries tag source ∧ c' = c.next := by
  injection h with h
  injection h with hv hc
  exact ⟨hv.symm, hc.symm⟩

/-! ### Parts -/

section Parts

variable (d : Declarations) (scope : Option String)

/-- Lowering an expression gives a value and takes the counters from the first
pair to the second. -/
abbrev Yields (t : Tree) (wanted : Option Ty) (c : Counters) (v : Value) (c' : Counters) :
    Prop :=
  (lower d scope t wanted).run c = .ok (v, c')

/-- The lowering of an index. -/
inductive YieldsIndex (t : Tree) (c : Counters) : Value → Counters → Prop
  | literal {x c₁ tag} : t.kind = .integer ∧ tag = .i32 ∨ t.kind = .boolean ∧ tag = .bool →
      Yields d scope t none c x c₁ →
      YieldsIndex t c (.computed x.code c₁.temporaries tag (.operand x.operand)) c₁.next
  | other {x c'} : t.kind.isLiteral = false → Yields d scope t none c x c' →
      YieldsIndex t c x c'

/-- The lowering of expressions that go into the elements of an array from a
position on. -/
inductive YieldsStores (array : Nat) (element : Ty) :
    Nat → List Tree → Counters → List Line → Counters → Prop
  | nil {i c} : YieldsStores array element i [] c [] c
  | cons {i t rest c x c₁ more c₂} : Yields d scope t (some element) c x c₁ →
      YieldsStores array element (i + 1) rest c₁.next more c₂ →
      YieldsStores array element i (t :: rest) c
        (x.code ++
          [.assign (.temporary c₁.temporaries) .i32 (.operand (.number (toString i))),
           .store (.temporary array) (.cell (.temporary c₁.temporaries) .i32)
            (Tag.ofTy element) x.operand] ++ more) c₂

/-- The lowering of a new array of expressions. -/
inductive YieldsArray (element : Ty) (ts : List Tree) (c : Counters) :
    Value → Counters → Prop
  | intro {stores c'} : YieldsStores d scope c.temporaries element 0 ts c.next stores c' →
      YieldsArray element ts c
        ⟨.cell (.temporary c.temporaries) (.array (Tag.ofName element.name)),
          .assign (.temporary c.temporaries) (.array (Tag.ofName element.name))
            (.newArray (.number (toString ts.length)) (.array (Tag.ofName element.name))) ::
          stores⟩ c'

/-- The lowering of what a call is made on. -/
inductive YieldsReceiver (t : Tree) (c : Counters) : List Line → Receiver → Counters → Prop
  | self : t.kind = .self → YieldsReceiver t c [] .self c
  | classRef {b} : t.kind = .identifier → d.identifier? scope t = some b →
      b.origin.isVariable = false → YieldsReceiver t c [] (.classRef t.name) c
  | object {x c'} : t.kind ≠ .self → Yields d scope t none c x c' →
      YieldsReceiver t c x.code (.object x.operand) c'

/-- The lowering of arguments for parameters that take one each. -/
inductive YieldsEach : List Variable → List Tree → Counters → List Value → Counters → Prop
  | nil {parameters c} : YieldsEach parameters [] c [] c
  | cons {parameters t rest c x c₁ xs c₂} :
      Yields d scope t (parameters.head?.map (·.ty)) c x c₁ →
      YieldsEach parameters.tail rest c₁ xs c₂ →
      YieldsEach parameters (t :: rest) c (x :: xs) c₂

/-- The lowering of the arguments for an open tail. -/
inductive YieldsTail (ts : List Tree) (c : Counters) : Value → Counters → Prop
  | single {t ty x c'} : ts = [t] → d.typeOf scope t = .ok (some ty) → ty.isArray →
      Yields d scope t none c x c' → YieldsTail ts c x c'
  | packed {x c'} : (∀ t ty, ts = [t] → d.typeOf scope t = .ok (some ty) → ty.isArray = false) →
      YieldsArray d scope .int ts c x c' → YieldsTail ts c x c'

/-- The lowering of the arguments of a call. -/
inductive YieldsArguments (parameters : List Variable) (ts : List Tree) (c : Counters) :
    List Value → Counters → Prop
  | each {xs c'} : Parameters.openTail? parameters = none →
      YieldsEach d scope parameters ts c xs c' → YieldsArguments parameters ts c xs c'
  | tail {tail xs c₁ x c'} : Parameters.openTail? parameters = some tail →
      YieldsEach d scope (Parameters.fixed parameters)
        (ts.take (Parameters.fixed parameters).length) c xs c₁ →
      YieldsTail d scope (ts.drop (Parameters.fixed parameters).length) c₁ x c' →
      YieldsArguments parameters ts c (xs ++ [x]) c'

/-- The lowering of a call where a type may be wanted. -/
inductive YieldsCall (t : Tree) (wanted : Option Ty) (c : Counters) : Call → Counters → Prop
  | intro {receiver arguments declared code target c₁ xs c₂} :
      t.children = receiver :: arguments → d.callType scope t = .ok declared →
      YieldsReceiver d scope receiver c code target c₁ →
      YieldsArguments d scope (if declared.isSome then d.parameters t.name else []) arguments
        c₁ xs c₂ →
      YieldsCall t wanted c
        ⟨code ++ xs.flatMap (·.code), ⟨target, t.name, xs.map (·.operand),
          Tag.ofTy ((declared.or wanted).getD .void)⟩⟩ c₂

/-! ### Expressions -/

/-- What the lowering of an expression comes to, by its form. -/
inductive Expands (t : Tree) (wanted : Option Ty) (c : Counters) : Value → Counters → Prop
  | integer : t.kind = .integer →
      Expands t wanted c (.plain (.number ((t.get? "value").getD "0"))) c
  | boolean : t.kind = .boolean → Expands t wanted c (.plain (.truth (t.flag "value"))) c
  | self : t.kind = .self → Expands t wanted c (.plain (.self d.className)) c
  | unbound : t.kind = .identifier → d.identifier? scope t = none →
      Expands t wanted c (.plain (.cell (.named t.name) .i32)) c
  | variable_ {b} : t.kind = .identifier → d.identifier? scope t = some b →
      b.origin.isVariable → b.origin ≠ .field →
      Expands t wanted c (.plain (.cell (.named t.name) (Tag.ofTy b.ty))) c
  | field {b} : t.kind = .identifier → d.identifier? scope t = some b → b.origin = .field →
      Expands t wanted c
        (.computed [] c.temporaries (Tag.ofTy b.ty) (.fieldRead t.name (Tag.ofTy b.ty))) c.next
  | classRef {b} : t.kind = .identifier → d.identifier? scope t = some b →
      b.origin.isVariable = false → Expands t wanted c (.plain (.classRef t.name)) c
  | arithmetic {op left right x y c₁ c₂} : t.kind = .arithmetic →
      ArithmeticOperator.ofTree t = .ok op → t.children[0]? = some left →
      t.children[1]? = some right → Yields d scope left (some .int) c x c₁ →
      Yields d scope right (some .int) c₁ y c₂ →
      Expands t wanted c (.computed (x.code ++ y.code) c₂.temporaries .i32
        (.arithmetic op x.operand y.operand)) c₂.next
  | logical {op left right x y c₁ c₂} : t.kind = .logical →
      LogicalOperator.ofTree t = .ok op → t.children[0]? = some left →
      t.children[1]? = some right →
      Yields d scope left (some (if op.isConnective then .boolean else .int)) c x c₁ →
      Yields d scope right (some (if op.isConnective then .boolean else .int)) c₁ y c₂ →
      Expands t wanted c (.computed (x.code ++ y.code) c₂.temporaries .bool
        (.logical op x.operand y.operand)) c₂.next
  | call {call c₁} : t.kind = .call →
      YieldsCall d scope t (some (wanted.getD .int)) c call c₁ →
      Expands t wanted c (.computed call.code c₁.temporaries call.invocation.result
        (.call call.invocation)) c₁.next
  | elementRead {array index ty tag x i c₁ c₂} : t.kind = .elementRead →
      t.children[0]? = some array → t.children[1]? = some index →
      d.typeOf scope array = .ok ty → tag = Tag.ofTy ((ty.bind (·.element?)).getD .int) →
      Yields d scope array none c x c₁ → YieldsIndex d scope index c₁ i c₂ →
      Expands t wanted c (.computed (x.code ++ i.code) c₂.temporaries tag
        (.element x.operand i.operand tag)) c₂.next
  | emptyLiteral {x c'} : t.kind = .arrayLiteral → t.children = [] →
      YieldsArray d scope .int [] c x c' → Expands t wanted c x c'
  | arrayLiteral {first rest element x c'} : t.kind = .arrayLiteral →
      t.children = first :: rest → d.typeOf scope first = .ok element →
      YieldsArray d scope (element.getD .int) t.children c x c' → Expands t wanted c x c'
  | newObject : t.kind = .newObject →
      Expands t wanted c
        ⟨.cell (.temporary c.temporaries) (.object t.name),
          [.assign (.temporary c.temporaries) (.object t.name) (.newObject t.name),
           .construct (.cell (.temporary c.temporaries) (.object t.name))]⟩ c.next
  | newArray {size x c₁} : t.kind = .newArray → t.children[0]? = some size →
      Yields d scope size none c x c₁ →
      Expands t wanted c (.computed x.code c₁.temporaries (.array .i32)
        (.newArray x.operand (.array .i32))) c₁.next
  | length {array x c₁} : t.kind = .length → t.children[0]? = some array →
      Yields d scope array none c x c₁ →
      Expands t wanted c (.computed x.code c₁.temporaries .i32 (.length x.operand)) c₁.next

end Parts

/-! ### Lowering came to a value by the rules -/

section Values

variable {d : Declarations} {scope : Option String} {t : Tree} {ts : List Tree}
  {wanted : Option Ty} {c c' : Counters} {v : Value}

/-- Trees as the parts that they are lowered by. -/
abbrev partsOfEach (d : Declarations) (scope : Option String) (ts : List Tree) : List Part :=
  ts.map fun u => ⟨u, lower d scope u⟩

theorem partGet_eq_ok {i : Nat} {part : Part}
    (h : Part.get t (partsOfEach d scope ts) i = .ok part) :
    ∃ u, ts[i]? = some u ∧ part = ⟨u, lower d scope u⟩ := by
  rw [Part.get, List.getElem?_map] at h
  rcases e : ts[i]? with - | u
  · rw [e] at h
    nomatch h
  · rw [e] at h
    injection h with h
    exact ⟨u, rfl, h.symm⟩

theorem yieldsIndex_of_run (h : (lowerIndex ⟨t, lower d scope t⟩).run c = .ok (v, c')) :
    YieldsIndex d scope t c v c' := by
  obtain ⟨x, c₁, hx, h⟩ := run_bind_eq_ok h
  by_cases hliteral : t.kind.isLiteral
  · rcases e : t.kind <;> simp only [e] at h hliteral <;> try cases hliteral
    all_goals
      obtain ⟨rfl, rfl⟩ := run_compute_eq_ok h
      exact .literal (by simp [e]) hx
  · have hother : (pure x : Lowering Value).run c₁ = .ok (v, c') := by
      rcases e : t.kind <;> simp only [e] at h hliteral <;>
        first | exact h | exact absurd rfl hliteral
    obtain ⟨rfl, rfl⟩ := run_pure_eq_ok hother
    exact .other (by simpa using hliteral) hx

theorem yieldsStores_of_run {array : Nat} {element : Ty} {i : Nat} {stores : List Line}
    (h : (storeFrom array element i (partsOfEach d scope ts)).run c = .ok (stores, c')) :
    YieldsStores d scope array element i ts c stores c' := by
  induction ts generalizing i c stores with
  | nil =>
    obtain ⟨rfl, rfl⟩ := run_pure_eq_ok h
    exact .nil
  | cons u rest ih =>
    rw [partsOfEach, List.map_cons, storeFrom] at h
    obtain ⟨x, c₁, hx, h⟩ := run_bind_eq_ok h
    obtain ⟨n, c₂, hn, h⟩ := run_bind_eq_ok h
    obtain ⟨more, c₃, hmore, h⟩ := run_bind_eq_ok h
    obtain ⟨rfl, rfl⟩ := run_pure_eq_ok h
    obtain ⟨rfl, rfl⟩ := run_freshTemporary_eq_ok hn
    exact .cons hx (ih hmore)

theorem yieldsArray_of_run {element : Ty}
    (h : (lowerArray element (partsOfEach d scope ts)).run c = .ok (v, c')) :
    YieldsArray d scope element ts c v c' := by
  obtain ⟨n, c₁, hn, h⟩ := run_bind_eq_ok h
  obtain ⟨stores, c₂, hstores, h⟩ := run_bind_eq_ok h
  obtain ⟨rfl, rfl⟩ := run_pure_eq_ok h
  obtain ⟨rfl, rfl⟩ := run_freshTemporary_eq_ok hn
  rw [partsOfEach, List.length_map]
  exact .intro (yieldsStores_of_run hstores)

theorem yieldsReceiver_of_run {code : List Line} {target : Receiver}
    (h : (lowerReceiver d scope ⟨t, lower d scope t⟩).run c = .ok ((code, target), c')) :
    YieldsReceiver d scope t c code target c' := by
  -- everything but the object itself and the name of a class is lowered as a value
  have hobject : t.kind ≠ .self → (do
      let x ← lower d scope t none
      pure (x.code, Receiver.object x.operand)).run c = .ok ((code, target), c') →
      YieldsReceiver d scope t c code target c' := by
    intro hself h
    obtain ⟨x, c₁, hx, h⟩ := run_bind_eq_ok h
    obtain ⟨rfl, rfl, rfl⟩ := run_pure_pair_eq_ok h
    exact .object hself hx
  by_cases hself : t.kind = .self
  · simp only [lowerReceiver, hself] at h
    obtain ⟨rfl, rfl, rfl⟩ := run_pure_pair_eq_ok h
    exact .self hself
  · by_cases hidentifier : t.kind = .identifier
    · simp only [lowerReceiver, hidentifier] at h
      rcases e : d.identifier? scope t with - | b
      · rw [e] at h
        exact hobject hself h
      · simp only [e] at h
        by_cases hvariable : b.origin.isVariable
        · rw [if_pos hvariable] at h
          exact hobject hself h
        · rw [if_neg hvariable] at h
          obtain ⟨rfl, rfl, rfl⟩ := run_pure_pair_eq_ok h
          exact .classRef hidentifier e (by simpa using hvariable)
    · refine hobject hself ?_
      rw [← h]
      rcases e : t.kind <;> simp_all [lowerReceiver]

theorem yieldsEach_of_run {parameters : List Variable} {xs : List Value}
    (h : (lowerEach parameters (partsOfEach d scope ts)).run c = .ok (xs, c')) :
    YieldsEach d scope parameters ts c xs c' := by
  induction ts generalizing parameters c xs with
  | nil =>
    obtain ⟨rfl, rfl⟩ := run_pure_eq_ok h
    exact .nil
  | cons u rest ih =>
    rw [partsOfEach, List.map_cons, lowerEach] at h
    obtain ⟨x, c₁, hx, h⟩ := run_bind_eq_ok h
    obtain ⟨ys, c₂, hys, h⟩ := run_bind_eq_ok h
    obtain ⟨rfl, rfl⟩ := run_pure_eq_ok h
    exact .cons hx (ih hys)

theorem yieldsTail_of_run
    (h : (lowerOpenTail d scope (partsOfEach d scope ts)).run c = .ok (v, c')) :
    YieldsTail d scope ts c v c' := by
  -- the type is asked for just if there is a single argument
  rcases ts with - | ⟨t, - | ⟨u, rest⟩⟩
  · exact .packed nofun (yieldsArray_of_run h)
  · obtain ⟨ty, hty, h⟩ := run_lift_bind_eq_ok h
    by_cases hisArray : ty.any (·.isArray)
    · rw [if_pos hisArray] at h
      obtain ⟨found, rfl, hfound⟩ := Option.any_eq_true _ _ |>.mp hisArray
      exact .single rfl hty hfound h
    · rw [if_neg hisArray] at h
      refine .packed ?_ (yieldsArray_of_run h)
      rintro t' found ht hfound
      injection ht with ht
      subst ht
      rw [hty] at hfound
      injection hfound with hfound
      subst hfound
      simpa using hisArray
  · exact .packed nofun (yieldsArray_of_run h)

theorem yieldsArguments_of_run {parameters : List Variable} {xs : List Value}
    (h : (lowerArguments d scope parameters (partsOfEach d scope ts)).run c = .ok (xs, c')) :
    YieldsArguments d scope parameters ts c xs c' := by
  rw [lowerArguments] at h
  rcases e : Parameters.openTail? parameters with - | tail
  · rw [e] at h
    exact .each e (yieldsEach_of_run h)
  · rw [e] at h
    simp only [partsOfEach, ← List.map_take, ← List.map_drop] at h
    obtain ⟨xs, c₁, hxs, h⟩ := run_bind_eq_ok h
    obtain ⟨x, c₂, hx, h⟩ := run_bind_eq_ok h
    obtain ⟨rfl, rfl⟩ := run_pure_eq_ok h
    exact .tail e (yieldsEach_of_run hxs) (yieldsTail_of_run hx)

theorem yieldsCall_of_run {call : Call}
    (h : (lowerCall d scope t (partsOfEach d scope t.children) wanted).run c = .ok (call, c')) :
    YieldsCall d scope t wanted c call c' := by
  obtain ⟨part, hpart, h⟩ := run_lift_bind_eq_ok h
  obtain ⟨receiver, hreceiver, rfl⟩ := partGet_eq_ok hpart
  obtain ⟨declared, hdeclared, h⟩ := run_lift_bind_eq_ok h
  obtain ⟨⟨code, target⟩, c₃, htarget, h⟩ := run_bind_eq_ok h
  obtain ⟨xs, c₄, hxs, h⟩ := run_bind_eq_ok h
  obtain ⟨rfl, rfl⟩ := run_pure_eq_ok h
  rcases e : t.children with - | ⟨u, arguments⟩
  · rw [e] at hreceiver
    nomatch hreceiver
  · rw [e] at hreceiver hxs
    obtain rfl : u = receiver := Option.some.inj hreceiver
    rw [partsOfEach, List.map_cons, List.drop_succ_cons, List.drop_zero] at hxs
    exact .intro e hdeclared (yieldsReceiver_of_run htarget) (yieldsArguments_of_run hxs)

theorem expands_of_lowerIdentifier (hk : t.kind = .identifier)
    (h : (lowerIdentifier d scope t).run c = .ok (v, c')) : Expands d scope t wanted c v c' := by
  rw [lowerIdentifier] at h
  rcases e : d.identifier? scope t with - | ⟨origin, ty⟩
  · rw [e] at h
    obtain ⟨rfl, rfl⟩ := run_pure_eq_ok h
    exact .unbound hk e
  · rw [e] at h
    cases origin with
    | «local» | parameter =>
      obtain ⟨rfl, rfl⟩ := run_pure_eq_ok h
      exact .variable_ hk e rfl nofun
    | field =>
      obtain ⟨rfl, rfl⟩ := run_compute_eq_ok h
      exact .field hk e rfl
    | importedClass | ownClass | superClass =>
      obtain ⟨rfl, rfl⟩ := run_pure_eq_ok h
      exact .classRef hk e rfl

theorem exists_of_lowerBinary {w : Ty} {tag : Tag} {source : Operand → Operand → Source}
    (h : (lowerBinary t (partsOfEach d scope t.children) w tag source).run c = .ok (v, c')) :
    ∃ left right x y c₁ c₂, t.children[0]? = some left ∧ t.children[1]? = some right ∧
      Yields d scope left (some w) c x c₁ ∧ Yields d scope right (some w) c₁ y c₂ ∧
      v = .computed (x.code ++ y.code) c₂.temporaries tag (source x.operand y.operand) ∧
      c' = c₂.next := by
  obtain ⟨part, hpart, h⟩ := run_lift_bind_eq_ok h
  obtain ⟨left, hleft, rfl⟩ := partGet_eq_ok hpart
  obtain ⟨part, hpart, h⟩ := run_lift_bind_eq_ok h
  obtain ⟨right, hright, rfl⟩ := partGet_eq_ok hpart
  obtain ⟨x, c₁, hx, h⟩ := run_bind_eq_ok h
  obtain ⟨y, c₂, hy, h⟩ := run_bind_eq_ok h
  obtain ⟨rfl, rfl⟩ := run_compute_eq_ok h
  exact ⟨left, right, x, y, c₁, c₂, hleft, hright, hx, hy, rfl, rfl⟩

theorem expands_of_lowerElementRead (hk : t.kind = .elementRead)
    (h : (lowerElementRead d scope t (partsOfEach d scope t.children)).run c = .ok (v, c')) :
    Expands d scope t wanted c v c' := by
  obtain ⟨part, hpart, h⟩ := run_lift_bind_eq_ok h
  obtain ⟨array, harray, rfl⟩ := partGet_eq_ok hpart
  obtain ⟨ty, hty, h⟩ := run_lift_bind_eq_ok h
  obtain ⟨part, hpart, h⟩ := run_lift_bind_eq_ok h
  obtain ⟨index, hindex, rfl⟩ := partGet_eq_ok hpart
  obtain ⟨x, c₁, hx, h⟩ := run_bind_eq_ok h
  obtain ⟨i, c₂, hi, h⟩ := run_bind_eq_ok h
  obtain ⟨rfl, rfl⟩ := run_compute_eq_ok h
  exact .elementRead hk harray hindex hty rfl hx (yieldsIndex_of_run hi)

theorem expands_of_lowerArrayLiteral (hk : t.kind = .arrayLiteral)
    (h : (lowerArrayLiteral d scope (partsOfEach d scope t.children)).run c = .ok (v, c')) :
    Expands d scope t wanted c v c' := by
  rcases e : t.children with - | ⟨first, rest⟩
  · rw [e] at h
    exact .emptyLiteral hk e (yieldsArray_of_run h)
  · rw [e] at h
    obtain ⟨element, helement, h⟩ := run_lift_bind_eq_ok h
    refine .arrayLiteral hk e helement ?_
    rw [e]
    exact yieldsArray_of_run h

/-- A value that an expression was lowered to is one of its form. -/
theorem Yields.expands (h : Yields d scope t wanted c v c') : Expands d scope t wanted c v c' := by
  rw [Yields, lower_eq, lowerOver] at h
  cases hk : t.kind <;> rw [hk] at h
  case integer =>
    obtain ⟨rfl, rfl⟩ := run_pure_eq_ok h
    exact .integer hk
  case boolean =>
    obtain ⟨rfl, rfl⟩ := run_pure_eq_ok h
    exact .boolean hk
  case identifier => exact expands_of_lowerIdentifier hk h
  case self =>
    obtain ⟨rfl, rfl⟩ := run_pure_eq_ok h
    exact .self hk
  case arithmetic =>
    obtain ⟨op, hop, h⟩ := run_lift_bind_eq_ok h
    obtain ⟨left, right, x, y, c₁, c₂, hleft, hright, hx, hy, rfl, rfl⟩ := exists_of_lowerBinary h
    exact .arithmetic hk hop hleft hright hx hy
  case logical =>
    obtain ⟨op, hop, h⟩ := run_lift_bind_eq_ok h
    obtain ⟨left, right, x, y, c₁, c₂, hleft, hright, hx, hy, rfl, rfl⟩ := exists_of_lowerBinary h
    exact .logical hk hop hleft hright hx hy
  case call =>
    obtain ⟨call, c₁, hcall, h⟩ := run_bind_eq_ok h
    obtain ⟨rfl, rfl⟩ := run_compute_eq_ok h
    exact .call hk (yieldsCall_of_run hcall)
  case elementRead => exact expands_of_lowerElementRead hk h
  case arrayLiteral => exact expands_of_lowerArrayLiteral hk h
  case newObject =>
    obtain ⟨x, c₁, hx, h⟩ := run_bind_eq_ok h
    obtain ⟨rfl, rfl⟩ := run_compute_eq_ok hx
    obtain ⟨rfl, rfl⟩ := run_pure_eq_ok h
    exact .newObject hk
  case newArray =>
    obtain ⟨part, hpart, h⟩ := run_lift_bind_eq_ok h
    obtain ⟨size, hsize, rfl⟩ := partGet_eq_ok hpart
    obtain ⟨x, c₁, hx, h⟩ := run_bind_eq_ok h
    obtain ⟨rfl, rfl⟩ := run_compute_eq_ok h
    exact .newArray hk hsize hx
  case length =>
    obtain ⟨part, hpart, h⟩ := run_lift_bind_eq_ok h
    obtain ⟨array, harray, rfl⟩ := partGet_eq_ok hpart
    obtain ⟨x, c₁, hx, h⟩ := run_bind_eq_ok h
    obtain ⟨rfl, rfl⟩ := run_compute_eq_ok h
    exact .length hk harray hx
  all_goals nomatch h

end Values

/-! ### Statements -/

section Statements

variable (d : Declarations) (scope : Option String) (result : Ty)

/-- Lowering a statement gives lines and takes the counters from the first pair
to the second. -/
abbrev YieldsLines (t : Tree) (c : Counters) (ls : List Line) (c' : Counters) : Prop :=
  (lowerStatement d scope result t).run c = .ok (ls, c')

/-- The lowering of statements one after another. -/
inductive YieldsBlock : List Tree → Counters → List Line → Counters → Prop
  | nil {c} : YieldsBlock [] c [] c
  | cons {t rest c ls c₁ more c₂} : YieldsLines d scope result t c ls c₁ →
      YieldsBlock rest c₁ more c₂ → YieldsBlock (t :: rest) c (ls ++ more) c₂

/-- What the lowering of a statement comes to, by its form. -/
inductive ExpandsStatement (t : Tree) (c : Counters) : List Line → Counters → Prop
  | assignment {ty value x c'} : t.kind = .assignment →
      (∀ b, assigned? d scope t = some b → b.origin ≠ .field) →
      ty = ((assigned? d scope t).map (·.ty)).getD .int → t.children[0]? = some value →
      Yields d scope value (some ty) c x c' →
      ExpandsStatement t c
        (x.code ++ [.assign (.named t.name) (Tag.ofTy ty) (.operand x.operand)]) c'
  | fieldAssignment {b value x c'} : t.kind = .assignment → assigned? d scope t = some b →
      b.origin = .field → t.children[0]? = some value →
      Yields d scope value (some b.ty) c x c' →
      ExpandsStatement t c (x.code ++ [.fieldWrite t.name (Tag.ofTy b.ty) x.operand]) c'
  | elementAssignment {element index value i x c₁ c'} : t.kind = .elementAssignment →
      (∀ b, assigned? d scope t = some b → b.origin ≠ .field) →
      element = (((assigned? d scope t).map Binding.ty).getD Ty.intArray).element?.getD .int →
      t.children[0]? = some index → t.children[1]? = some value →
      YieldsIndex d scope index c i c₁ → Yields d scope value (some element) c₁ x c' →
      ExpandsStatement t c
        (i.code ++ x.code ++
          [.store (.named t.name) i.operand (Tag.ofTy element) x.operand]) c'
  | fieldElementAssignment {b element index value i x c₁ c'} : t.kind = .elementAssignment →
      assigned? d scope t = some b → b.origin = .field → element = b.ty.element?.getD .int →
      t.children[0]? = some index → t.children[1]? = some value →
      YieldsIndex d scope index c.next i c₁ → Yields d scope value (some element) c₁ x c' →
      ExpandsStatement t c
        ([.assign (.temporary c.temporaries) (Tag.ofTy b.ty)
            (.fieldRead t.name (Tag.ofTy b.ty))] ++ i.code ++ x.code ++
          [.store (.temporary c.temporaries) i.operand (Tag.ofTy element) x.operand]) c'
  | callStmt {e call c'} : t.kind = .expressionStmt → t.children[0]? = some e →
      e.kind = .call → YieldsCall d scope e none c call c' →
      ExpandsStatement t c (call.code ++ [.call call.invocation]) c'
  | expressionStmt {e x c'} : t.kind = .expressionStmt → t.children[0]? = some e →
      e.kind ≠ .call → Yields d scope e none c x c' → ExpandsStatement t c x.code c'
  | returnNothing : t.kind = .returnStmt → t.children = [] →
      ExpandsStatement t c [.ret (Tag.ofTy result) none] c
  | returnValue {value x c'} : t.kind = .returnStmt → t.children[0]? = some value →
      Yields d scope value (some result) c x c' →
      ExpandsStatement t c (x.code ++ [.ret (Tag.ofTy result) (some x.operand)]) c'
  | conditional {condition thenPart rest x thenLines elseLines c₁ c₂ c'} :
      t.kind = .conditional → t.children = condition :: thenPart :: rest →
      Yields d scope condition (some .boolean) ⟨c.temporaries, c.labels + 1⟩ x c₁ →
      YieldsLines d scope result thenPart c₁ thenLines c₂ →
      YieldsBlock d scope result (rest.take 1) c₂ elseLines c' →
      ExpandsStatement t c (conditionalLines c.labels x thenLines elseLines) c'
  | loop {condition body rest x bodyLines c₁ c'} : t.kind = .loop →
      t.children = condition :: body :: rest →
      Yields d scope condition (some .boolean) ⟨c.temporaries, c.labels + 1⟩ x c₁ →
      YieldsLines d scope result body c₁ bodyLines c' →
      ExpandsStatement t c (loopLines c.labels x bodyLines) c'
  | block {ls c'} : t.kind = .block → YieldsBlock d scope result t.children c ls c' →
      ExpandsStatement t c ls c'

end Statements

/-! ### Lowering came to lines by the rules -/

variable {d : Declarations} {scope : Option String} {result : Ty} {t : Tree} {ts : List Tree}
  {c c' : Counters} {ls : List Line}

theorem childAt_eq_ok {i : Nat} {u : Tree} (h : childAt t i = .ok u) : t.children[i]? = some u := by
  rw [childAt] at h
  rcases e : t.children[i]? with - | u'
  · rw [e] at h
    nomatch h
  · rw [e] at h
    injection h with h
    rw [h]

theorem yieldsBlock_of_run (h : (lowerBlock d scope result ts).run c = .ok (ls, c')) :
    YieldsBlock d scope result ts c ls c' := by
  induction ts generalizing c ls with
  | nil =>
    rw [lowerBlock] at h
    obtain ⟨rfl, rfl⟩ := run_pure_eq_ok h
    exact .nil
  | cons u rest ih =>
    rw [lowerBlock] at h
    obtain ⟨ls, c₁, hls, h⟩ := run_bind_eq_ok h
    obtain ⟨more, c₂, hmore, h⟩ := run_bind_eq_ok h
    obtain ⟨rfl, rfl⟩ := run_pure_eq_ok h
    exact .cons hls (ih hmore)

/-- The first of some statements, if there is one, is lowered as a row. -/
theorem yieldsBlock_of_lowerFirst (h : (lowerFirst d scope result ts).run c = .ok (ls, c')) :
    YieldsBlock d scope result (ts.take 1) c ls c' := by
  rcases ts with - | ⟨u, rest⟩
  · rw [lowerFirst] at h
    obtain ⟨rfl, rfl⟩ := run_pure_eq_ok h
    exact .nil
  · rw [lowerFirst] at h
    have hrow : YieldsBlock d scope result [u] c (ls ++ []) c' := .cons h .nil
    rwa [List.append_nil] at hrow

theorem expands_of_lowerAssignment (hk : t.kind = .assignment)
    (h : (lowerAssignment d scope t).run c = .ok (ls, c')) :
    ExpandsStatement d scope result t c ls c' := by
  obtain ⟨value, hvalue, h⟩ := run_lift_bind_eq_ok h
  obtain ⟨x, c₁, hx, h⟩ := run_bind_eq_ok h
  rcases e : assigned? d scope t with - | ⟨origin, ty⟩
  · rw [e] at h hx
    obtain ⟨rfl, rfl⟩ := run_pure_eq_ok h
    exact .assignment hk (by simp [e]) (by rw [e]) (childAt_eq_ok hvalue) hx
  · rw [e] at h hx
    cases origin with
    | field =>
      obtain ⟨rfl, rfl⟩ := run_pure_eq_ok h
      exact .fieldAssignment hk e rfl (childAt_eq_ok hvalue) hx
    | _ =>
      obtain ⟨rfl, rfl⟩ := run_pure_eq_ok h
      exact .assignment hk (by simp [e]) (by rw [e]) (childAt_eq_ok hvalue) hx

theorem expands_of_lowerElementAssignment (hk : t.kind = .elementAssignment)
    (h : (lowerElementAssignment d scope t).run c = .ok (ls, c')) :
    ExpandsStatement d scope result t c ls c' := by
  obtain ⟨⟨fetch, array⟩, c₁, harray, h⟩ := run_bind_eq_ok h
  obtain ⟨index, hindex, h⟩ := run_lift_bind_eq_ok h
  obtain ⟨i, c₂, hi, h⟩ := run_bind_eq_ok h
  obtain ⟨value, hvalue, h⟩ := run_lift_bind_eq_ok h
  obtain ⟨x, c₃, hx, h⟩ := run_bind_eq_ok h
  obtain ⟨rfl, rfl⟩ := run_pure_eq_ok h
  obtain ⟨element, helement⟩ : ∃ element, element =
    (((assigned? d scope t).map Binding.ty).getD Ty.intArray).element?.getD .int := ⟨_, rfl⟩
  rw [← helement] at hx ⊢
  -- nothing is fetched for an array that has a name in the method
  have hnamed : (∀ b, assigned? d scope t = some b → b.origin ≠ .field) → fetch = [] →
      array = .named t.name → c = c₁ → ExpandsStatement d scope result t c (fetch ++ i.code ++
        x.code ++ [.store array i.operand (Tag.ofTy element) x.operand]) c₃ := by
    rintro hfield rfl rfl rfl
    exact .elementAssignment hk hfield helement (childAt_eq_ok hindex) (childAt_eq_ok hvalue)
      (yieldsIndex_of_run hi) hx
  rcases e : assigned? d scope t with - | ⟨origin, ty⟩
  · rw [e] at harray
    obtain ⟨hfetch, hcell, hc⟩ := run_pure_pair_eq_ok harray
    exact hnamed (by simp [e]) hfetch.symm hcell.symm hc
  · rw [e] at harray
    cases origin with
    | field =>
      obtain ⟨n, c₀, hn, harray⟩ := run_bind_eq_ok harray
      obtain ⟨rfl, rfl⟩ := run_freshTemporary_eq_ok hn
      obtain ⟨rfl, rfl, rfl⟩ := run_pure_pair_eq_ok harray
      rw [e] at helement
      exact .fieldElementAssignment hk e rfl helement (childAt_eq_ok hindex) (childAt_eq_ok hvalue)
        (yieldsIndex_of_run hi) hx
    | _ =>
      obtain ⟨hfetch, hcell, hc⟩ := run_pure_pair_eq_ok harray
      exact hnamed (by simp [e]) hfetch.symm hcell.symm hc

theorem expands_of_lowerExpressionStmt (hk : t.kind = .expressionStmt)
    (h : (lowerExpressionStmt d scope t).run c = .ok (ls, c')) :
    ExpandsStatement d scope result t c ls c' := by
  obtain ⟨e, he, h⟩ := run_lift_bind_eq_ok h
  by_cases hcall : e.kind = .call
  · rw [if_pos (by simpa using hcall), partsOf_eq_map] at h
    obtain ⟨call, c₁, hcode, h⟩ := run_bind_eq_ok h
    obtain ⟨rfl, rfl⟩ := run_pure_eq_ok h
    exact .callStmt hk (childAt_eq_ok he) hcall (yieldsCall_of_run hcode)
  · rw [if_neg (by simpa using hcall)] at h
    obtain ⟨x, c₁, hx, h⟩ := run_bind_eq_ok h
    obtain ⟨rfl, rfl⟩ := run_pure_eq_ok h
    exact .expressionStmt hk (childAt_eq_ok he) hcall hx

theorem expands_of_lowerReturn (hk : t.kind = .returnStmt)
    (h : (lowerReturn d scope result t).run c = .ok (ls, c')) :
    ExpandsStatement d scope result t c ls c' := by
  rw [lowerReturn] at h
  rcases e : t.children with - | ⟨value, rest⟩
  · rw [e] at h
    obtain ⟨rfl, rfl⟩ := run_pure_eq_ok h
    exact .returnNothing hk e
  · rw [e] at h
    obtain ⟨x, c₁, hx, h⟩ := run_bind_eq_ok h
    obtain ⟨rfl, rfl⟩ := run_pure_eq_ok h
    exact .returnValue hk (by rw [e]; rfl) hx

/-- Lines that a statement was lowered to are those of its form. -/
theorem YieldsLines.expands (h : YieldsLines d scope result t c ls c') :
    ExpandsStatement d scope result t c ls c' := by
  obtain ⟨head, cs⟩ := t
  rw [YieldsLines, lowerStatement] at h
  cases hk : head.kind <;> rw [hk] at h
  case assignment => exact expands_of_lowerAssignment hk h
  case elementAssignment => exact expands_of_lowerElementAssignment hk h
  case expressionStmt => exact expands_of_lowerExpressionStmt hk h
  case returnStmt => exact expands_of_lowerReturn hk h
  case block => exact .block hk (yieldsBlock_of_run h)
  case conditional =>
    obtain ⟨n, c₀, hn, h⟩ := run_bind_eq_ok h
    obtain ⟨rfl, rfl⟩ := run_freshLabel_eq_ok hn
    rcases cs with - | ⟨condition, - | ⟨thenPart, rest⟩⟩
    · nomatch h
    · obtain ⟨x, c₁, -, h⟩ := run_bind_eq_ok h
      nomatch h
    · obtain ⟨x, c₁, hx, h⟩ := run_bind_eq_ok h
      obtain ⟨thenLines, c₂, hthen, h⟩ := run_bind_eq_ok h
      obtain ⟨elseLines, c₃, helse, h⟩ := run_bind_eq_ok h
      obtain ⟨rfl, rfl⟩ := run_pure_eq_ok h
      exact .conditional hk rfl hx hthen (yieldsBlock_of_lowerFirst helse)
  case loop =>
    obtain ⟨n, c₀, hn, h⟩ := run_bind_eq_ok h
    obtain ⟨rfl, rfl⟩ := run_freshLabel_eq_ok hn
    rcases cs with - | ⟨condition, - | ⟨body, rest⟩⟩
    · nomatch h
    · obtain ⟨x, c₁, -, h⟩ := run_bind_eq_ok h
      nomatch h
    · obtain ⟨x, c₁, hx, h⟩ := run_bind_eq_ok h
      obtain ⟨bodyLines, c₂, hbody, h⟩ := run_bind_eq_ok h
      obtain ⟨rfl, rfl⟩ := run_pure_eq_ok h
      exact .loop hk rfl hx hbody
  all_goals nomatch h

end JavaMinus.ThreeAddress
