/-
JavaMinus/Proofs/ThreeAddress/Expressions.lean

Lowered expressions compute what expressions mean.

An expression on numbers and truth values is always lowered (`lower_scalar`).
Its lines only put values into temporaries that were not used before, and
behind them its operand holds the value of the expression, or the lines are
trapped in a division by zero just as the expression is (`Computes`).

The operand of the left part of an operation is computed long before it is
used.  It keeps its value since what lies between writes only to temporaries
with later numbers (`Frame`).
-/
import JavaMinus.Proofs.Computation
import JavaMinus.Proofs.ThreeAddress.Execution
import JavaMinus.ThreeAddress.Expression

namespace JavaMinus.ThreeAddress

open Machine StateTransition

/-! ### Temporaries -/

/-- The stores differ in temporaries from a number on, if at all. -/
def Frame (n : Nat) (σ τ : Store) : Prop :=
  ∀ x, (∀ k, n ≤ k → x ≠ (Cell.temporary k).text) → τ x = σ x

theorem Frame.refl (n : Nat) (σ : Store) : Frame n σ σ := fun _ _ => rfl

theorem Frame.trans {n m : Nat} {σ τ υ : Store} (h : Frame n σ τ) (h' : Frame m τ υ)
    (hnm : n ≤ m) : Frame n σ υ := by
  intro x hx
  rw [h' x fun k hk => hx k (hnm.trans hk), h x hx]

/-- Setting a temporary keeps all others. -/
theorem frame_update (n : Nat) (σ : Store) (v : Scalar) :
    Frame n σ (Function.update σ (Cell.temporary n).text v) := by
  intro x hx
  exact Function.update_of_ne (hx n le_rfl) _ _

theorem temporary_injective {m n : Nat}
    (h : (Cell.temporary m).text = (Cell.temporary n).text) : m = n := by
  have hchars := congrArg String.toList (show "t" ++ m.repr = "t" ++ n.repr from h)
  rw [String.toList_append, String.toList_append, List.append_cancel_left_eq] at hchars
  have := congrArg Reading.natural? hchars
  rwa [Reading.natural?_repr, Reading.natural?_repr, Option.some.injEq] at this

/-! ### What lowered expressions do -/

/-- From one position to another the code computes something into an atom, and
changes no more than temporaries from a number on. -/
def Computes (code : List Instruction) (pc pc' n : Nat) (σ : Store) (a : Atom) :
    Option Computed → Prop
  | some (.value v) =>
    ∃ τ, Reaches (step code) (.running pc σ) (.running pc' τ) ∧ Frame n σ τ ∧ a.value τ = v
  | some .trapped =>
    ∃ τ, Reaches (step code) (.running pc σ) (.ended .trapped τ) ∧ Frame n σ τ
  | none => True

/-- The names of the variables are names, and those of temporaries are not
among them. -/
structure PlainNames (s : Signature) : Prop where
  isName : ∀ x ty, s.typeOf? x = some ty → IsName x
  notTemporary : ∀ x ty, s.typeOf? x = some ty → ∀ k, x ≠ (Cell.temporary k).text

/-- The line puts something into a variable. -/
def Line.isAssign : Line → Bool
  | assign .. => true
  | _ => false

/-- The lines and the operand stand for the expression, with temporaries from
the first number up to the second. -/
structure Represents (t : Tree) (v : Value) (a : Atom) (n n' : Nat) : Prop where
  le : n ≤ n'
  /-- The lines can be read, and there are no labels among them. -/
  legible : ∀ l ∈ v.code, l.Legible ∧ l.isAssign
  operandLegible : v.operand.Legible
  atom : v.operand.atom? = some a
  /-- Later temporaries do not matter to the operand. -/
  stable : ∀ σ τ, Frame n' σ τ → a.value τ = a.value σ
  computes : ∀ code pc σ, CodeAt code pc (instructions v.code) →
    Computes code pc (pc + (instructions v.code).length) n σ a (evaluate σ t)

/-- An operand that is good as it stands. -/
theorem represents_plain {t : Tree} {x : Operand} {a : Atom} (n : Nat) (hx : x.Legible)
    (ha : x.atom? = some a) (hstable : ∀ σ τ, Frame n σ τ → a.value τ = a.value σ)
    (hvalue : ∀ σ, evaluate σ t = some (.value (a.value σ))) :
    Represents t (.plain x) a n n where
  le := le_rfl
  legible := by simp [Value.plain]
  operandLegible := hx
  atom := ha
  stable := hstable
  computes := by
    intro code pc σ _
    rw [hvalue]
    exact ⟨σ, .refl, Frame.refl n σ, rfl⟩

/-- The instruction of a line that stands behind others. -/
theorem instructions_concat {ls : List Line} {l : Line} {i : Instruction}
    (h : l.instruction? = some i) : instructions (ls ++ [l]) = instructions ls ++ [i] := by
  rw [instructions_append]
  congr 1
  exact List.filterMap_cons_some h

/-- The variables keep their values when temporaries are set. -/
theorem Frame.eq_of_plain {s : Signature} (hs : PlainNames s) {n : Nat} {σ τ : Store}
    (h : Frame n σ τ) : ∀ x ty, s.typeOf? x = some ty → σ x = τ x := by
  intro x ty hx
  exact (h x fun k _ => hs.notTemporary x ty hx k).symm

/-- Two operands, and an operation on them that is put into a temporary. -/
theorem represents_operation {s : Signature} (hs : PlainNames s) {t left right : Tree}
    {ty : Ty} {x y : Value} {a b : Atom} {n n₁ n₂ : Nat} {tag : Tag} {source : Source}
    (op : Operation) (hx : Represents left x a n n₁) (hy : Represents right y b n₁ n₂)
    (hright : HasScalarType s right ty) (htag : tag.IsScalar)
    (hlegible : (Line.assign (.temporary n₂) tag source).Legible)
    (hline : (Line.assign (.temporary n₂) tag source).instruction? =
      some (.operate (Cell.temporary n₂).text op a b))
    (hvalue : ∀ σ, evaluate σ t = Computed.both (evaluate σ left) (evaluate σ right) op.on) :
    Represents t
      ⟨.cell (.temporary n₂) tag, x.code ++ y.code ++ [.assign (.temporary n₂) tag source]⟩
      (.variable (Cell.temporary n₂).text) n (n₂ + 1) where
  le := hx.le.trans (hy.le.trans (Nat.le_succ n₂))
  legible := by
    intro l hl
    rcases List.mem_append.mp hl with hl | hl
    · rcases List.mem_append.mp hl with hl | hl
      · exact hx.legible l hl
      · exact hy.legible l hl
    · rw [List.mem_singleton.mp hl]
      exact ⟨hlegible, rfl⟩
  operandLegible := ⟨isName_temporary n₂, htag⟩
  atom := rfl
  stable := by
    intro σ τ h
    refine h _ fun k hk he => ?_
    have := temporary_injective he
    omega
  computes := by
    intro code pc σ hcode
    rw [instructions_concat hline, instructions_append] at hcode
    rw [instructions_concat hline, instructions_append, hvalue]
    have hX := hx.computes code pc σ hcode.left.left
    rcases eX : evaluate σ left with - | u | -
    · exact trivial
    · rw [eX] at hX
      obtain ⟨τ, hτ, hframe, hu⟩ := hX
      -- the right part sees the variables as they were
      have hright' : evaluate σ right = evaluate τ right :=
        evaluate_congr (hframe.eq_of_plain hs) hright
      have hY := hy.computes code _ τ hcode.left.right
      rw [hright']
      rcases eY : evaluate τ right with - | v | -
      · exact trivial
      · rw [eY] at hY
        obtain ⟨υ, hυ, hframe', hv⟩ := hY
        have hframe'' : Frame n σ υ := hframe.trans hframe' hx.le
        -- what was computed for the left part is not overwritten by the right one
        have ha : a.value υ = u := by rw [hx.stable τ υ hframe', hu]
        have hat : code[pc + (instructions x.code).length + (instructions y.code).length]? =
            some (.operate (Cell.temporary n₂).text op a b) := by
          have := hcode.right.head
          rwa [List.length_append, ← Nat.add_assoc] at this
        have hstep := step_running υ hat
        rw [execute, ha, hv] at hstep
        show Computes _ _ _ _ _ _ (op.on u v)
        rcases eop : op.on u v with - | w | -
        · exact trivial
        · rw [eop] at hstep
          refine ⟨_, (hτ.trans hυ).trans ?_,
            hframe''.trans (frame_update n₂ υ w) (hx.le.trans hy.le), Function.update_self ..⟩
          rw [List.length_append, List.length_append, ← Nat.add_assoc, ← Nat.add_assoc]
          exact reaches_of_step hstep
        · rw [eop] at hstep
          exact ⟨υ, (hτ.trans hυ).trans (reaches_of_step hstep), hframe''⟩
      · rw [eY] at hY
        obtain ⟨υ, hυ, hframe'⟩ := hY
        exact ⟨υ, hτ.trans hυ, hframe.trans hframe' hx.le⟩
    · rw [eX] at hX
      exact hX

/-! ### Lowering expressions -/

variable {d : Declarations} {scope : Option String}

/-- A source is computed into the next temporary. -/
theorem run_compute (before : List Line) (tag : Tag) (source : Source) (c : Counters) :
    (compute before tag source).run c =
      .ok (⟨.cell (.temporary c.temporaries) tag,
          before ++ [.assign (.temporary c.temporaries) tag source]⟩,
        ⟨c.temporaries + 1, c.labels⟩) := rfl

theorem run_lowerBinary {t left right : Tree} {w : Ty} {tag : Tag}
    {source : Operand → Operand → Source} {c c₁ c₂ : Counters} {x y : Value}
    (hx : (lower d scope left (some w)).run c = .ok (x, c₁))
    (hy : (lower d scope right (some w)).run c₁ = .ok (y, c₂)) :
    (lowerBinary t [⟨left, lower d scope left⟩, ⟨right, lower d scope right⟩] w tag
        source).run c =
      .ok (⟨.cell (.temporary c₂.temporaries) tag, x.code ++ y.code ++
          [.assign (.temporary c₂.temporaries) tag (source x.operand y.operand)]⟩,
        ⟨c₂.temporaries + 1, c₂.labels⟩) := by
  have hp : Part.get t [⟨left, lower d scope left⟩, ⟨right, lower d scope right⟩] 0 =
      .ok ⟨left, lower d scope left⟩ := rfl
  have hq : Part.get t [⟨left, lower d scope left⟩, ⟨right, lower d scope right⟩] 1 =
      .ok ⟨right, lower d scope right⟩ := rfl
  rw [lowerBinary, run_bind_ok (run_lift_ok c hp), run_bind_ok (run_lift_ok c hq),
    run_bind_ok hx, run_bind_ok hy, run_compute]

variable {m : String} {s : Signature}

/-- The variables of a method are found among its locals and parameters. -/
theorem methodVariable?_of_typeOf? (hm : d.method? m = some s) {x : String} {ty : Ty}
    (hx : s.typeOf? x = some ty) :
    d.methodVariable? m x = some ⟨.local, ty⟩ ∨ d.methodVariable? m x = some ⟨.parameter, ty⟩ := by
  have hlocals : d.locals m = s.locals := by simp [Declarations.locals, hm]
  have hparameters : d.parameters m = s.parameters := by simp [Declarations.parameters, hm]
  rw [Signature.typeOf?] at hx
  rw [Declarations.methodVariable?, hlocals, hparameters]
  rcases e : Variable.find? s.locals x with - | v
  · rw [e, Option.none_or] at hx
    obtain ⟨v, hv, rfl⟩ := Option.map_eq_some_iff.mp hx
    right
    rw [hv]
    rfl
  · rw [e] at hx
    left
    rw [← Option.some.inj hx]
    rfl

theorem run_lowerIdentifier (hm : d.method? m = some s) {t : Tree} {x : String} {ty : Ty}
    (ht : t.get? "name" = some x) (hx : s.typeOf? x = some ty) (c : Counters) :
    (lowerIdentifier d (some m) t).run c =
      .ok (.plain (.cell (.named x) (Tag.ofTy ty)), c) := by
  have hname : t.name = x := by rw [Tree.name, ht, Option.getD_some]
  rw [lowerIdentifier, Declarations.identifier?, ht, Option.bind_some, Declarations.binding?,
    Declarations.variableOf?, Option.bind_some]
  rcases methodVariable?_of_typeOf? hm hx with h | h <;> rw [h, hname] <;> rfl

/-! ### One equation for each form of expression -/

variable {t : Tree} {wanted : Option Ty}

theorem lower_integer (h : t.kind = .integer) :
    lower d scope t wanted = pure (.plain (.number ((t.get? "value").getD "0"))) := by
  rw [lower_eq, lowerOver, h]

theorem lower_boolean (h : t.kind = .boolean) :
    lower d scope t wanted = pure (.plain (.truth (t.flag "value"))) := by
  rw [lower_eq, lowerOver, h]

theorem lower_identifier (h : t.kind = .identifier) :
    lower d scope t wanted = lowerIdentifier d scope t := by
  rw [lower_eq, lowerOver, h]

theorem run_lower_arithmetic (h : t.kind = .arithmetic) {op : ArithmeticOperator}
    (hop : ArithmeticOperator.ofTree t = .ok op) {left right : Tree}
    (hcs : t.children = [left, right]) {c c₁ c₂ : Counters} {x y : Value}
    (hx : (lower d scope left (some .int)).run c = .ok (x, c₁))
    (hy : (lower d scope right (some .int)).run c₁ = .ok (y, c₂)) :
    (lower d scope t wanted).run c =
      .ok (⟨.cell (.temporary c₂.temporaries) .i32, x.code ++ y.code ++
          [.assign (.temporary c₂.temporaries) .i32 (.arithmetic op x.operand y.operand)]⟩,
        ⟨c₂.temporaries + 1, c₂.labels⟩) := by
  rw [lower_eq, lowerOver, h, hcs]
  exact (run_bind_ok (run_lift_ok c hop)).trans (run_lowerBinary (t := t) hx hy)

theorem run_lower_logical (h : t.kind = .logical) {op : LogicalOperator}
    (hop : LogicalOperator.ofTree t = .ok op) {left right : Tree}
    (hcs : t.children = [left, right]) {c c₁ c₂ : Counters} {x y : Value} {w : Ty}
    (hw : w = if op.isConnective then .boolean else .int)
    (hx : (lower d scope left (some w)).run c = .ok (x, c₁))
    (hy : (lower d scope right (some w)).run c₁ = .ok (y, c₂)) :
    (lower d scope t wanted).run c =
      .ok (⟨.cell (.temporary c₂.temporaries) .bool, x.code ++ y.code ++
          [.assign (.temporary c₂.temporaries) .bool (.logical op x.operand y.operand)]⟩,
        ⟨c₂.temporaries + 1, c₂.labels⟩) := by
  subst hw
  rw [lower_eq, lowerOver, h, hcs]
  exact (run_bind_ok (run_lift_ok c hop)).trans (run_lowerBinary (t := t) hx hy)

theorem lower_self (h : t.kind = .self) :
    lower d scope t wanted = pure (.plain (.self d.className)) := by
  rw [lower_eq, lowerOver, h]

theorem partGet_ok {us : List Tree} {i : Nat} {u : Tree} (h : us[i]? = some u) :
    Part.get t (us.map fun c => ⟨c, lower d scope c⟩) i = .ok ⟨u, lower d scope u⟩ := by
  rw [Part.get, List.getElem?_map, h]
  rfl

theorem run_lower_elementRead (h : t.kind = .elementRead) {array index : Tree}
    (hcs : t.children = [array, index]) {ty : Option Ty} (hty : d.typeOf scope array = .ok ty)
    {c c₁ c₂ : Counters} {x y : Value}
    (hx : (lower d scope array none).run c = .ok (x, c₁))
    (hy : (lowerIndex ⟨index, lower d scope index⟩).run c₁ = .ok (y, c₂)) :
    (lower d scope t wanted).run c =
      .ok (⟨.cell (.temporary c₂.temporaries) (Tag.ofTy ((ty.bind (·.element?)).getD .int)),
          x.code ++ y.code ++
            [.assign (.temporary c₂.temporaries) (Tag.ofTy ((ty.bind (·.element?)).getD .int))
              (.element x.operand y.operand (Tag.ofTy ((ty.bind (·.element?)).getD .int)))]⟩,
        ⟨c₂.temporaries + 1, c₂.labels⟩) := by
  rw [lower_eq, lowerOver, h, hcs]
  simp only [lowerElementRead]
  rw [run_bind_ok (run_lift_ok c (partGet_ok rfl)), run_bind_ok (run_lift_ok c hty),
    run_bind_ok (run_lift_ok c (partGet_ok rfl)), run_bind_ok hx, run_bind_ok hy, run_compute]

theorem run_lower_length (h : t.kind = .length) {array : Tree} (hcs : t.children = [array])
    {c c₁ : Counters} {x : Value} (hx : (lower d scope array none).run c = .ok (x, c₁)) :
    (lower d scope t wanted).run c =
      .ok (⟨.cell (.temporary c₁.temporaries) .i32,
          x.code ++ [.assign (.temporary c₁.temporaries) .i32 (.length x.operand)]⟩,
        ⟨c₁.temporaries + 1, c₁.labels⟩) := by
  rw [lower_eq, lowerOver, h, hcs]
  simp only
  rw [run_bind_ok (run_lift_ok c (partGet_ok rfl)), run_bind_ok hx, run_compute]

theorem run_lower_newArray (h : t.kind = .newArray) {size : Tree} (hcs : t.children = [size])
    {c c₁ : Counters} {x : Value} (hx : (lower d scope size none).run c = .ok (x, c₁)) :
    (lower d scope t wanted).run c =
      .ok (⟨.cell (.temporary c₁.temporaries) (.array .i32), x.code ++
          [.assign (.temporary c₁.temporaries) (.array .i32) (.newArray x.operand (.array .i32))]⟩,
        ⟨c₁.temporaries + 1, c₁.labels⟩) := by
  rw [lower_eq, lowerOver, h, hcs]
  simp only
  rw [run_bind_ok (run_lift_ok c (partGet_ok rfl)), run_bind_ok hx, run_compute]

theorem run_lower_newObject (h : t.kind = .newObject) (c : Counters) :
    (lower d scope t wanted).run c =
      .ok (⟨.cell (.temporary c.temporaries) (.object t.name),
          [.assign (.temporary c.temporaries) (.object t.name) (.newObject t.name),
            .construct (.cell (.temporary c.temporaries) (.object t.name))]⟩,
        ⟨c.temporaries + 1, c.labels⟩) := by
  rw [lower_eq, lowerOver, h]
  rfl

/-! ### Arrays of parts -/

theorem run_storeFrom_cons {n : Nat} {element : Ty} {i : Nat} {part : Part} {rest : List Part}
    {c c₁ c₂ : Counters} {x : Value} {more : List Line}
    (hx : (part.lower (some element)).run c = .ok (x, c₁))
    (hmore : (storeFrom n element (i + 1) rest).run ⟨c₁.temporaries + 1, c₁.labels⟩ =
      .ok (more, c₂)) :
    (storeFrom n element i (part :: rest)).run c =
      .ok (x.code ++
        [.assign (.temporary c₁.temporaries) .i32 (.operand (.number (toString i))),
         .store (.temporary n) (.cell (.temporary c₁.temporaries) .i32) (Tag.ofTy element)
          x.operand] ++ more, c₂) := by
  have hfresh : freshTemporary.run c₁ =
    .ok (c₁.temporaries, ⟨c₁.temporaries + 1, c₁.labels⟩) := rfl
  rw [storeFrom, run_bind_ok hx, run_bind_ok hfresh, run_bind_ok hmore]
  rfl

theorem run_lowerArray {element : Ty} {parts : List Part} {c c₁ : Counters} {stores : List Line}
    (hstores : (storeFrom c.temporaries element 0 parts).run ⟨c.temporaries + 1, c.labels⟩ =
      .ok (stores, c₁)) :
    (lowerArray element parts).run c =
      .ok (⟨.cell (.temporary c.temporaries) (.array (Tag.ofName element.name)),
        .assign (.temporary c.temporaries) (.array (Tag.ofName element.name))
          (.newArray (.number (toString parts.length)) (.array (Tag.ofName element.name))) ::
        stores⟩, c₁) := by
  have hfresh : freshTemporary.run c = .ok (c.temporaries, ⟨c.temporaries + 1, c.labels⟩) := rfl
  rw [lowerArray, run_bind_ok hfresh, run_bind_ok hstores]
  rfl

/-! ### Calls on parts -/

theorem run_lowerCall {receiver : Tree} {arguments : List Tree}
    (hcs : t.children = receiver :: arguments) {declared : Option Ty}
    (hdeclared : d.callType scope t = .ok declared) {c c₁ c₂ : Counters} {code : List Line}
    {target : Receiver} {xs : List Value}
    (htarget : (lowerReceiver d scope ⟨receiver, lower d scope receiver⟩).run c =
      .ok ((code, target), c₁))
    (hxs : (lowerArguments d scope (if declared.isSome then d.parameters t.name else [])
      (arguments.map fun u => ⟨u, lower d scope u⟩)).run c₁ = .ok (xs, c₂)) :
    (lowerCall d scope t (t.children.map fun u => ⟨u, lower d scope u⟩) wanted).run c =
      .ok (⟨code ++ xs.flatMap (·.code), ⟨target, t.name, xs.map (·.operand),
        Tag.ofTy ((declared.or wanted).getD .void)⟩⟩, c₂) := by
  rw [lowerCall, hcs, run_bind_ok (run_lift_ok c (partGet_ok rfl)),
    run_bind_ok (run_lift_ok c hdeclared), run_bind_ok htarget, List.map_cons,
    List.drop_succ_cons, List.drop_zero]
  rw [run_bind_ok hxs]
  rfl

theorem run_lower_call (h : t.kind = .call) {c c₁ : Counters} {call : Call}
    (hcall : (lowerCall d scope t (t.children.map fun u => ⟨u, lower d scope u⟩)
      (some (wanted.getD .int))).run c = .ok (call, c₁)) :
    (lower d scope t wanted).run c =
      .ok (⟨.cell (.temporary c₁.temporaries) call.invocation.result, call.code ++
          [.assign (.temporary c₁.temporaries) call.invocation.result (.call call.invocation)]⟩,
        ⟨c₁.temporaries + 1, c₁.labels⟩) := by
  rw [lower_eq, lowerOver, h]
  simp only
  rw [run_bind_ok hcall, run_compute]

/-! ### Scalar expressions -/

theorem isScalar_ofTy {ty : Ty} (h : ty = .int ∨ ty = .boolean) : (Tag.ofTy ty).IsScalar := by
  rcases h with rfl | rfl
  · exact Or.inl Tag.ofTy_int
  · exact Or.inr Tag.ofTy_boolean

/-- An expression on numbers and truth values is lowered, whatever is wanted,
to lines and an operand that stand for it.  No label is taken. -/
theorem lower_scalar (hm : d.method? m = some s) (hs : PlainNames s) {ty : Ty}
    (h : HasScalarType s t ty) (wanted : Option Ty) (c : Counters) :
    ∃ v a n, (lower d (some m) t wanted).run c = .ok (v, ⟨n, c.labels⟩) ∧
      Represents t v a c.temporaries n := by
  induction h generalizing wanted c with
  | @integer t v hk hv =>
    obtain ⟨digits, hdigits, hread⟩ := Option.bind_eq_some_iff.mp hv
    refine ⟨_, .constant (.number v), c.temporaries, by rw [lower_integer hk]; rfl, ?_⟩
    have hatom : (Operand.number digits).atom? = some (.constant (.number v)) := by
      rw [Operand.atom?, hread, Option.map_some]
    rw [hdigits]
    refine represents_plain _ (by simp [Operand.Legible, hread]) hatom (fun _ _ _ => rfl) ?_
    intro σ
    exact evaluate_integer hk hv
  | @boolean t hk =>
    refine ⟨_, .constant (.truth (t.flag "value")), c.temporaries,
      by rw [lower_boolean hk]; rfl, ?_⟩
    exact represents_plain _ trivial rfl (fun _ _ _ => rfl) fun σ => evaluate_boolean hk
  | @identifier t x ty hk hx hty hscalar =>
    have hname : t.name = x := by rw [Tree.name, hx, Option.getD_some]
    refine ⟨_, .variable x, c.temporaries,
      by rw [lower_identifier hk, run_lowerIdentifier hm hx hty], ?_⟩
    refine represents_plain _ ⟨hs.isName x ty hty, isScalar_ofTy hscalar⟩ rfl ?_ ?_
    · intro σ τ hframe
      exact (hframe.eq_of_plain hs x ty hty).symm
    · intro σ
      rw [evaluate_identifier hk, hname]
      rfl
  | @arithmetic t op left right hk hop hcs hleft hright ihl ihr =>
    obtain ⟨x, a, n₁, hx, hX⟩ := ihl (some .int) c
    obtain ⟨y, b, n₂, hy, hY⟩ := ihr (some .int) ⟨n₁, c.labels⟩
    refine ⟨_, .variable (Cell.temporary n₂).text, _,
      (run_lower_arithmetic hk hop hcs hx hy :), ?_⟩
    refine represents_operation hs (.arithmetic op) hX hY hright (Or.inl rfl)
      ⟨isName_temporary n₂, Or.inl rfl, hX.operandLegible, hY.operandLegible⟩ ?_
      fun σ => evaluate_arithmetic hk hop hcs
    simp [Line.instruction?, hX.atom, hY.atom]
  | @connective t op left right hk hop hcs hleft hright ihl ihr =>
    obtain ⟨x, a, n₁, hx, hX⟩ := ihl (some .boolean) c
    obtain ⟨y, b, n₂, hy, hY⟩ := ihr (some .boolean) ⟨n₁, c.labels⟩
    refine ⟨_, .variable (Cell.temporary n₂).text, _,
      (run_lower_logical hk hop hcs rfl hx hy :), ?_⟩
    refine represents_operation hs (.logical (.connective op)) hX hY hright (Or.inr rfl)
      ⟨isName_temporary n₂, Or.inr rfl, hX.operandLegible, hY.operandLegible⟩ ?_
      fun σ => evaluate_logical hk hop hcs
    simp [Line.instruction?, hX.atom, hY.atom]
  | @comparison t op left right hk hop hcs hleft hright ihl ihr =>
    obtain ⟨x, a, n₁, hx, hX⟩ := ihl (some .int) c
    obtain ⟨y, b, n₂, hy, hY⟩ := ihr (some .int) ⟨n₁, c.labels⟩
    refine ⟨_, .variable (Cell.temporary n₂).text, _,
      (run_lower_logical hk hop hcs rfl hx hy :), ?_⟩
    refine represents_operation hs (.logical (.comparison op)) hX hY hright (Or.inr rfl)
      ⟨isName_temporary n₂, Or.inr rfl, hX.operandLegible, hY.operandLegible⟩ ?_
      fun σ => evaluate_logical hk hop hcs
    simp [Line.instruction?, hX.atom, hY.atom]

end JavaMinus.ThreeAddress
