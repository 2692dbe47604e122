/-
JavaMinus/Proofs/Assembly/Emission.lean

What emission comes to.

For each function of emission it is said once what follows when it comes to a
result: which lines there are, which parts were emitted from which counts, and
what the counts are behind it.  Everything else about emission starts from
these statements and opens none of the functions again.
-/
import JavaMinus.Assembly.ClassFile
import JavaMinus.Proofs.Computation

namespace JavaMinus.Assembly

open JavaMinus.Graph (ClassUnit Operand Operator ValueType)

/-! ### Counts -/

/-- The counts when values have been pushed. -/
def Progress.grow (p : Progress) (n : Nat) : Progress := { p with depth := p.depth.grow n }

/-- The counts when values have been popped. -/
def Progress.shrink (p : Progress) (n : Nat) : Progress := { p with depth := p.depth.shrink n }

/-- The counts when a comparison has been kept. -/
def Progress.compare (p : Progress) : Progress := { p with comparisons := p.comparisons + 1 }

@[simp] theorem Progress.comparisons_grow (p : Progress) (n : Nat) :
    (p.grow n).comparisons = p.comparisons := rfl

@[simp] theorem Progress.comparisons_shrink (p : Progress) (n : Nat) :
    (p.shrink n).comparisons = p.comparisons := rfl

theorem Progress.grow_grow (p : Progress) (n k : Nat) : (p.grow n).grow k = p.grow (n + k) := by
  simp only [grow, Depth.grow, Progress.mk.injEq, Depth.mk.injEq, and_true]
  omega

theorem Progress.shrink_shrink (p : Progress) (n k : Nat) :
    (p.shrink n).shrink k = p.shrink (n + k) := by
  simp only [shrink, Depth.shrink, Nat.sub_sub]

theorem run_grow (n : Nat) (p : Progress) : (grow n).run p = .ok ((), p.grow n) := rfl

theorem run_shrink (n : Nat) (p : Progress) : (shrink n).run p = .ok ((), p.shrink n) := rfl

variable {u : ClassUnit} {m : Graph.Method} {p p' : Progress} {lines : List Line}

/-! ### Values -/

theorem register?_of_registerOf {x : String} {r : UInt16} (h : registerOf m x = .ok r) :
    m.register? x = some r := by
  rw [registerOf] at h
  split at h
  · next e =>
    injection h with h
    rw [e, h]
  · nomatch h

theorem ok_inj {a b : List Line} (h : (Except.ok (a, p) : Except Fault _) = .ok (b, p')) :
    b = a ∧ p' = p := by
  injection h with h
  injection h with ha hp
  exact ⟨ha.symm, hp.symm⟩

theorem load_literal {v : Int32} {t : ValueType}
    (h : (load m (.literal v t)).run p = .ok (lines, p')) :
    lines = code [.push (.ofInt v)] ∧ p' = p.grow 1 := by
  rw [load, run_bind_ok (run_grow 1 p)] at h
  exact ok_inj h

/-- The object itself is in register zero. -/
theorem run_load_self {x : String} {t : ValueType} (hself : (∃ c, t = .self c) ∨ x = "this") :
    (load m (.named x t)).run p = .ok (code [.load .reference 0], p.grow 1) := by
  rcases hself with ⟨c, rfl⟩ | rfl
  · rfl
  · cases t <;> rfl

/-- A variable is loaded from its register, unless the object itself is meant. -/
theorem load_named {x : String} {t : ValueType}
    (h : (load m (.named x t)).run p = .ok (lines, p')) :
    ∃ family r, lines = code [.load family r] ∧ p' = p.grow 1 ∧
      (x ≠ "this" → (∀ c, t ≠ .self c) → family = .ofType t ∧ m.register? x = some r) := by
  -- what is loaded for the object itself tells nothing of registers
  by_cases hself : (∃ c, t = .self c) ∨ x = "this"
  · rw [run_load_self hself] at h
    obtain ⟨rfl, rfl⟩ := ok_inj h
    refine ⟨_, _, rfl, rfl, ?_⟩
    intro hx ht
    rcases hself with ⟨c, rfl⟩ | rfl
    · exact absurd rfl (ht c)
    · exact absurd rfl hx
  · obtain ⟨ht, hx⟩ := not_or.mp hself
    rw [load] at h
    swap
    · exact fun c hc => ht ⟨c, hc⟩
    rw [beq_false_of_ne hx] at h
    split at h
    case isTrue hfalse => nomatch hfalse
    split at h
    case isTrue =>
      obtain ⟨r, p₁, hr, h⟩ := run_bind_eq_ok h
      obtain ⟨hregister, rfl⟩ := run_lift_eq_ok hr
      rw [pure_bind, run_bind_ok (run_grow 1 p)] at h
      obtain ⟨rfl, rfl⟩ := ok_inj h
      exact ⟨_, r, rfl, rfl, fun _ _ => ⟨rfl, register?_of_registerOf hregister⟩⟩
    case isFalse => nomatch h

theorem load_element {array : String} {index : Operand} {t : ValueType}
    (h : (load m (.element array index t)).run p = .ok (lines, p')) :
    ∃ r position p₁, (load m index).run (p.grow 1) = .ok (position, p₁) ∧
      lines = code [.load .reference r] ++ position ++ code [.elementLoad (.ofType t)] ∧
      p' = p₁.shrink 1 ∧ m.register? array = some r := by
  rw [load] at h
  obtain ⟨r, p₁, hr, h⟩ := run_bind_eq_ok h
  obtain ⟨hregister, rfl⟩ := run_lift_eq_ok hr
  rw [run_bind_ok (run_grow 1 p)] at h
  obtain ⟨position, p₂, hposition, h⟩ := run_bind_eq_ok h
  rw [run_bind_ok (run_shrink 1 p₂)] at h
  obtain ⟨rfl, rfl⟩ := ok_inj h
  exact ⟨r, position, p₂, hposition, rfl, rfl, register?_of_registerOf hregister⟩

/-- The label in front of the one that a comparison leaves when it holds. -/
def whenTrue (n : Nat) : String := s!"cmp_true_{n}"

/-- The label behind a comparison that is kept. -/
def whenDone (n : Nat) : String := s!"cmp_end_{n}"

/-- The lines of a comparison that is kept as a value. -/
def compareLines (op : Comparison) (n : Nat) : List Line :=
  code [.compareJump op (whenTrue n), .push (.ofInt 0), .jump (whenDone n)] ++
    [.label (whenTrue n)] ++ code [.push (.ofInt 1)] ++ [.label (whenDone n)]

theorem operate_arithmetic {op : ArithmeticOperator}
    (h : (operate (.arithmetic op)).run p = .ok (lines, p')) :
    lines = code [.arithmetic op] ∧ p' = p.shrink 1 := by
  rw [operate, run_bind_ok (run_shrink 1 p)] at h
  exact ok_inj h

theorem operate_connective {op : Connective}
    (h : (operate (.connective op)).run p = .ok (lines, p')) :
    lines = code [.connective op] ∧ p' = p.shrink 1 := by
  rw [operate, run_bind_ok (run_shrink 1 p)] at h
  exact ok_inj h

theorem operate_comparison {op : Comparison}
    (h : (operate (.comparison op)).run p = .ok (lines, p')) :
    lines = compareLines op p.comparisons ∧ p' = p.compare.shrink 1 := by
  have hfresh : freshComparison.run p = .ok (p.comparisons, p.compare) := rfl
  rw [operate, run_bind_ok hfresh, run_bind_ok (run_shrink 1 p.compare)] at h
  exact ok_inj h

/-! ### Calls -/

theorem loadAll_cons {x : Operand} {rest : List Operand}
    (h : (loadAll m (x :: rest)).run p = .ok (lines, p')) :
    ∃ first more p₁, (load m x).run p = .ok (first, p₁) ∧
      (loadAll m rest).run p₁ = .ok (more, p') ∧ lines = first ++ more := by
  rw [loadAll] at h
  obtain ⟨first, p₁, hfirst, h⟩ := run_bind_eq_ok h
  obtain ⟨more, p₂, hmore, h⟩ := run_bind_eq_ok h
  obtain ⟨rfl, rfl⟩ := ok_inj h
  exact ⟨first, more, p₁, hfirst, hmore, rfl⟩

/-- What stands on the stack for a call: the receiver, if there is one, and the
arguments. -/
def operandsOf (mode : CallMode) (c : Graph.Call) : List Operand :=
  (if mode = .static then [] else [c.caller]) ++ c.arguments

/-- How many values a type of results stands for. -/
def resultCount (t : ValueType) : Nat := if t = .void then 0 else 1

theorem descriptor_eq_void {t : ValueType} : u.descriptor t = .void ↔ t = .void := by
  cases t <;> simp [ClassUnit.descriptor]

theorem ok_inj' {a b : List Line} {n k : Nat}
    (h : (Except.ok ((a, n), p) : Except Fault _) = .ok ((b, k), p')) :
    b = a ∧ k = n ∧ p' = p := by
  injection h with h
  injection h with ha hp
  injection ha with ha hn
  exact ⟨ha.symm, hn.symm, hp.symm⟩

theorem invoke_eq_ok {mode : CallMode} {c : Graph.Call} {left : Nat}
    (h : (invoke u m mode c).run p = .ok ((lines, left), p')) :
    ∃ method operands p₁, (loadAll m (operandsOf mode c)).run p = .ok (operands, p₁) ∧
      lines = operands ++ code [.invoke mode method] ∧
      method.parameters.length = c.arguments.length ∧
      (method.result = .void ↔ c.result = .void) ∧ left = resultCount c.result ∧
      p' = if c.result = .void then p₁.shrink (operandsOf mode c).length
        else (p₁.shrink (operandsOf mode c).length).grow 1 := by
  rw [invoke] at h
  split at h
  case h_2 => nomatch h
  case h_1 name _ =>
    rw [pure_bind] at h
    obtain ⟨owner, p₁, howner, h⟩ := run_bind_eq_ok h
    obtain ⟨-, rfl⟩ := run_lift_eq_ok howner
    obtain ⟨operands, p₁, hoperands, h⟩ := run_bind_eq_ok h
    rw [run_bind_ok (run_shrink _ p₁)] at h
    refine ⟨⟨owner, name, c.arguments.map fun x => u.descriptor x.type, u.descriptor c.result⟩,
      operands, p₁, hoperands, ?_⟩
    split at h
    case isTrue hvoid =>
      obtain ⟨rfl, rfl, rfl⟩ := ok_inj' h
      exact ⟨rfl, List.length_map .., descriptor_eq_void, (if_pos hvoid).symm,
        (if_pos hvoid).symm⟩
    case isFalse hvoid =>
      rw [run_bind_ok (run_grow 1 _)] at h
      obtain ⟨rfl, rfl, rfl⟩ := ok_inj' h
      exact ⟨rfl, List.length_map .., descriptor_eq_void, (if_neg hvoid).symm,
        (if_neg hvoid).symm⟩

/-- A new object is left twice; of a new array the size is taken. -/
theorem allocate_eq_ok {c : Graph.Call} {left : Nat}
    (h : (allocate u m c).run p = .ok ((lines, left), p')) :
    (∃ className, c.caller.type = .object className ∧
      lines = code [.newObject (u.internalName className), .dup] ∧ left = 2 ∧ p' = p.grow 2) ∨
    (∃ element size loaded, c.caller.type = .array element ∧
      (load m size).run p = .ok (loaded, p') ∧ lines = loaded ++ code [.newIntArray] ∧
      left = 1 ∧ c.arguments.head? = some size) := by
  rw [allocate] at h
  split at h
  case h_1 className hcaller =>
    rw [run_bind_ok (run_grow 2 p)] at h
    obtain ⟨rfl, rfl, rfl⟩ := ok_inj' h
    exact Or.inl ⟨className, hcaller, rfl, rfl, rfl⟩
  case h_2 element hcaller =>
    split at h
    case h_1 => nomatch h
    case h_2 size _ hsize =>
      obtain ⟨loaded, p₁, hloaded, h⟩ := run_bind_eq_ok h
      obtain ⟨rfl, rfl, rfl⟩ := ok_inj' h
      exact Or.inr ⟨element, size, loaded, hcaller, hloaded, rfl, rfl, by rw [hsize]; rfl⟩
  case h_3 => nomatch h

/-! ### Instructions -/

theorem fieldRef_pure {field : Operand} {f : FieldRef} {p₁ : Progress}
    (h : (liftM (fieldRef u m field) : Emission FieldRef).run p = .ok (f, p₁)) : p = p₁ :=
  (run_lift_eq_ok h).2

theorem value_binary {op : Operator} {left right : Operand}
    (h : (value u m (.binary op left right)).run p = .ok (lines, p')) :
    ∃ x y z p₁ p₂, (load m left).run p = .ok (x, p₁) ∧ (load m right).run p₁ = .ok (y, p₂) ∧
      (operate op).run p₂ = .ok (z, p') ∧ lines = x ++ y ++ z := by
  rw [value] at h
  obtain ⟨x, p₁, hx, h⟩ := run_bind_eq_ok h
  obtain ⟨y, p₂, hy, h⟩ := run_bind_eq_ok h
  obtain ⟨z, p₃, hz, h⟩ := run_bind_eq_ok h
  obtain ⟨rfl, rfl⟩ := ok_inj h
  exact ⟨x, y, z, p₁, p₂, hx, hy, hz, rfl⟩

theorem value_call {c : Graph.Call}
    (h : (value u m (.call c)).run p = .ok (lines, p')) :
    c.result ≠ .void ∧ ∃ left, (call u m c).run p = .ok ((lines, left), p') := by
  rw [value] at h
  split at h
  case isTrue => nomatch h
  case isFalse hvoid =>
    obtain ⟨⟨called, left⟩, p₁, hcall, h⟩ := run_bind_eq_ok h
    obtain ⟨rfl, rfl⟩ := ok_inj h
    exact ⟨hvoid, left, hcall⟩

theorem value_getField {object field : Operand}
    (h : (value u m (.getField object field)).run p = .ok (lines, p')) :
    ∃ x f, (load m object).run p = .ok (x, p') ∧ lines = x ++ code [.getField f] := by
  rw [value] at h
  obtain ⟨x, p₁, hx, h⟩ := run_bind_eq_ok h
  obtain ⟨f, p₂, hf, h⟩ := run_bind_eq_ok h
  obtain rfl := fieldRef_pure hf
  obtain ⟨rfl, rfl⟩ := ok_inj h
  exact ⟨x, f, hx, rfl⟩

theorem assign_named {source : Graph.Instruction} {x : String} {t : ValueType}
    (h : (assign u m source (.named x t)).run p = .ok (lines, p')) :
    ∃ computed r p₁, (value u m source).run p = .ok (computed, p₁) ∧ m.register? x = some r ∧
      lines = computed ++ code [.store (.ofType t) r] ∧ p' = p₁.shrink 1 := by
  rw [assign] at h
  obtain ⟨computed, p₁, hvalue, h⟩ := run_bind_eq_ok h
  obtain ⟨r, p₂, hr, h⟩ := run_bind_eq_ok h
  obtain ⟨hregister, rfl⟩ := run_lift_eq_ok hr
  rw [run_bind_ok (run_shrink 1 p₁)] at h
  obtain ⟨rfl, rfl⟩ := ok_inj h
  exact ⟨computed, r, p₁, hvalue, register?_of_registerOf hregister, rfl, rfl⟩

theorem assign_element {source : Graph.Instruction} {array : String} {index : Operand}
    {t : ValueType}
    (h : (assign u m source (.element array index t)).run p = .ok (lines, p')) :
    ∃ r position computed p₁ p₂, (load m index).run (p.grow 1) = .ok (position, p₁) ∧
      (value u m source).run p₁ = .ok (computed, p₂) ∧
      lines = code [.load .reference r] ++ position ++ computed ++
        code [.elementStore (.ofType t)] ∧ p' = p₂.shrink 3 ∧ m.register? array = some r := by
  rw [assign] at h
  obtain ⟨r, p₁, hr, h⟩ := run_bind_eq_ok h
  obtain ⟨hregister, rfl⟩ := run_lift_eq_ok hr
  rw [run_bind_ok (run_grow 1 p)] at h
  obtain ⟨position, p₁, hposition, h⟩ := run_bind_eq_ok h
  obtain ⟨computed, p₂, hvalue, h⟩ := run_bind_eq_ok h
  rw [run_bind_ok (run_shrink 3 p₂)] at h
  obtain ⟨rfl, rfl⟩ := ok_inj h
  exact ⟨r, position, computed, p₁, p₂, hposition, hvalue, rfl, rfl,
    register?_of_registerOf hregister⟩

/-- A condition is a comparison that is branched on, or it is computed. -/
theorem branch_eq_ok {condition : Graph.Instruction} {target : String}
    (h : (branch u m target condition).run p = .ok (lines, p')) :
    (∃ op left right x y p₁ p₂, condition = .binary (.comparison op) left right ∧
      (load m left).run p = .ok (x, p₁) ∧ (load m right).run p₁ = .ok (y, p₂) ∧
      lines = x ++ y ++ code [.compareJump op target] ∧ p' = p₂.shrink 2) ∨
    (∃ computed p₁, (∀ op left right, condition ≠ .binary (.comparison op) left right) ∧
      (value u m condition).run p = .ok (computed, p₁) ∧
      lines = computed ++ code [.trueJump target] ∧ p' = p₁.shrink 1) := by
  rw [branch.eq_def] at h
  split at h
  case h_1 op left right =>
    obtain ⟨x, p₁, hx, h⟩ := run_bind_eq_ok h
    obtain ⟨y, p₂, hy, h⟩ := run_bind_eq_ok h
    rw [run_bind_ok (run_shrink 2 p₂)] at h
    obtain ⟨rfl, rfl⟩ := ok_inj h
    exact Or.inl ⟨op, left, right, x, y, p₁, p₂, rfl, hx, hy, rfl, rfl⟩
  case h_2 hne =>
    obtain ⟨computed, p₁, hvalue, h⟩ := run_bind_eq_ok h
    rw [run_bind_ok (run_shrink 1 p₁)] at h
    obtain ⟨rfl, rfl⟩ := ok_inj h
    exact Or.inr ⟨computed, p₁, hne, hvalue, rfl, rfl⟩

theorem run_drop (n : Nat) (p : Progress) :
    (drop n).run p = .ok (code (List.replicate n .pop), p.shrink n) := rfl

theorem instruction_call {c : Graph.Call}
    (h : (instruction u m (.call c)).run p = .ok (lines, p')) :
    ∃ called left p₁, (call u m c).run p = .ok ((called, left), p₁) ∧
      lines = called ++
        code (List.replicate (left + if isConstruction c then 1 else 0) .pop) ∧
      p' = p₁.shrink (left + if isConstruction c then 1 else 0) := by
  rw [instruction] at h
  obtain ⟨⟨called, left⟩, p₁, hcall, h⟩ := run_bind_eq_ok h
  rw [run_bind_ok (run_drop _ p₁)] at h
  obtain ⟨rfl, rfl⟩ := ok_inj h
  exact ⟨called, left, p₁, hcall, rfl, rfl⟩

theorem instruction_ret {t : ValueType} {x : Option Operand}
    (h : (instruction u m (.ret t x)).run p = .ok (lines, p')) :
    (lines = code [.returnVoid] ∧ p' = p ∧ (x = none ∨ t = .void)) ∨
    (∃ y loaded p₁, x = some y ∧ t ≠ .void ∧ (load m y).run p = .ok (loaded, p₁) ∧
      lines = loaded ++ code [.returnValue (.ofType t)] ∧ p' = p₁.shrink 1) := by
  rcases x with - | y
  · obtain ⟨rfl, rfl⟩ := ok_inj h
    exact Or.inl ⟨rfl, rfl, Or.inl rfl⟩
  · rw [instruction] at h
    split at h
    case isTrue hvoid =>
      obtain ⟨rfl, rfl⟩ := ok_inj h
      exact Or.inl ⟨rfl, rfl, Or.inr hvoid⟩
    case isFalse hvoid =>
      obtain ⟨loaded, p₁, hloaded, h⟩ := run_bind_eq_ok h
      rw [run_bind_ok (run_shrink 1 p₁)] at h
      obtain ⟨rfl, rfl⟩ := ok_inj h
      exact Or.inr ⟨y, loaded, p₁, rfl, hvoid, hloaded, rfl, rfl⟩

theorem instruction_putField {object field x : Operand}
    (h : (instruction u m (.putField object field x)).run p = .ok (lines, p')) :
    ∃ first second f p₁ p₂, (load m object).run p = .ok (first, p₁) ∧
      (load m x).run p₁ = .ok (second, p₂) ∧ lines = first ++ second ++ code [.putField f] ∧
      p' = p₂.shrink 2 := by
  rw [instruction] at h
  obtain ⟨first, p₁, hfirst, h⟩ := run_bind_eq_ok h
  obtain ⟨second, p₂, hsecond, h⟩ := run_bind_eq_ok h
  obtain ⟨f, p₃, hf, h⟩ := run_bind_eq_ok h
  obtain rfl := fieldRef_pure hf
  rw [run_bind_ok (run_shrink 2 p₂)] at h
  obtain ⟨rfl, rfl⟩ := ok_inj h
  exact ⟨first, second, f, p₁, p₂, hfirst, hsecond, rfl, rfl⟩

/-- The instruction stands for its value alone, which is dropped. -/
def IsDropped : Graph.Instruction → Prop
  | .single _ | .binary _ _ _ | .getField _ _ => True
  | _ => False

theorem instruction_dropped {i : Graph.Instruction} (hi : IsDropped i)
    (h : (instruction u m i).run p = .ok (lines, p')) :
    ∃ computed p₁, (value u m i).run p = .ok (computed, p₁) ∧
      lines = computed ++ code [.pop] ∧ p' = p₁.shrink 1 := by
  have hrun : (value u m i >>= fun lines => drop 1 >>= fun dropped =>
      pure (lines ++ dropped)).run p = .ok (lines, p') := by
    cases i with
    | single | binary | getField => exact h
    | assign | ret | call | putField | branch | jump => exact hi.elim
  obtain ⟨computed, p₁, hvalue, hrun⟩ := run_bind_eq_ok hrun
  rw [run_bind_ok (run_drop 1 p₁)] at hrun
  obtain ⟨rfl, rfl⟩ := ok_inj hrun
  exact ⟨computed, p₁, hvalue, rfl, rfl⟩

/-! ### Methods -/

theorem bodyFrom_cons {k : Nat} {i : Graph.Instruction} {rest : List Graph.Instruction}
    (h : (bodyFrom u m k (i :: rest)).run p = .ok (lines, p')) :
    ∃ first more p₁, (instruction u m i).run p = .ok (first, p₁) ∧
      (bodyFrom u m (k + 1) rest).run p₁ = .ok (more, p') ∧
      lines = labels m k ++ first ++ more := by
  rw [bodyFrom] at h
  obtain ⟨first, p₁, hfirst, h⟩ := run_bind_eq_ok h
  obtain ⟨more, p₂, hmore, h⟩ := run_bind_eq_ok h
  obtain ⟨rfl, rfl⟩ := ok_inj h
  exact ⟨first, more, p₁, hfirst, hmore, rfl⟩

theorem body_eq_ok {deepest : Nat} (h : body u m = .ok (lines, deepest)) :
    ∃ p, (bodyFrom u m 0 m.instructions).run ⟨.empty, 0⟩ = .ok (lines, p) ∧
      deepest = p.depth.deepest := by
  rw [body] at h
  split at h
  case h_1 e =>
    injection h with h
    injection h with hlines hdeepest
    subst hlines
    exact ⟨_, e, hdeepest.symm⟩
  case h_2 => nomatch h

theorem ofGraph_eq_ok {options : Options} {a : Method}
    (h : Method.ofGraph options u m = .ok a) :
    ∃ deepest, body u m = .ok (a.body, deepest) ∧
      (options.stackLimit = .computed → a.stackLimit = deepest) := by
  rw [Method.ofGraph] at h
  obtain ⟨⟨lines, deepest⟩, hbody, h⟩ := bind_eq_ok h
  injection h with h
  subst h
  exact ⟨deepest, hbody, fun hcomputed => by simp only [hcomputed]⟩

theorem ofGraph_of_member {options : Options} {a : Method}
    (h : Member.ofGraph options u m = .ok (.method a)) : Method.ofGraph options u m = .ok a := by
  rw [Member.ofGraph] at h
  split at h
  case isTrue => nomatch h
  case isFalse =>
    rcases e : Method.ofGraph options u m with fault | b
    · rw [e] at h
      nomatch h
    · rw [e] at h
      injection h with h
      injection h with h
      rw [h]

/-- A method that is not the constructor is emitted with its body. -/
theorem memberOfGraph_eq_ok {options : Options} {a : Method}
    (h : Member.ofGraph options u m = .ok (.method a)) :
    ∃ deepest, body u m = .ok (a.body, deepest) ∧
      (options.stackLimit = .computed → a.stackLimit = deepest) :=
  ofGraph_eq_ok (ofGraph_of_member h)

theorem localsLimit_eq {options : Options} {a : Method}
    (h : Member.ofGraph options u m = .ok (.method a)) : a.localsLimit = registersUsed m := by
  have hmethod := ofGraph_of_member h
  rw [Method.ofGraph] at hmethod
  obtain ⟨⟨lines, deepest⟩, -, hmethod⟩ := bind_eq_ok hmethod
  injection hmethod with hmethod
  rw [← hmethod]

end JavaMinus.Assembly
