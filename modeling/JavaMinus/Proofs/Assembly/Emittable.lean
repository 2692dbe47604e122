/-
JavaMinus/Proofs/Assembly/Emittable.lean

Which instructions can be emitted.

Emission keeps counts while it goes on, and it may end in a fault.  Whether it does
has nothing to do with the counts, nor with what was emitted before: it is told from
the instruction and from the registers of the method alone (`Emittable`).  So for each
function of emission it is said when it comes to a result, from whatever counts
(`Succeeds`), and a class is emitted just if this holds of all the instructions in it
(`exists_ofGraph_iff`).
-/
import JavaMinus.Assembly.ClassFile
import JavaMinus.Proofs.Computation

namespace JavaMinus

open JavaMinus.Graph (ClassUnit Operand Operator ValueType)

/-! ### What can be emitted -/

namespace Graph

/-- The type is that of the object that a method works on. -/
def ValueType.isSelf : ValueType → Bool
  | .self _ => true
  | _ => false

/-- Methods are called on objects, on the object that a method works on, and on
classes. -/
def ValueType.hasMethods : ValueType → Bool
  | .object _ | .classRef _ | .self _ => true
  | _ => false

namespace Method

variable (m : Method)

def HasRegister (x : String) : Prop := ∃ r, m.register? x = some r

/-- Operands that can be pushed. -/
def Loadable : Operand → Prop
  | .literal _ _ => True
  | .named x type =>
    type.isSelf ∨ x = "this" ∨ (type.isIntLike ∨ type.isReference) ∧ m.HasRegister x
  | .element array index _ => m.HasRegister array ∧ Loadable index

/-- Calls that can be emitted.  A static call does not push its caller. -/
def CallEmittable (c : Call) : Prop :=
  match c.kind with
  | .new =>
    match c.caller.type with
    | .object _ => True
    | .array _ => ∃ size, c.arguments.head? = some size ∧ m.Loadable size
    | _ => False
  | .arrayLength => m.Loadable c.caller
  | .static | .special | .virtual =>
    (∃ name, c.method = some name) ∧ c.caller.type.hasMethods ∧
      (c.kind ≠ .static → m.Loadable c.caller) ∧ ∀ x ∈ c.arguments, m.Loadable x

/-- Instructions that leave a value. -/
def ValueEmittable : Instruction → Prop
  | .single x => m.Loadable x
  | .binary _ left right => m.Loadable left ∧ m.Loadable right
  | .getField object field => m.Loadable object ∧ ∃ name, field.name? = some name
  | .call c => c.result ≠ .void ∧ m.CallEmittable c
  | _ => False

/-- Instructions that can be emitted. -/
def Emittable : Instruction → Prop
  | .assign (.named x _) source => m.ValueEmittable source ∧ m.HasRegister x
  | .assign (.element array index _) source =>
    m.HasRegister array ∧ m.Loadable index ∧ m.ValueEmittable source
  | .assign (.literal _ _) _ => False
  | .call c => m.CallEmittable c
  | .ret type value => ∀ x, value = some x → type = .void ∨ m.Loadable x
  | .putField object field x =>
    m.Loadable object ∧ m.Loadable x ∧ ∃ name, field.name? = some name
  | .branch condition _ => m.ValueEmittable condition
  | .jump _ => True
  | i => m.ValueEmittable i

end Method

end Graph

namespace Assembly

/-! ### When emission comes to a result -/

/-- From whatever counts, emission comes to a result just if a condition holds. -/
def Succeeds {α : Type} (x : Emission α) (P : Prop) : Prop :=
  ∀ p, (∃ result, x.run p = .ok result) ↔ P

namespace Succeeds

variable {α β : Type} {x : Emission α} {f : α → Emission β} {P Q : Prop}

theorem congr (h : Succeeds x P) (hPQ : P ↔ Q) : Succeeds x Q := fun p => (h p).trans hPQ

/-- A sequence comes to a result if both parts do, where the second one does so
whatever the first one came to. -/
protected theorem bind (hx : Succeeds x P) (hf : ∀ a, Succeeds (f a) Q) :
    Succeeds (x >>= f) (P ∧ Q) := by
  intro p
  constructor
  · rintro ⟨⟨b, p'⟩, h⟩
    obtain ⟨a, p₁, hrun, h⟩ := run_bind_eq_ok h
    exact ⟨(hx p).mp ⟨_, hrun⟩, (hf a p₁).mp ⟨_, h⟩⟩
  · rintro ⟨hP, hQ⟩
    obtain ⟨⟨a, p₁⟩, hrun⟩ := (hx p).mpr hP
    obtain ⟨result, h⟩ := (hf a p₁).mpr hQ
    exact ⟨result, by rw [run_bind_ok hrun, h]⟩

/-- Nothing that follows can fail. -/
theorem before (hx : Succeeds x P) (hf : ∀ a, Succeeds (f a) True) : Succeeds (x >>= f) P :=
  (hx.bind hf).congr (iff_of_eq (and_true P))

/-- Nothing in front can fail. -/
theorem behind (hx : Succeeds x True) (hf : ∀ a, Succeeds (f a) Q) : Succeeds (x >>= f) Q :=
  (hx.bind hf).congr (iff_of_eq (true_and Q))

end Succeeds

section Steps

variable {α : Type}

theorem succeeds_pure (a : α) : Succeeds (pure a) True := fun _ => iff_of_true ⟨_, rfl⟩ trivial

theorem succeeds_throw (fault : Fault) : Succeeds (throw fault : Emission α) False :=
  fun _ => iff_of_false nofun id

theorem succeeds_lift (x : Except Fault α) :
    Succeeds (liftM x : Emission α) (∃ a, x = .ok a) := by
  intro p
  constructor
  · rintro ⟨⟨a, p'⟩, h⟩
    exact ⟨a, (run_lift_eq_ok h).1⟩
  · rintro ⟨a, h⟩
    exact ⟨_, run_lift_ok p h⟩

theorem succeeds_grow (n : Nat) : Succeeds (grow n) True := fun _ => iff_of_true ⟨_, rfl⟩ trivial

theorem succeeds_shrink (n : Nat) : Succeeds (shrink n) True :=
  fun _ => iff_of_true ⟨_, rfl⟩ trivial

theorem succeeds_freshComparison : Succeeds freshComparison True :=
  fun _ => iff_of_true ⟨_, rfl⟩ trivial

/-- Values are taken, and what was emitted is handed out. -/
theorem succeeds_shrink_pure (n : Nat) (a : α) :
    Succeeds (shrink n >>= fun _ => pure a) True :=
  (succeeds_shrink n).behind fun _ => succeeds_pure a

end Steps

variable (u : ClassUnit) (m : Graph.Method)

/-! ### Operands -/

theorem succeeds_registerOf (x : String) :
    Succeeds (liftM (registerOf m x) : Emission UInt16) (m.HasRegister x) := by
  refine (succeeds_lift _).congr ?_
  rw [registerOf, Graph.Method.HasRegister]
  rcases m.register? x with - | r
  · exact iff_of_false nofun nofun
  · exact iff_of_true ⟨r, rfl⟩ ⟨r, rfl⟩

/-- The object that a method works on is in register zero. -/
theorem succeeds_load_self {x : String} {type : ValueType} (h : type.isSelf ∨ x = "this") :
    Succeeds (load m (.named x type)) True := by
  refine fun p => iff_of_true
    ⟨(code [.load .reference 0], { p with depth := p.depth.grow 1 }), ?_⟩ trivial
  rcases h with h | rfl
  · cases type
    case self => rfl
    all_goals nomatch h
  · cases type <;> rfl

/-- Any other variable needs a type that can be pushed, and a register. -/
theorem succeeds_load_named {x : String} {type : ValueType} (htype : ¬ type.isSelf)
    (hx : x ≠ "this") :
    Succeeds (load m (.named x type))
      ((type.isIntLike ∨ type.isReference) ∧ m.HasRegister x) := by
  rw [load]
  swap
  · rintro c rfl
    exact htype rfl
  rw [beq_false_of_ne hx, if_neg (by decide)]
  split
  · next hpushed =>
    refine ((succeeds_registerOf m x).before fun _ => (succeeds_pure _).behind fun _ =>
      (succeeds_grow 1).behind fun _ => succeeds_pure _).congr ?_
    rw [and_iff_right (by simpa using hpushed)]
  · next hother =>
    refine ((succeeds_throw _).before fun _ => (succeeds_grow 1).behind fun _ =>
      succeeds_pure _).congr (iff_of_false id fun h => hother ?_)
    simpa using h.1

theorem succeeds_load (x : Operand) : Succeeds (load m x) (m.Loadable x) := by
  induction x with
  | literal value type => exact (succeeds_grow 1).behind fun _ => succeeds_pure _
  | named x type =>
    rw [Graph.Method.Loadable, ← or_assoc]
    by_cases hself : type.isSelf ∨ x = "this"
    · exact (succeeds_load_self m hself).congr (iff_of_true trivial (.inl hself))
    · obtain ⟨htype, hx⟩ := not_or.mp hself
      rw [or_iff_right hself]
      exact succeeds_load_named m htype hx
  | element array index type ih =>
    rw [load]
    exact (succeeds_registerOf m array).bind fun _ => (succeeds_grow 1).behind fun _ =>
      ih.before fun _ => succeeds_shrink_pure 1 _

theorem succeeds_loadAll (xs : List Operand) :
    Succeeds (loadAll m xs) (∀ x ∈ xs, m.Loadable x) := by
  induction xs with
  | nil => exact (succeeds_pure _).congr (iff_of_true trivial (List.forall_mem_nil _))
  | cons x rest ih =>
    rw [loadAll]
    refine ((succeeds_load m x).bind fun _ => ih.before fun _ => succeeds_pure _).congr ?_
    exact List.forall_mem_cons.symm

theorem succeeds_operate (op : Operator) : Succeeds (operate op) True := by
  cases op with
  | arithmetic op => exact succeeds_shrink_pure 1 _
  | connective op => exact succeeds_shrink_pure 1 _
  | comparison op =>
    exact succeeds_freshComparison.behind fun _ => succeeds_shrink_pure 1 _

theorem succeeds_fieldRef (field : Operand) :
    Succeeds (liftM (fieldRef u m field) : Emission FieldRef)
      (∃ name, field.name? = some name) := by
  refine (succeeds_lift _).congr ?_
  rw [fieldRef]
  rcases field.name? with - | name
  · exact iff_of_false nofun nofun
  · exact iff_of_true ⟨_, rfl⟩ ⟨name, rfl⟩

/-! ### Calls -/

theorem succeeds_ownerOf (caller : Operand) :
    Succeeds (liftM (ownerOf u m caller) : Emission String) caller.type.hasMethods := by
  refine (succeeds_lift _).congr ?_
  rw [ownerOf]
  rcases caller.type <;> simp [ValueType.hasMethods]

theorem succeeds_invoke (mode : CallMode) (c : Graph.Call) :
    Succeeds (invoke u m mode c) ((∃ name, c.method = some name) ∧ c.caller.type.hasMethods ∧
      (mode ≠ .static → m.Loadable c.caller) ∧ ∀ x ∈ c.arguments, m.Loadable x) := by
  have hpushed : (∀ x ∈ (if mode = .static then [] else [c.caller]), m.Loadable x) ↔
      (mode ≠ .static → m.Loadable c.caller) := by
    split
    · next hstatic => exact iff_of_true (List.forall_mem_nil _) fun h => absurd hstatic h
    · next hother => rw [List.forall_mem_singleton, imp_iff_right hother]
  rw [invoke]
  rcases c.method with - | name
  · exact fun _ => iff_of_false nofun nofun
  · refine Succeeds.congr ((succeeds_pure name).behind fun _ =>
      (succeeds_ownerOf u m c.caller).bind fun _ => ?_) (and_iff_right ⟨name, rfl⟩).symm
    refine ((succeeds_loadAll m _).before fun _ => (succeeds_shrink _).behind fun _ => ?_).congr
      (List.forall_mem_append.trans (and_congr_left' hpushed))
    split
    · exact succeeds_pure _
    · exact (succeeds_grow 1).behind fun _ => succeeds_pure _

theorem succeeds_allocate (c : Graph.Call) :
    Succeeds (allocate u m c) (match c.caller.type with
      | .object _ => True
      | .array _ => ∃ size, c.arguments.head? = some size ∧ m.Loadable size
      | _ => False) := by
  rw [allocate]
  rcases c.caller.type
  case object className => exact (succeeds_grow 2).behind fun _ => succeeds_pure _
  case array element =>
    rcases c.arguments with - | ⟨size, rest⟩
    · exact (succeeds_throw _).congr (iff_of_false id nofun)
    · refine ((succeeds_load m size).before fun _ => succeeds_pure _).congr ?_
      simp only [List.head?_cons, Option.some.injEq, exists_eq_left']
  all_goals exact succeeds_throw _

theorem succeeds_call (c : Graph.Call) : Succeeds (call u m c) (m.CallEmittable c) := by
  rw [call, Graph.Method.CallEmittable]
  rcases e : c.kind
  case new => exact succeeds_allocate u m c
  case arrayLength => exact (succeeds_load m c.caller).before fun _ => succeeds_pure _
  case static => exact (succeeds_invoke u m .static c).congr (by simp)
  case special => exact (succeeds_invoke u m .special c).congr (by simp)
  case virtual => exact (succeeds_invoke u m .virtual c).congr (by simp)

/-! ### Instructions -/

theorem succeeds_value (i : Graph.Instruction) : Succeeds (value u m i) (m.ValueEmittable i) := by
  cases i with
  | single x => exact succeeds_load m x
  | binary op left right =>
    exact (succeeds_load m left).bind fun _ => (succeeds_load m right).before fun _ =>
      (succeeds_operate op).behind fun _ => succeeds_pure _
  | getField object field =>
    exact (succeeds_load m object).bind fun _ => (succeeds_fieldRef u m field).before fun _ =>
      succeeds_pure _
  | call c =>
    rw [value, Graph.Method.ValueEmittable]
    split
    · next hvoid => exact (succeeds_throw _).congr (iff_of_false id fun h => h.1 hvoid)
    · next hvoid =>
      refine ((succeeds_call u m c).before fun _ => succeeds_pure _).congr ?_
      rw [and_iff_right hvoid]
  | assign | ret | putField | branch | jump => exact succeeds_throw _

theorem succeeds_assign (target : Operand) (source : Graph.Instruction) :
    Succeeds (assign u m source target) (m.Emittable (.assign target source)) := by
  cases target with
  | literal value type => exact succeeds_throw _
  | named x type =>
    exact (succeeds_value u m source).bind fun _ => (succeeds_registerOf m x).before fun _ =>
      succeeds_shrink_pure 1 _
  | element array index type =>
    exact (succeeds_registerOf m array).bind fun _ => (succeeds_grow 1).behind fun _ =>
      (succeeds_load m index).bind fun _ => (succeeds_value u m source).before fun _ =>
        succeeds_shrink_pure 3 _

theorem succeeds_branch (target : String) (condition : Graph.Instruction) :
    Succeeds (branch u m target condition) (m.ValueEmittable condition) := by
  rw [branch.eq_def]
  -- a comparison that is branched on pushes just what its value would
  split
  · next op left right =>
    exact (succeeds_load m left).bind fun _ => (succeeds_load m right).before fun _ =>
      succeeds_shrink_pure 2 _
  · exact (succeeds_value u m condition).before fun _ => succeeds_shrink_pure 1 _

theorem succeeds_drop (n : Nat) : Succeeds (drop n) True := succeeds_shrink_pure n _

theorem succeeds_instruction (i : Graph.Instruction) :
    Succeeds (instruction u m i) (m.Emittable i) := by
  cases i with
  | assign target source => exact succeeds_assign u m target source
  | call c =>
    exact (succeeds_call u m c).before fun _ => (succeeds_drop _).behind fun _ =>
      succeeds_pure _
  | ret type value =>
    -- a return of nothing never fails, and one of a value only at its operand
    rcases value with - | x
    · exact (succeeds_pure _).congr (iff_of_true trivial nofun)
    · rw [instruction, Graph.Method.Emittable]
      simp only [Option.some.injEq, forall_eq']
      split
      · next hvoid => exact (succeeds_pure _).congr (iff_of_true trivial (.inl hvoid))
      · next hvoid =>
        rw [or_iff_right hvoid]
        exact (succeeds_load m x).before fun _ => succeeds_shrink_pure 1 _
  | putField object field x =>
    exact (succeeds_load m object).bind fun _ => (succeeds_load m x).bind fun _ =>
      (succeeds_fieldRef u m field).before fun _ => succeeds_shrink_pure 2 _
  | branch condition target => exact succeeds_branch u m target condition
  | jump target => exact succeeds_pure _
  | single | binary | getField =>
    exact (succeeds_value u m _).before fun _ => (succeeds_drop 1).behind fun _ =>
      succeeds_pure _

/-! ### Methods and classes -/

theorem succeeds_bodyFrom (index : Nat) (is : List Graph.Instruction) :
    Succeeds (bodyFrom u m index is) (∀ i ∈ is, m.Emittable i) := by
  induction is generalizing index with
  | nil => exact (succeeds_pure _).congr (iff_of_true trivial (List.forall_mem_nil _))
  | cons i rest ih =>
    rw [bodyFrom]
    refine ((succeeds_instruction u m i).bind fun _ => (ih (index + 1)).before fun _ =>
      succeeds_pure _).congr ?_
    exact List.forall_mem_cons.symm

theorem exists_body_iff :
    (∃ result, body u m = .ok result) ↔ ∀ i ∈ m.instructions, m.Emittable i := by
  rw [← succeeds_bodyFrom u m 0 m.instructions ⟨.empty, 0⟩, body]
  rcases (bodyFrom u m 0 m.instructions).run ⟨.empty, 0⟩ with fault | ⟨lines, progress⟩
  · exact iff_of_false nofun nofun
  · exact iff_of_true ⟨_, rfl⟩ ⟨_, rfl⟩

variable (options : Options)

theorem exists_methodOfGraph_iff :
    (∃ method, Method.ofGraph options u m = .ok method) ↔ ∀ i ∈ m.instructions, m.Emittable i :=
  (exists_bind_ok_iff fun _ => ⟨_, rfl⟩).trans (exists_body_iff u m)

/-- The constructor is not emitted from its instructions. -/
theorem exists_memberOfGraph_iff :
    (∃ member, Member.ofGraph options u m = .ok member) ↔
      (m.isConstructor = false → ∀ i ∈ m.instructions, m.Emittable i) := by
  rw [Member.ofGraph]
  split
  · next hconstructor =>
    rw [hconstructor]
    exact iff_of_true ⟨_, rfl⟩ nofun
  · next hmethod =>
    rw [imp_iff_right (eq_false_of_ne_true hmethod), ← exists_methodOfGraph_iff u m options]
    rcases Method.ofGraph options u m with fault | method
    · exact iff_of_false nofun nofun
    · exact iff_of_true ⟨_, rfl⟩ ⟨_, rfl⟩

/-- **Emission.**  Whatever the options, a class is emitted just if every instruction
of every method but the constructor can be emitted. -/
theorem exists_ofGraph_iff :
    (∃ c, ClassFile.ofGraph options u = .ok c) ↔
      ∀ m ∈ u.methods, m.isConstructor = false → ∀ i ∈ m.instructions, m.Emittable i := by
  have hmembers : (∃ members, u.methods.mapM (Member.ofGraph options u) = .ok members) ↔
      ∀ m ∈ u.methods, m.isConstructor = false → ∀ i ∈ m.instructions, m.Emittable i :=
    exists_mapM_ok_iff.trans (forall₂_congr fun m _ => exists_memberOfGraph_iff u m options)
  exact (exists_bind_ok_iff fun _ => ⟨_, rfl⟩).trans hmembers

end Assembly

end JavaMinus
