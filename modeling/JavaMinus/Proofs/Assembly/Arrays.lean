/-
JavaMinus/Proofs/Assembly/Arrays.lean

The instructions on arrays, and what the arrays hold.

The machine has three kinds of arrays here, by what they hold: numbers, truth values or
references.  There are instructions of its own for each kind, and those that make an array,
store into it and load from it should all be of the kind that the descriptor of the array
names.

What a method does to arrays is read off its graph in the order of its emission, each time
with the type of the elements (`arrayUses`), and the instructions on arrays in the lines
are exactly these (`arrayOperations_of_body`).  Their kinds are chosen in different places,
though: an array is always made for numbers, whatever its elements are, while it is
accessed by the family of its elements, in which truth values are numbers.  So the kinds
are those of the descriptors just if the method makes arrays of numbers only and accesses
no array of truth values (`array_operations_follow`).
-/
import JavaMinus.Proofs.Assembly.Emission

namespace JavaMinus.Assembly

open JavaMinus.Graph (ClassUnit Operand Operator ValueType)

/-! ### Kinds of arrays -/

/-- What an array holds, as far as instructions are told apart by it. -/
inductive Component where
  | int
  | boolean
  | reference
  deriving DecidableEq, Repr

/-- What is done to an array. -/
inductive ArrayOperation where
  | create
  | load
  | store
  deriving DecidableEq, Repr

/-- What the arrays of a descriptor hold. -/
def Descriptor.component? : Descriptor → Option Component
  | .array .int => some .int
  | .array .boolean => some .boolean
  | .array (.array _) | .array (.object _) => some .reference
  | _ => none

/-- The arrays on whose elements values of a family are accessed. -/
def Component.ofFamily : Family → Component
  | .int => .int
  | .reference => .reference

/-- What an instruction does to an array, and of which kind the array has to be. -/
def Instruction.onArray? : Instruction → Option (ArrayOperation × Component)
  | .newIntArray => some (.create, .int)
  | .elementLoad family => some (.load, .ofFamily family)
  | .elementStore family => some (.store, .ofFamily family)
  | _ => none

/-- The name of the machine's instruction; arrays of references are made with the name of
a class behind it. -/
def mnemonic : ArrayOperation → Component → String
  | .create, .int => "newarray int"
  | .create, .boolean => "newarray boolean"
  | .create, .reference => "anewarray"
  | .load, .int => "iaload"
  | .load, .boolean => "baload"
  | .load, .reference => "aaload"
  | .store, .int => "iastore"
  | .store, .boolean => "bastore"
  | .store, .reference => "aastore"

theorem text_of_onArray? {i : Instruction} {o : ArrayOperation} {c : Component}
    (h : i.onArray? = some (o, c)) : i.text = mnemonic o c := by
  cases i with
  | newIntArray =>
    cases h
    rfl
  | elementLoad family | elementStore family =>
    cases h
    cases family <;> rfl
  | push | load | store | arithmetic | connective | compareJump | trueJump | jump | pop | dup
  | newObject | arrayLength | getField | putField | invoke | returnVoid | returnValue => nomatch h

/-! ### Lines -/

def Line.onArray? : Line → Option (ArrayOperation × Component)
  | label _ => none
  | instruction i => i.onArray?

/-- What lines do to arrays, from top to bottom. -/
def arrayOperations (ls : List Line) : List (ArrayOperation × Component) :=
  ls.filterMap Line.onArray?

@[simp] theorem arrayOperations_append (ls ls' : List Line) :
    arrayOperations (ls ++ ls') = arrayOperations ls ++ arrayOperations ls' :=
  List.filterMap_append

@[simp] theorem arrayOperations_code (is : List Instruction) :
    arrayOperations (code is) = is.filterMap Instruction.onArray? := by
  rw [arrayOperations, code, List.filterMap_map]
  rfl

/-- An instruction that does nothing to arrays may stand behind others. -/
theorem arrayOperations_behind {i : Instruction} (ls : List Line) (h : i.onArray? = none) :
    arrayOperations (ls ++ code [i]) = arrayOperations ls := by
  rw [arrayOperations_append, arrayOperations_code, List.filterMap_cons_none h]
  exact List.append_nil _

@[simp] theorem arrayOperations_labels (m : Graph.Method) (k : Nat) :
    arrayOperations (labels m k) = [] := by
  rw [arrayOperations, labels, List.filterMap_map, List.filterMap_eq_nil_iff]
  intro x _
  rfl

/-! ### The graph -/

/-- What is done to an array, and the type of its elements. -/
abbrev ArrayUse := ArrayOperation × ValueType

end JavaMinus.Assembly

namespace JavaMinus.Graph

open JavaMinus.Assembly (ArrayUse)

/-- The elements that are loaded for an operand.  The index is loaded first. -/
def Operand.arrayUses : Operand → List ArrayUse
  | literal _ _ | named _ _ => []
  | element _ index type => index.arrayUses ++ [(.load, type)]

/-- What a call does to arrays.  Of a new array only the size is loaded. -/
def Call.arrayUses (c : Call) : List ArrayUse :=
  match c.kind with
  | .new =>
    match c.caller.type with
    | .array element => c.arguments.head?.toList.flatMap Operand.arrayUses ++ [(.create, element)]
    | _ => []
  | .arrayLength => c.caller.arrayUses
  | .static => c.arguments.flatMap Operand.arrayUses
  | .special | .virtual => (c.caller :: c.arguments).flatMap Operand.arrayUses

/-- What is done to arrays when an instruction is computed for its value. -/
def Instruction.valueUses : Instruction → List ArrayUse
  | single x => x.arrayUses
  | binary _ left right => left.arrayUses ++ right.arrayUses
  | call c => c.arrayUses
  | getField object _ => object.arrayUses
  | _ => []

/-- What an instruction does to arrays.  The index of an element that is set is loaded in
front of the value. -/
def Instruction.arrayUses : Instruction → List ArrayUse
  | assign (.element _ index type) source =>
    index.arrayUses ++ source.valueUses ++ [(.store, type)]
  | assign _ source => source.valueUses
  | ret type (some x) => if type = .void then [] else x.arrayUses
  | putField object _ x => object.arrayUses ++ x.arrayUses
  | branch condition _ => condition.valueUses
  | i => i.valueUses

/-- What a method does to arrays. -/
def Method.arrayUses (m : Method) : List ArrayUse := m.instructions.flatMap Instruction.arrayUses

end JavaMinus.Graph

namespace JavaMinus.Assembly

open JavaMinus.Graph (ClassUnit Operand Operator ValueType)

/-! ### Emission -/

/-- The kind of array for which an instruction is written. -/
def written : ArrayOperation → ValueType → Component
  | .create, _ => .int
  | .load, element | .store, element => .ofFamily (.ofType element)

/-- The instructions on arrays that are written for what a graph does to them. -/
def writtenFor (uses : List ArrayUse) : List (ArrayOperation × Component) :=
  uses.map fun use => (use.1, written use.1 use.2)

@[simp] theorem writtenFor_append (uses uses' : List ArrayUse) :
    writtenFor (uses ++ uses') = writtenFor uses ++ writtenFor uses' := List.map_append

variable {u : ClassUnit} {m : Graph.Method} {p p' : Progress} {lines : List Line}

theorem arrayOperations_of_load {x : Operand} (h : (load m x).run p = .ok (lines, p')) :
    arrayOperations lines = writtenFor x.arrayUses := by
  induction x generalizing p p' lines with
  | literal v t =>
    obtain ⟨rfl, -⟩ := load_literal h
    rfl
  | named x t =>
    obtain ⟨family, r, rfl, -⟩ := load_named h
    rfl
  | element array index t ih =>
    obtain ⟨r, position, p₁, hposition, rfl, -⟩ := load_element h
    -- elements that the index reads come in front of the one that is read at it
    rw [arrayOperations_append, arrayOperations_append, ih hposition, Operand.arrayUses,
      writtenFor_append]
    rfl

theorem arrayOperations_of_loadAll {xs : List Operand}
    (h : (loadAll m xs).run p = .ok (lines, p')) :
    arrayOperations lines = writtenFor (xs.flatMap Operand.arrayUses) := by
  induction xs generalizing p lines with
  | nil =>
    obtain ⟨rfl, -⟩ := ok_inj h
    rfl
  | cons x rest ih =>
    obtain ⟨first, more, p₁, hfirst, hmore, rfl⟩ := loadAll_cons h
    rw [arrayOperations_append, arrayOperations_of_load hfirst, ih hmore, List.flatMap_cons,
      writtenFor_append]

theorem arrayOperations_of_operate {op : Operator}
    (h : (operate op).run p = .ok (lines, p')) : arrayOperations lines = [] := by
  cases op with
  | arithmetic op =>
    obtain ⟨rfl, -⟩ := operate_arithmetic h
    rfl
  | connective op =>
    obtain ⟨rfl, -⟩ := operate_connective h
    rfl
  | comparison op =>
    obtain ⟨rfl, -⟩ := operate_comparison h
    rfl

theorem arrayOperations_of_invoke {mode : CallMode} {c : Graph.Call} {left : Nat}
    (h : (invoke u m mode c).run p = .ok ((lines, left), p')) :
    arrayOperations lines = writtenFor ((operandsOf mode c).flatMap Operand.arrayUses) := by
  obtain ⟨method, operands, p₁, hoperands, rfl, -⟩ := invoke_eq_ok h
  rw [arrayOperations_behind _ rfl, arrayOperations_of_loadAll hoperands]

/-- What is done to arrays by an allocation is what its call says. -/
theorem arrayOperations_of_allocate {c : Graph.Call} {left : Nat} (hkind : c.kind = .new)
    (h : (allocate u m c).run p = .ok ((lines, left), p')) :
    arrayOperations lines = writtenFor c.arrayUses := by
  rcases allocate_eq_ok h with ⟨name, hcaller, rfl, -⟩ |
    ⟨element, size, loaded, hcaller, hloaded, rfl, -, hsize⟩
  · simp only [Graph.Call.arrayUses, hkind, hcaller]
    rfl
  · -- other arguments than the size are not loaded
    simp only [Graph.Call.arrayUses, hkind, hcaller, hsize, Option.toList_some,
      List.flatMap_singleton]
    rw [arrayOperations_append, arrayOperations_of_load hloaded, writtenFor_append]
    rfl

theorem arrayOperations_of_call {c : Graph.Call} {left : Nat}
    (h : (call u m c).run p = .ok ((lines, left), p')) :
    arrayOperations lines = writtenFor c.arrayUses := by
  rw [call] at h
  split at h
  case h_1 hkind => exact arrayOperations_of_allocate hkind h
  case h_2 hkind =>
    obtain ⟨loaded, p₁, hloaded, h⟩ := run_bind_eq_ok h
    obtain ⟨rfl, -, rfl⟩ := ok_inj' h
    rw [arrayOperations_behind _ rfl, arrayOperations_of_load hloaded, Graph.Call.arrayUses, hkind]
  case h_3 hkind | h_4 hkind | h_5 hkind =>
    rw [arrayOperations_of_invoke h, Graph.Call.arrayUses, hkind]
    rfl

theorem arrayOperations_of_value {i : Graph.Instruction}
    (h : (value u m i).run p = .ok (lines, p')) :
    arrayOperations lines = writtenFor i.valueUses := by
  cases i with
  | single x => exact arrayOperations_of_load h
  | binary op left right =>
    obtain ⟨x, y, z, p₁, p₂, hx, hy, hz, rfl⟩ := value_binary h
    rw [arrayOperations_append, arrayOperations_append, arrayOperations_of_load hx,
      arrayOperations_of_load hy, arrayOperations_of_operate hz, List.append_nil,
      Graph.Instruction.valueUses, writtenFor_append]
  | call c =>
    obtain ⟨-, left, hcall⟩ := value_call h
    exact arrayOperations_of_call hcall
  | getField object field =>
    obtain ⟨x, f, hx, rfl⟩ := value_getField h
    rw [arrayOperations_behind _ rfl, arrayOperations_of_load hx]
    rfl
  | assign | ret | putField | branch | jump => nomatch h

theorem arrayOperations_of_assign {source : Graph.Instruction} {target : Operand}
    (h : (assign u m source target).run p = .ok (lines, p')) :
    arrayOperations lines = writtenFor (Graph.Instruction.assign target source).arrayUses := by
  cases target with
  | literal => nomatch h
  | named x t =>
    obtain ⟨computed, r, p₁, hvalue, -, rfl, -⟩ := assign_named h
    rw [arrayOperations_behind _ rfl, arrayOperations_of_value hvalue]
    rfl
  | element array index t =>
    obtain ⟨r, position, computed, p₁, p₂, hposition, hvalue, rfl, -⟩ := assign_element h
    rw [arrayOperations_append, arrayOperations_append, arrayOperations_append,
      arrayOperations_of_load hposition, arrayOperations_of_value hvalue,
      Graph.Instruction.arrayUses, writtenFor_append, writtenFor_append]
    rfl

theorem arrayOperations_of_branch {condition : Graph.Instruction} {target : String}
    (h : (branch u m target condition).run p = .ok (lines, p')) :
    arrayOperations lines = writtenFor condition.valueUses := by
  rcases branch_eq_ok h with ⟨op, left, right, x, y, p₁, p₂, rfl, hx, hy, rfl, -⟩ |
    ⟨computed, p₁, -, hvalue, rfl, -⟩
  · rw [arrayOperations_behind _ rfl, arrayOperations_append, arrayOperations_of_load hx,
      arrayOperations_of_load hy, Graph.Instruction.valueUses, writtenFor_append]
  · rw [arrayOperations_behind _ rfl, arrayOperations_of_value hvalue]

theorem arrayOperations_of_ret {t : ValueType} {x : Option Operand}
    (h : (instruction u m (.ret t x)).run p = .ok (lines, p')) :
    arrayOperations lines = writtenFor (Graph.Instruction.ret t x).arrayUses := by
  rcases instruction_ret h with ⟨rfl, -, rfl | rfl⟩ | ⟨y, loaded, p₁, rfl, ht, hloaded, rfl, -⟩
  · rfl
  · cases x <;> rfl
  · rw [arrayOperations_behind _ rfl, arrayOperations_of_load hloaded,
      Graph.Instruction.arrayUses, if_neg ht]

/-- An instruction is emitted with just its operations on arrays. -/
theorem arrayOperations_of_instruction {i : Graph.Instruction}
    (h : (instruction u m i).run p = .ok (lines, p')) :
    arrayOperations lines = writtenFor i.arrayUses := by
  have hdropped (hi : IsDropped i) : arrayOperations lines = writtenFor i.valueUses := by
    obtain ⟨computed, p₁, hvalue, rfl, -⟩ := instruction_dropped hi h
    rw [arrayOperations_behind _ rfl, arrayOperations_of_value hvalue]
  cases i with
  | assign target source => exact arrayOperations_of_assign h
  | single | binary | getField => exact hdropped trivial
  | ret t x => exact arrayOperations_of_ret h
  | call c =>
    obtain ⟨called, left, p₁, hcall, rfl, -⟩ := instruction_call h
    -- what is left of the call is popped, whatever it is
    have hpops (n : Nat) : (List.replicate n Instruction.pop).filterMap Instruction.onArray? = [] :=
      List.filterMap_replicate_of_none rfl
    rw [arrayOperations_append, arrayOperations_of_call hcall, arrayOperations_code, hpops]
    exact List.append_nil _
  | putField object field x =>
    obtain ⟨first, second, f, p₁, p₂, hfirst, hsecond, rfl, -⟩ := instruction_putField h
    rw [arrayOperations_behind _ rfl, arrayOperations_append, arrayOperations_of_load hfirst,
      arrayOperations_of_load hsecond, Graph.Instruction.arrayUses, writtenFor_append]
  | branch condition target => exact arrayOperations_of_branch h
  | jump target =>
    obtain ⟨rfl, -⟩ := ok_inj h
    rfl

theorem arrayOperations_of_bodyFrom {k : Nat} {is : List Graph.Instruction}
    (h : (bodyFrom u m k is).run p = .ok (lines, p')) :
    arrayOperations lines = writtenFor (is.flatMap Graph.Instruction.arrayUses) := by
  induction is generalizing k p lines with
  | nil =>
    obtain ⟨rfl, -⟩ := ok_inj h
    exact arrayOperations_labels m k
  | cons i rest ih =>
    obtain ⟨first, more, p₁, hfirst, hmore, rfl⟩ := bodyFrom_cons h
    rw [arrayOperations_append, arrayOperations_append, arrayOperations_labels, List.nil_append,
      arrayOperations_of_instruction hfirst, ih hmore, List.flatMap_cons, writtenFor_append]

/-- The operations on arrays in a body are those of the method, in the same order. -/
theorem arrayOperations_of_body {deepest : Nat} (h : body u m = .ok (lines, deepest)) :
    arrayOperations lines = writtenFor m.arrayUses := by
  obtain ⟨p, hrun, -⟩ := body_eq_ok h
  exact arrayOperations_of_bodyFrom hrun

/-! ### Kinds and descriptors -/

/-- An operation is written for the kind of array that the descriptor names. -/
def Follows (u : ClassUnit) (use : ArrayUse) (operation : ArrayOperation × Component) : Prop :=
  operation.1 = use.1 ∧ (u.descriptor (.array use.2)).component? = some operation.2

/-- Making an array goes with arrays of numbers, and an access with all arrays but those of
truth values (there are no arrays of nothing). -/
def Suits : ArrayUse → Prop
  | (.create, element) => element = .int
  | (.load, element) | (.store, element) => element ≠ .boolean ∧ element ≠ .void

theorem follows_written_iff {use : ArrayUse} :
    Follows u use (use.1, written use.1 use.2) ↔ Suits use := by
  obtain ⟨o, t⟩ := use
  cases o <;> cases t <;>
    simp [Follows, Suits, written, ClassUnit.descriptor, Descriptor.component?,
      Component.ofFamily, Family.ofType, ValueType.isIntLike]

theorem forall₂_follows_iff {uses : List ArrayUse} :
    List.Forall₂ (Follows u) uses (writtenFor uses) ↔ ∀ use ∈ uses, Suits use := by
  rw [writtenFor, List.forall₂_map_right_iff, List.forall₂_same]
  exact forall₂_congr fun _ _ => follows_written_iff

/-- Two operations on arrays of one type are written for one kind, unless only one of them
makes the array and the elements are no numbers to the machine. -/
theorem written_eq_written_iff {o o' : ArrayOperation} {t : ValueType} :
    written o t = written o' t ↔ ((o = .create ↔ o' = .create) ∨ t.isIntLike) := by
  cases o <;> cases o' <;> cases t <;>
    simp [written, Component.ofFamily, Family.ofType, ValueType.isIntLike]

/-- **Arrays of a method.**  The instructions on arrays are those that the graph asks for,
in its order.  They are all of the kinds that the descriptors of the arrays name just if
arrays are made of numbers only and none of truth values is accessed.  Under one type the
instruction that makes arrays is of another kind than those that access them, unless the
elements are numbers to the machine. -/
theorem array_operations_follow {options : Options} {a : Method}
    (h : Member.ofGraph options u m = .ok (.method a)) :
    arrayOperations a.body = writtenFor m.arrayUses ∧
      (List.Forall₂ (Follows u) m.arrayUses (arrayOperations a.body) ↔
        ∀ use ∈ m.arrayUses, Suits use) ∧
      ∀ o o' t, written o t = written o' t ↔ ((o = .create ↔ o' = .create) ∨ t.isIntLike) := by
  obtain ⟨deepest, hbody, -⟩ := memberOfGraph_eq_ok h
  have hoperations := arrayOperations_of_body hbody
  refine ⟨hoperations, ?_, fun _ _ _ => written_eq_written_iff⟩
  rw [hoperations]
  exact forall₂_follows_iff

/-! ### An array that is made, set and read

    fill(x) { a = new t[1]; a[0] = x; return a[0]; }
-/

/-- A method that puts its parameter into a new array and takes it out again. -/
def filling (t : ValueType) : Graph.Method :=
  { Graph.Method.new "fill" t with
    parameters := [.named "x" t]
    instructions :=
      [.assign (.named "a" (.array t))
        (.call ⟨.new, .named "array" (.array t), none, [.ofInt 1], .array t⟩),
       .assign (.element "a" (.ofInt 0) t) (.single (.named "x" t)),
       .ret t (some (.element "a" (.ofInt 0) t))]
    registers := .ofList [("x", ⟨1, t⟩), ("a", ⟨2, .array t⟩)] }

theorem array_operations_follow_filling :
    ∃ a, Member.ofGraph .standard (.new "Fill") (filling .int) = .ok (.method a) ∧
      arrayOperations a.body = [(.create, .int), (.store, .int), (.load, .int)] ∧
      List.Forall₂ (Follows (.new "Fill")) (filling .int).arrayUses (arrayOperations a.body) := by
  obtain ⟨a, ha⟩ : ∃ a, Member.ofGraph .standard (.new "Fill") (filling .int) =
      .ok (.method a) := ⟨_, rfl⟩
  obtain ⟨hoperations, hfollows, -⟩ := array_operations_follow ha
  refine ⟨a, ha, hoperations, hfollows.mpr ?_⟩
  rintro use (_ | ⟨_, _ | ⟨_, _ | ⟨_, ⟨⟩⟩⟩⟩)
  · exact rfl
  · exact ⟨nofun, nofun⟩
  · exact ⟨nofun, nofun⟩

-- strings are put into an array of numbers
example : writtenFor (filling .string).arrayUses =
    [(.create, .int), (.store, .reference), (.load, .reference)] := rfl

/-- Not every instruction on arrays is of the kind that the descriptor names: the array
that the strings are put into is not. -/
theorem filling_strings_not_follows :
    ¬ ∀ (options : Options) (u : ClassUnit) (m : Graph.Method) (a : Method),
      Member.ofGraph options u m = .ok (.method a) →
      List.Forall₂ (Follows u) m.arrayUses (arrayOperations a.body) := by
  intro h
  obtain ⟨a, ha⟩ : ∃ a, Member.ofGraph .standard (.new "Fill") (filling .string) =
      .ok (.method a) := ⟨_, rfl⟩
  have hfollows := h _ _ _ a ha
  obtain ⟨deepest, hbody, -⟩ := memberOfGraph_eq_ok ha
  rw [arrayOperations_of_body hbody] at hfollows
  nomatch forall₂_follows_iff.mp hfollows (.create, .string) (List.mem_cons_self ..)

end JavaMinus.Assembly
