/-
JavaMinus/Proofs/Assembly/Locals.lean

The registers that a method uses, and the number of them that its head names.

A method whose flags are given before its variables numbers them without a gap, from zero
if it is static and from one otherwise (`Numbered.numbers_perm`): it is `Numbered` either
with no early variables or with early variables only.  The head of its assembly counts the
variables, and one more for the object.

The body is emitted from the registers of the method, so it loads and stores no others,
save for the object, which is always loaded from register zero (`KeepsTo`).  Together the
number in the head is above every register in the body (`locals_limit_covers_registers`).
Only a static method without variables that loads an object in spite of that names a
number that is too small.
-/
import JavaMinus.Proofs.Assembly.Emission
import JavaMinus.Proofs.Graph.Registers
import JavaMinus.Assembly.Text

namespace JavaMinus

/-! ### Numbers without a gap -/

namespace Graph.Method

variable {m : Method} {edits : List Edit} {names : List String} {early : Nat}

/-- The number of the first variable; the object comes before the variables. -/
def firstRegister (m : Method) : Nat := if m.isStatic then 0 else 1

theorem edited_isStatic (m : Method) (edits : List Edit) :
    (m.edited edits).isStatic = (m.isStatic || edits.any Edit.setsStatic) := by
  induction edits generalizing m with
  | nil => exact (Bool.or_false _).symm
  | cons e rest ih =>
    show ((m.edit e).edited rest).isStatic = _
    rw [ih, edit_isStatic, List.any_cons, Bool.or_assoc]

theorem edited_registers (m : Method) (h : ∀ e ∈ edits, e.declared? = none) :
    (m.edited edits).registers = m.registers := by
  induction edits generalizing m with
  | nil => rfl
  | cons e rest ih =>
    obtain ⟨he, hrest⟩ := List.forall_mem_cons.mp h
    show ((m.edit e).edited rest).registers = _
    rw [ih _ hrest, edit_registers, he]

/-- The variables are numbered one after the other, from the first register on. -/
structure Consecutive (m : Method) (names : List String) : Prop where
  nodup : names.Nodup
  mem_iff : ∀ x, x ∈ names ↔ m.registers.has x = true
  register : ∀ place x, names[place]? = some x →
    ∃ r, m.register? x = some r ∧ r.toNat = m.firstRegister + place

/-- In one group of variables there is no gap. -/
theorem Numbered.consecutive (h : m.Numbered names early) (hsize : m.registers.size < 65535)
    (hstatic : m.isStatic = true → early = 0) : m.Consecutive names where
  nodup := h.nodup
  mem_iff _ := h.mem_iff
  register place x hplace := by
    have hlt : place < names.length := (List.getElem?_eq_some_iff.mp hplace).1
    refine ⟨registerAt early place, h.register?_eq_some_iff.mpr ⟨place, hplace, rfl⟩, ?_⟩
    rw [toNat_registerAt (by rw [h.size] at hsize; omega), firstRegister]
    cases hm : m.isStatic with
    | true => rw [hstatic hm, if_neg (Nat.not_lt_zero place), if_pos rfl, Nat.zero_add]
    | false => rw [h.all hm, if_pos hlt, if_neg Bool.false_ne_true, Nat.add_comm]

namespace Consecutive

variable (h : m.Consecutive names)
include h

theorem keys_perm : m.registers.keys.Perm names := by
  apply (List.perm_ext_iff_of_nodup m.registers.keys_nodup h.nodup).mpr
  intro x
  rw [Listing.mem_keys_iff, h.mem_iff]

theorem size_eq : m.registers.size = names.length := by
  rw [← h.keys_perm.length_eq, Listing.keys, List.length_map]
  rfl

/-- The numbers in use are those from the first register on. -/
theorem numbers_perm : (m.registers.entries.map fun entry => entry.2.number.toNat).Perm
    (List.range' m.firstRegister m.registers.size) := by
  have hentries : (m.registers.entries.map fun entry => entry.2.number.toNat) =
      m.registers.keys.map fun x => (m.register? x).elim 0 UInt16.toNat := by
    rw [Listing.keys, List.map_map]
    apply List.map_congr_left
    rintro ⟨x, register⟩ hmem
    rw [Function.comp_apply, register?, m.registers.get?_eq_some_iff.mpr hmem]
    rfl
  have hnames : (names.map fun x => (m.register? x).elim 0 UInt16.toNat) =
      List.range' m.firstRegister m.registers.size := by
    apply List.ext_getElem
    · rw [List.length_map, List.length_range', h.size_eq]
    · intro place hleft hright
      rw [List.length_map] at hleft
      obtain ⟨r, hr, hnumber⟩ := h.register place _ (List.getElem?_eq_getElem hleft)
      rw [List.getElem_map, hr, List.getElem_range', Nat.one_mul]
      exact hnumber
  -- the names are in order of the alphabet on one side and of their numbers on the other
  rw [hentries, ← hnames]
  exact h.keys_perm.map _

theorem toNat_lt {x : String} {r : UInt16} (hr : m.register? x = some r) :
    r.toNat < m.firstRegister + m.registers.size := by
  obtain ⟨register, hget, rfl⟩ := Option.map_eq_some_iff.mp hr
  have hmem := List.mem_map_of_mem (f := fun entry => entry.2.number.toNat)
    (m.registers.get?_eq_some_iff.mp hget)
  exact (List.mem_range'_1.mp (h.numbers_perm.mem_iff.mp hmem)).2

end Consecutive

/-- The flags of a method are given first, and its variables behind them. -/
structure FlagsFirst (before after : List Edit) : Prop where
  before : ∀ e ∈ before, e.declared? = none
  after : ∀ e ∈ after, e.setsStatic = false

theorem FlagsFirst.consecutive {before after : List Edit} (h : FlagsFirst before after)
    (name : String) (result : ValueType)
    (hsize : (built name result (before ++ after)).registers.size < 65535) :
    ∃ names, (built name result (before ++ after)).Consecutive names := by
  have hbuilt : built name result (before ++ after) = (built name result before).edited after :=
    edited_append ..
  have hstatic : (built name result (before ++ after)).isStatic =
      (built name result before).isStatic := by
    rw [hbuilt, edited_isStatic, List.any_eq_false.mpr fun e he => by rw [h.after e he]; decide,
      Bool.or_false]
  have hfront : (built name result before).Numbered [] 0 :=
    (numbered_new name result).of_eq (edited_registers _ h.before) fun _ => rfl
  obtain ⟨names, early, hnames, hkept⟩ := hfront.edited after
  rw [← hbuilt] at hnames
  exact ⟨_, hnames.consecutive hsize fun htrue => hkept (hstatic ▸ htrue)⟩

/-- All variables are counted if none of them has the name of the object. -/
theorem variableCount_eq_size (h : m.registers.has "this" = false) :
    m.variableCount = m.registers.size := by
  rw [variableCount, List.countP_eq_length.mpr ?_, Listing.keys, List.length_map]
  · rfl
  · intro x hx
    apply decide_eq_true
    rintro rfl
    rw [Listing.mem_keys_iff.mp hx] at h
    cases h

end Graph.Method

/-! ### The registers of a body -/

namespace Assembly

open JavaMinus.Graph (ClassUnit Operand Operator)
open JavaMinus.Graph.Method (FlagsFirst built)

/-- The register that an instruction loads or stores. -/
def Instruction.register? : Instruction → Option UInt16
  | .load _ register | .store _ register => some register
  | _ => none

def Line.register? : Line → Option UInt16
  | label _ => none
  | instruction i => i.register?

/-- The register is written behind the operation, or as a part of it. -/
theorem text_of_register? {line : Line} {r : UInt16} (h : line.register? = some r) :
    ∃ operation, line.text = s!"   {slotText operation r}" := by
  cases line with
  | label => nomatch h
  | instruction i =>
    cases i with
    | load family register =>
      cases h
      exact ⟨s!"{family.letter}load", rfl⟩
    | store family register =>
      cases h
      exact ⟨s!"{family.letter}store", rfl⟩
    | _ => nomatch h

variable {u : ClassUnit} {m : Graph.Method} {p p' : Progress} {lines more : List Line}

/-- Nothing but variables of the method is loaded and stored, and the object itself. -/
def KeepsTo (m : Graph.Method) (lines : List Line) : Prop :=
  ∀ line ∈ lines, ∀ r, line.register? = some r →
    (∃ x, m.register? x = some r) ∨ line = .instruction (.load .reference 0)

theorem KeepsTo.append (h : KeepsTo m lines) (hmore : KeepsTo m more) :
    KeepsTo m (lines ++ more) :=
  fun line hline => (List.mem_append.mp hline).elim (h line) (hmore line)

/-- Instructions on the stack may be among the lines. -/
theorem keepsTo_of_none (h : ∀ line ∈ lines, line.register? = none) : KeepsTo m lines := by
  intro line hline r hr
  rw [h line hline] at hr
  nomatch hr

theorem keepsTo_single {i : Instruction} (hi : i.register? = none) : KeepsTo m (code [i]) :=
  keepsTo_of_none (List.forall_mem_singleton.mpr hi)

theorem KeepsTo.behind (h : KeepsTo m lines) {i : Instruction} (hi : i.register? = none) :
    KeepsTo m (lines ++ code [i]) :=
  h.append (keepsTo_single hi)

theorem keepsTo_variable {x : String} {r : UInt16} (hr : m.register? x = some r)
    {i : Instruction} (hi : i.register? = some r) : KeepsTo m (code [i]) := by
  intro line hline r' hr'
  obtain rfl := List.mem_singleton.mp hline
  obtain rfl := Option.some_inj.mp (hi.symm.trans hr')
  exact .inl ⟨x, hr⟩

theorem keepsTo_labels (k : Nat) : KeepsTo m (labels m k) :=
  keepsTo_of_none (List.forall_mem_map.mpr fun _ _ => rfl)

theorem keepsTo_load {x : Operand} (h : (load m x).run p = .ok (lines, p')) :
    KeepsTo m lines := by
  induction x generalizing p p' lines with
  | literal v t =>
    obtain ⟨rfl, -⟩ := load_literal h
    exact keepsTo_single rfl
  | named x t =>
    by_cases hself : (∃ c, t = .self c) ∨ x = "this"
    · rw [run_load_self hself] at h
      obtain ⟨rfl, -⟩ := ok_inj h
      exact fun line hline _ _ => .inr (List.mem_singleton.mp hline)
    · obtain ⟨ht, hx⟩ := not_or.mp hself
      obtain ⟨family, r, rfl, -, hregister⟩ := load_named h
      exact keepsTo_variable (hregister hx fun c hc => ht ⟨c, hc⟩).2 rfl
  | element array index t ih =>
    obtain ⟨r, position, p₁, hposition, rfl, -, hr⟩ := load_element h
    exact ((keepsTo_variable hr rfl).append (ih hposition)).behind rfl

theorem keepsTo_loadAll {xs : List Operand} (h : (loadAll m xs).run p = .ok (lines, p')) :
    KeepsTo m lines := by
  induction xs generalizing p lines with
  | nil =>
    obtain ⟨rfl, -⟩ := ok_inj h
    exact keepsTo_of_none nofun
  | cons x rest ih =>
    obtain ⟨first, more, p₁, hfirst, hmore, rfl⟩ := loadAll_cons h
    exact (keepsTo_load hfirst).append (ih hmore)

theorem keepsTo_operate {op : Operator} (h : (operate op).run p = .ok (lines, p')) :
    KeepsTo m lines := by
  cases op with
  | arithmetic op =>
    obtain ⟨rfl, -⟩ := operate_arithmetic h
    exact keepsTo_single rfl
  | connective op =>
    obtain ⟨rfl, -⟩ := operate_connective h
    exact keepsTo_single rfl
  | comparison op =>
    obtain ⟨rfl, -⟩ := operate_comparison h
    apply keepsTo_of_none
    simp [compareLines, code, Line.register?, Instruction.register?]

theorem keepsTo_call {c : Graph.Call} {left : Nat}
    (h : (call u m c).run p = .ok ((lines, left), p')) : KeepsTo m lines := by
  have hinvoke {mode : CallMode} (h : (invoke u m mode c).run p = .ok ((lines, left), p')) :
      KeepsTo m lines := by
    obtain ⟨method, operands, p₁, hoperands, rfl, -⟩ := invoke_eq_ok h
    exact (keepsTo_loadAll hoperands).behind rfl
  rw [call] at h
  split at h
  case h_1 =>
    rcases allocate_eq_ok h with ⟨name, -, rfl, -⟩ | ⟨element, size, loaded, -, hloaded, rfl, -⟩
    · exact keepsTo_of_none (by simp [code, Line.register?, Instruction.register?])
    · exact (keepsTo_load hloaded).behind rfl
  case h_2 =>
    obtain ⟨loaded, p₁, hloaded, h⟩ := run_bind_eq_ok h
    obtain ⟨rfl, -, -⟩ := ok_inj' h
    exact (keepsTo_load hloaded).behind rfl
  case h_3 | h_4 | h_5 => exact hinvoke h

theorem keepsTo_value {i : Graph.Instruction} (h : (value u m i).run p = .ok (lines, p')) :
    KeepsTo m lines := by
  cases i with
  | single x => exact keepsTo_load h
  | binary op left right =>
    obtain ⟨x, y, z, p₁, p₂, hx, hy, hz, rfl⟩ := value_binary h
    exact ((keepsTo_load hx).append (keepsTo_load hy)).append (keepsTo_operate hz)
  | call c =>
    obtain ⟨-, left, hcall⟩ := value_call h
    exact keepsTo_call hcall
  | getField object field =>
    obtain ⟨x, f, hx, rfl⟩ := value_getField h
    exact (keepsTo_load hx).behind rfl
  | assign | ret | putField | branch | jump => nomatch h

theorem keepsTo_assign {source : Graph.Instruction} {target : Operand}
    (h : (assign u m source target).run p = .ok (lines, p')) : KeepsTo m lines := by
  cases target with
  | literal => nomatch h
  | named x t =>
    obtain ⟨computed, r, p₁, hvalue, hr, rfl, -⟩ := assign_named h
    exact (keepsTo_value hvalue).append (keepsTo_variable hr rfl)
  | element array index t =>
    obtain ⟨r, position, computed, p₁, p₂, hposition, hvalue, rfl, -, hr⟩ := assign_element h
    -- the array is loaded first; what is stored is an element and no variable
    exact (((keepsTo_variable hr rfl).append (keepsTo_load hposition)).append
      (keepsTo_value hvalue)).behind rfl

/-- Each instruction keeps to the variables. -/
theorem keepsTo_instruction {i : Graph.Instruction}
    (h : (instruction u m i).run p = .ok (lines, p')) : KeepsTo m lines := by
  have hdropped (hi : IsDropped i) : KeepsTo m lines := by
    obtain ⟨computed, p₁, hvalue, rfl, -⟩ := instruction_dropped hi h
    exact (keepsTo_value hvalue).behind rfl
  cases i with
  | assign target source => exact keepsTo_assign h
  | single | binary | getField => exact hdropped trivial
  | ret t x =>
    rcases instruction_ret h with ⟨rfl, -, -⟩ | ⟨y, loaded, p₁, -, -, hloaded, rfl, -⟩
    · exact keepsTo_single rfl
    · exact (keepsTo_load hloaded).behind rfl
  | call c =>
    obtain ⟨called, left, p₁, hcall, rfl, -⟩ := instruction_call h
    refine (keepsTo_call hcall).append (keepsTo_of_none (List.forall_mem_map.mpr fun i hi => ?_))
    rw [List.eq_of_mem_replicate hi]
    rfl
  | putField object field x =>
    obtain ⟨first, second, f, p₁, p₂, hfirst, hsecond, rfl, -⟩ := instruction_putField h
    exact ((keepsTo_load hfirst).append (keepsTo_load hsecond)).behind rfl
  | branch condition target =>
    rcases branch_eq_ok h with ⟨op, left, right, x, y, p₁, p₂, -, hx, hy, rfl, -⟩ |
      ⟨computed, p₁, -, hvalue, rfl, -⟩
    · exact ((keepsTo_load hx).append (keepsTo_load hy)).behind rfl
    · exact (keepsTo_value hvalue).behind rfl
  | jump target =>
    obtain ⟨rfl, -⟩ := ok_inj h
    exact keepsTo_single rfl

/-- What one instruction keeps, all of them keep. -/
theorem keepsTo_bodyFrom {k : Nat} {is : List Graph.Instruction}
    (h : (bodyFrom u m k is).run p = .ok (lines, p')) : KeepsTo m lines := by
  induction is generalizing k p lines with
  | nil =>
    obtain ⟨rfl, -⟩ := ok_inj h
    exact keepsTo_labels k
  | cons i rest ih =>
    obtain ⟨first, more, p₁, hfirst, hmore, rfl⟩ := bodyFrom_cons h
    exact ((keepsTo_labels k).append (keepsTo_instruction hfirst)).append (ih hmore)

/-! ### The number in the head -/

theorem lines_three (a : Method) : a.lines[3]? = some s!"   .limit locals {a.localsLimit}" := rfl

/-- **The head of a method names enough registers.**  A method whose flags come before its
variables has its variables in as many registers as they are, from zero on if it is static
and from one on otherwise.  The number in the head of its assembly is the next one.  So all
registers of variables that are loaded and stored in the body are below it.  Besides only the
object is loaded, which the head knows of unless the method is static and has no variables. -/
theorem locals_limit_covers_registers {before after : List Graph.Edit}
    (hedits : FlagsFirst before after) (name : String) (result : Graph.ValueType)
    (hsize : (built name result (before ++ after)).registers.size < 65535)
    (hthis : (built name result (before ++ after)).registers.has "this" = false) :
    let m := built name result (before ++ after)
    let next := m.firstRegister + m.registers.size
    (m.registers.entries.map fun entry => entry.2.number.toNat).Perm
        (List.range' m.firstRegister m.registers.size) ∧
      ∀ (options : Options) (u : ClassUnit) (a : Method),
        Member.ofGraph options u m = .ok (.method a) →
        a.localsLimit = next ∧ a.lines[3]? = some s!"   .limit locals {next}" ∧
          ∀ line ∈ a.body, ∀ r, line.register? = some r →
            (∃ operation, line.text = s!"   {slotText operation r}") ∧
              ((∃ x, m.register? x = some r ∧ r.toNat < next) ∨
                line = .instruction (.load .reference 0) ∧
                  (0 < next ∨ m.isStatic = true ∧ m.registers.size = 0)) := by
  intro m next
  obtain ⟨names, hnames⟩ := hedits.consecutive name result hsize
  refine ⟨hnames.numbers_perm, fun options u a ha => ?_⟩
  have hlimit : a.localsLimit = next := by
    rw [localsLimit_eq ha, registersUsed, Graph.Method.variableCount_eq_size hthis, Nat.add_comm]
    rfl
  refine ⟨hlimit, hlimit ▸ lines_three a, fun line hline r hr => ⟨text_of_register? hr, ?_⟩⟩
  obtain ⟨deepest, hbody, -⟩ := memberOfGraph_eq_ok ha
  obtain ⟨p, hrun, -⟩ := body_eq_ok hbody
  rcases keepsTo_bodyFrom hrun line hline r hr with ⟨x, hx⟩ | hself
  · exact .inl ⟨x, hx, hnames.toNat_lt hx⟩
  · refine .inr ⟨hself, ?_⟩
    show 0 < m.firstRegister + m.registers.size ∨ _
    rw [Graph.Method.firstRegister]
    cases m.isStatic with
    | true =>
      rw [if_pos rfl, Nat.zero_add]
      exact (Nat.eq_zero_or_pos m.registers.size).symm.imp_right fun hzero => ⟨rfl, hzero⟩
    | false => exact .inl (Nat.lt_of_lt_of_le Nat.zero_lt_one (Nat.le_add_right ..))

/-! ### A method with an object

    pick(x, ys) { z = ys[x]; return z; }
-/

/-- The edits behind the flags. -/
def picking : List Graph.Edit :=
  [.parameter "x" .int, .parameter "ys" .intArray,
   .instruction (.assign (.named "z" .int) (.single (.intElement "ys" (.named "x" .int)))),
   .instruction (.ret .int (some (.named "z" .int)))]

theorem locals_limit_covers_registers_picking :
    ∃ a, Member.ofGraph .standard (.new "Pick") (built "pick" .int (.flags false true :: picking)) =
        .ok (.method a) ∧
      a.lines[3]? = some "   .limit locals 4" ∧
      ∀ line ∈ a.body, ∀ r, line.register? = some r →
        (∃ x, (built "pick" .int (.flags false true :: picking)).register? x = some r ∧
          r.toNat < 4) ∨ line = .instruction (.load .reference 0) := by
  obtain ⟨a, ha⟩ : ∃ a, Member.ofGraph .standard (.new "Pick")
      (built "pick" .int (.flags false true :: picking)) = .ok (.method a) := ⟨_, rfl⟩
  have hedits : FlagsFirst [.flags false true] picking := ⟨by decide, by decide⟩
  obtain ⟨-, hemitted⟩ := locals_limit_covers_registers hedits "pick" .int (by decide) (by decide)
  obtain ⟨-, hhead, hbody⟩ := hemitted _ _ a ha
  refine ⟨a, ha, hhead, fun line hline r hr => ?_⟩
  exact (hbody line hline r hr).2.imp_right And.left

-- the object is loaded in a static method, and no register is named for it
example : ∃ a, Member.ofGraph .standard (.new "Self")
    (built "self" (.object "Self") [.flags true false,
      .instruction (.ret (.object "Self") (some (.self "Self")))]) = .ok (.method a) ∧
    a.localsLimit = 0 ∧ a.body[0]? = some (.instruction (.load .reference 0)) := ⟨_, rfl, rfl, rfl⟩

end Assembly

end JavaMinus
