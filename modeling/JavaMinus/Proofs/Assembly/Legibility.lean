/-
JavaMinus/Proofs/Assembly/Legibility.lean

What is emitted can be read back.

The lines that are emitted for a method on numbers and truth values are
legible if its labels can be written as one word each (`WritableLabels`).
-/
import JavaMinus.Proofs.Assembly.Layout
import JavaMinus.Proofs.Assembly.Reading

namespace JavaMinus.Assembly

open JavaMinus.Graph (ClassUnit Operand Operator ValueType ScalarInstruction IsValue)
open Reading

variable {u : ClassUnit} {m : Graph.Method} {p p' : Progress} {lines : List Line}

/-! ### Numbers and truth values -/

theorem ofType_scalar {t : ValueType} (h : t = .int ∨ t = .boolean) : Family.ofType t = .int := by
  rcases h with rfl | rfl <;> rfl

theorem not_self_of_scalar {t : ValueType} (h : t = .int ∨ t = .boolean) (c : String) :
    t ≠ .self c := by
  rcases h with rfl | rfl <;> exact ValueType.noConfusion

/-- A scalar operand is loaded by one instruction: a constant, or the register
of its variable. -/
theorem load_scalar {x : Operand} (hx : x.IsScalar)
    (h : (load m x).run p = .ok (lines, p')) :
    (∃ v t, x = .literal v t ∧ lines = code [.push (.ofInt v)]) ∨
    (∃ name t r, x = .named name t ∧ m.register? name = some r ∧
      lines = code [.load .int r]) := by
  cases x with
  | literal v t =>
    obtain ⟨rfl, -⟩ := load_literal h
    exact Or.inl ⟨v, t, rfl, rfl⟩
  | named name t =>
    obtain ⟨hname, ht⟩ := hx
    obtain ⟨family, r, rfl, -, hregister⟩ := load_named h
    obtain ⟨rfl, hr⟩ := hregister hname (not_self_of_scalar ht)
    rw [ofType_scalar ht]
    exact Or.inr ⟨name, t, r, rfl, hr, rfl⟩
  | element => exact hx.elim

/-- A value that is a statement is popped. -/
theorem instruction_value {i : Graph.Instruction} (hi : IsValue i)
    (h : (instruction u m i).run p = .ok (lines, p')) :
    ∃ computed p₁, (value u m i).run p = .ok (computed, p₁) ∧
      lines = computed ++ code [.pop] := by
  cases hi with
  | single | binary =>
    obtain ⟨computed, p₁, hvalue, rfl, -⟩ := instruction_dropped (by exact trivial) h
    exact ⟨computed, p₁, hvalue, rfl⟩

/-! ### Legible lines -/

/-- The labels of the method can be written as one word each. -/
def WritableLabels (m : Graph.Method) : Prop := ∀ x ∈ m.labels.keys, Solid x.toList

theorem WritableLabels.of_has (h : WritableLabels m) {x : String} (hx : m.labels.has x) :
    Solid x.toList := by
  obtain ⟨j, hj⟩ := Graph.exists_index_of_has hx
  exact h x (List.mem_map_of_mem (m.labels.get?_eq_some_iff.mp hj))

/-- All lines are legible. -/
def Legible (ls : List Line) : Prop := ∀ l ∈ ls, l.Legible

theorem Legible.append {a b : List Line} (ha : Legible a) (hb : Legible b) :
    Legible (a ++ b) := by
  intro l hl
  exact (List.mem_append.mp hl).elim (ha l) (hb l)

theorem legible_code {is : List Instruction} (h : ∀ i ∈ is, i.Legible) :
    Legible (code is) := by
  intro l hl
  obtain ⟨i, hi, rfl⟩ := List.mem_map.mp hl
  exact h i hi

theorem legible_single {i : Instruction} (h : i.Legible) : Legible (code [i]) :=
  legible_code fun j hj => by rwa [List.mem_singleton.mp hj]

theorem legible_load {x : Operand} (hx : x.IsScalar) (h : (load m x).run p = .ok (lines, p')) :
    Legible lines := by
  rcases load_scalar hx h with ⟨v, t, -, rfl⟩ | ⟨name, t, r, -, -, rfl⟩
  · exact legible_single ⟨v, rfl⟩
  · exact legible_single rfl

theorem solid_whenTrue (n : Nat) : Solid (whenTrue n).toList := by
  rw [whenTrue, String.toList_append]
  exact Solid.append ⟨by decide, by decide⟩ (solid_natural n)

theorem solid_whenDone (n : Nat) : Solid (whenDone n).toList := by
  rw [whenDone, String.toList_append]
  exact Solid.append ⟨by decide, by decide⟩ (solid_natural n)

theorem legible_compareLines (op : Comparison) (n : Nat) : Legible (compareLines op n) := by
  have hlabel : ∀ x : String, Solid x.toList → Legible [.label x] :=
    fun x hx l hl => by rwa [List.mem_singleton.mp hl]
  refine Legible.append (Legible.append (Legible.append (legible_code ?_)
    (hlabel _ (solid_whenTrue n))) (legible_single ⟨1, rfl⟩)) (hlabel _ (solid_whenDone n))
  intro i hi
  simp only [List.mem_cons, List.not_mem_nil, or_false] at hi
  rcases hi with rfl | rfl | rfl
  · exact solid_whenTrue n
  · exact ⟨0, rfl⟩
  · exact solid_whenDone n

theorem legible_operate {op : Operator} (h : (operate op).run p = .ok (lines, p')) :
    Legible lines := by
  cases op with
  | arithmetic op =>
    obtain ⟨rfl, -⟩ := operate_arithmetic h
    exact legible_single trivial
  | connective op =>
    obtain ⟨rfl, -⟩ := operate_connective h
    exact legible_single trivial
  | comparison op =>
    obtain ⟨rfl, -⟩ := operate_comparison h
    exact legible_compareLines op _

theorem legible_value {i : Graph.Instruction} (hi : IsValue i)
    (h : (value u m i).run p = .ok (lines, p')) : Legible lines := by
  cases hi with
  | single hx => exact legible_load hx h
  | binary hleft hright =>
    obtain ⟨x, y, z, p₁, p₂, hx, hy, hz, rfl⟩ := value_binary h
    exact ((legible_load hleft hx).append (legible_load hright hy)).append (legible_operate hz)

theorem legible_instruction (hm : WritableLabels m) {i : Graph.Instruction}
    (hi : ScalarInstruction m i) (h : (instruction u m i).run p = .ok (lines, p')) :
    Legible lines := by
  cases hi with
  | assign ht hsource =>
    obtain ⟨computed, r, p₁, hvalue, -, rfl, -⟩ := assign_named h
    exact (legible_value hsource hvalue).append (legible_single (ofType_scalar ht))
  | statement hvalue =>
    obtain ⟨computed, p₁, hcomputed, rfl⟩ := instruction_value hvalue h
    exact (legible_value hvalue hcomputed).append (legible_single trivial)
  | branch hcondition htarget =>
    rcases branch_eq_ok h with ⟨op, left, right, x, y, p₁, p₂, rfl, hx, hy, rfl, -⟩ |
      ⟨computed, p₁, -, hvalue, rfl, -⟩
    · obtain - | ⟨hleft, hright⟩ := hcondition
      exact ((legible_load hleft hx).append (legible_load hright hy)).append
        (legible_single (hm.of_has htarget))
    · exact (legible_value hcondition hvalue).append (legible_single (hm.of_has htarget))
  | jump htarget =>
    obtain ⟨rfl, -⟩ := ok_inj h
    exact legible_single (hm.of_has htarget)
  | retNothing =>
    obtain ⟨rfl, -⟩ := ok_inj h
    exact legible_single trivial
  | retValue ht hx =>
    rcases instruction_ret h with ⟨rfl, -, -⟩ | ⟨y, loaded, p₁, hy, -, hloaded, rfl, -⟩
    · exact legible_single trivial
    · obtain rfl := Option.some.inj hy
      exact (legible_load hx hloaded).append (legible_single (ofType_scalar ht))

theorem legible_labels (hm : WritableLabels m) (k : Nat) : Legible (labels m k) := by
  intro l hl
  obtain ⟨x, hx, rfl⟩ := List.mem_map.mp hl
  exact hm x (List.mem_map_of_mem (m.labels.get?_eq_some_iff.mp (mem_labelsAt.mp hx)))

theorem legible_bodyFrom (hm : WritableLabels m) {k : Nat} {is : List Graph.Instruction}
    (his : ∀ i ∈ is, ScalarInstruction m i)
    (h : (bodyFrom u m k is).run p = .ok (lines, p')) : Legible lines := by
  induction is generalizing k p lines with
  | nil =>
    obtain ⟨rfl, -⟩ := ok_inj h
    exact legible_labels hm k
  | cons i rest ih =>
    obtain ⟨first, more, p₁, hfirst, hmore, rfl⟩ := bodyFrom_cons h
    exact ((legible_labels hm k).append
      (legible_instruction hm (his i (List.mem_cons_self ..)) hfirst)).append
      (ih (fun j hj => his j (List.mem_cons_of_mem _ hj)) hmore)

end JavaMinus.Assembly
