/-
JavaMinus/Proofs/Assembly/Meaning.lean

Emission preserves meaning.

The lines that are emitted for a method on numbers and truth values are read
back from their text and run on the stack machine.  They come to an outcome
with some final values in the registers exactly if the instructions of the
graph do (`emission_preserves_meaning`).

The two machines are kept in step: whenever the graph is in front of an
instruction, the stack machine is at the place of this instruction with an
empty stack (`Matches`), and a step of the graph is one or more steps of the
stack machine (`respects`).
-/
import JavaMinus.Proofs.Assembly.Legibility

namespace JavaMinus.Assembly

open JavaMinus.Graph (ClassUnit Operand Operator ValueType ScalarMethod ScalarInstruction IsValue)
open Machine StateTransition

variable {u : ClassUnit} {m : Graph.Method} {p p' : Progress} {lines : List Line}
  {code : List Line} {pc : Nat} {slots : Slots} {σ : Graph.Store}

/-- The registers hold the values of the variables. -/
def Holds (m : Graph.Method) (σ : Graph.Store) (slots : Slots) : Prop :=
  ∀ x r, m.register? x = some r → slots r = σ x

/-! ### Values -/

/-- Loading pushes the value of the operand. -/
theorem reaches_load {x : Operand} (hx : x.IsScalar) (h : (load m x).run p = .ok (lines, p'))
    (hcode : CodeAt code pc lines) (hσ : Holds m σ slots) {v : Int32} (hv : x.value? σ = some v)
    (stack : List Int32) :
    Reaches (step code) (.running pc stack slots)
      (.running (pc + lines.length) (v :: stack) slots) := by
  rcases load_scalar hx h with ⟨w, t, rfl, rfl⟩ | ⟨name, t, r, rfl, hr, rfl⟩
  · refine reaches_of_step ?_
    obtain rfl : w = v := Option.some.inj hv
    rw [step_instruction _ _ hcode.head]
    rw [execute_push, Constant.value_ofInt]
    rfl
  · refine reaches_of_step ?_
    obtain rfl : σ name = v := Option.some.inj hv
    rw [step_instruction _ _ hcode.head, execute_load, hσ name r hr]
    rfl

/-- A comparison that is kept leaves one or zero. -/
theorem reaches_compare (hnodup : (labelNames code).Nodup) {op : Comparison} {n : Nat}
    (hcode : CodeAt code pc (compareLines op n)) (a b : Int32) (stack : List Int32)
    (slots : Slots) :
    Reaches₁ (step code) (.running pc (b :: a :: stack) slots)
      (.running (pc + 6) (truth32 (op.holds a b) :: stack) slots) := by
  -- the six lines of a comparison
  have hcompare := hcode.left.left.left.head
  have hzero := hcode.left.left.left.tail.head
  have hjump := hcode.left.left.left.tail.tail.head
  have htrue : code[pc + 3]? = some (.label (whenTrue n)) := hcode.left.left.right.head
  have hone : code[pc + 4]? = some (.instruction (.push (.ofInt 1))) := hcode.left.right.head
  have hdone : code[pc + 5]? = some (.label (whenDone n)) := hcode.right.head
  have hend : ∀ v : Int32, Reaches (step code) (.running (pc + 5) (v :: stack) slots)
      (.running (pc + 6) (v :: stack) slots) :=
    fun v => reaches_of_step (step_label _ _ hdone)
  have hfirst := step_instruction (b :: a :: stack) slots hcompare
  rw [execute_compareJump] at hfirst
  rcases e : op.holds a b with - | -
  · rw [e, if_neg Bool.false_ne_true] at hfirst
    refine reaches₁_of_step hfirst ?_
    have hpush := step_instruction stack slots hzero
    rw [execute_push, Constant.value_ofInt] at hpush
    have hskip := step_instruction ((0 : Int32) :: stack) slots hjump
    rw [execute_jump, position?_of_unique hnodup hdone] at hskip
    exact ((reaches_of_step hpush).trans (reaches_of_step hskip)).trans (hend 0)
  · rw [e, if_pos rfl, position?_of_unique hnodup htrue] at hfirst
    refine reaches₁_of_step hfirst ?_
    have hlabel := step_label stack slots htrue
    have hpush := step_instruction stack slots hone
    rw [execute_push, Constant.value_ofInt] at hpush
    exact ((reaches_of_step hlabel).trans (reaches_of_step hpush)).trans (hend 1)

/-- Where an operation leads that may be trapped. -/
def afterValue (pc : Nat) (stack : List Int32) (slots : Slots) : Option Int32 → State
  | some v => .running pc (v :: stack) slots
  | none => .ended .trapped slots

theorem reaches_operate (hnodup : (labelNames code).Nodup) {op : Operator}
    (h : (operate op).run p = .ok (lines, p')) (hcode : CodeAt code pc lines) (a b : Int32)
    (stack : List Int32) (slots : Slots) :
    Reaches₁ (step code) (.running pc (b :: a :: stack) slots)
      (afterValue (pc + lines.length) stack slots (op.compute a b)) := by
  cases op with
  | arithmetic op =>
    obtain ⟨rfl, -⟩ := operate_arithmetic h
    have hstep := step_instruction (b :: a :: stack) slots hcode.head
    rw [execute_arithmetic] at hstep
    show Reaches₁ _ _ (afterValue (pc + 1) stack slots (op.compute a b))
    rcases e : op.compute a b with - | v
    · rw [e] at hstep
      exact reaches₁_of_step hstep .refl
    · rw [e] at hstep
      exact reaches₁_of_step hstep .refl
  | connective op =>
    obtain ⟨rfl, -⟩ := operate_connective h
    exact reaches₁_of_step (step_instruction (b :: a :: stack) slots hcode.head) .refl
  | comparison op =>
    obtain ⟨rfl, -⟩ := operate_comparison h
    exact reaches_compare hnodup hcode a b stack slots

/-- The lines of a value push it, or are trapped as it is. -/
theorem reaches_value (hnodup : (labelNames code).Nodup) {i : Graph.Instruction}
    (hi : IsValue i) (h : (value u m i).run p = .ok (lines, p')) (hcode : CodeAt code pc lines)
    (hσ : Holds m σ slots) (stack : List Int32) :
    (∃ v, i.compute? σ = some (.value v) ∧
      Reaches (step code) (.running pc stack slots)
        (.running (pc + lines.length) (v :: stack) slots)) ∨
    (i.compute? σ = some .trapped ∧
      Reaches₁ (step code) (.running pc stack slots) (.ended .trapped slots)) := by
  cases hi with
  | @single x hx =>
    obtain ⟨v, hv⟩ := hx.exists_value σ
    refine Or.inl ⟨v, by rw [Graph.Instruction.compute?, hv]; rfl, ?_⟩
    exact reaches_load hx h hcode hσ hv stack
  | @binary op left right hleft hright =>
    obtain ⟨a, ha⟩ := hleft.exists_value σ
    obtain ⟨b, hb⟩ := hright.exists_value σ
    obtain ⟨x, y, z, p₁, p₂, hx, hy, hz, rfl⟩ := value_binary h
    have hX := reaches_load hleft hx hcode.left.left hσ ha stack
    have hY := reaches_load hright hy hcode.left.right hσ hb (a :: stack)
    have hZcode := hcode.right
    rw [List.length_append, ← Nat.add_assoc] at hZcode
    have hZ := reaches_operate hnodup hz hZcode a b stack slots
    rcases e : op.compute a b with - | v
    · rw [e] at hZ
      refine Or.inr ⟨by simp [Graph.Instruction.compute?, ha, hb, e], ?_⟩
      exact Relation.TransGen.trans_right (hX.trans hY) hZ
    · rw [e] at hZ
      refine Or.inl ⟨v, by simp [Graph.Instruction.compute?, ha, hb, e], ?_⟩
      rw [List.length_append, List.length_append, ← Nat.add_assoc, ← Nat.add_assoc]
      exact (hX.trans hY).trans hZ.to_reflTransGen

/-- A condition leads on if it is zero, and to the label otherwise. -/
theorem reaches_branch (hnodup : (labelNames code).Nodup) {condition : Graph.Instruction}
    {target : String} (hcondition : IsValue condition)
    (h : (branch u m target condition).run p = .ok (lines, p')) (hcode : CodeAt code pc lines)
    (hσ : Holds m σ slots) {q : Nat} (hq : position? code target = some q) (stack : List Int32) :
    (∃ v, condition.compute? σ = some (.value v) ∧
      Reaches₁ (step code) (.running pc stack slots)
        (.running (if v = 0 then pc + lines.length else q) stack slots)) ∨
    (condition.compute? σ = some .trapped ∧
      Reaches₁ (step code) (.running pc stack slots) (.ended .trapped slots)) := by
  rcases branch_eq_ok h with ⟨op, left, right, x, y, p₁, p₂, rfl, hx, hy, rfl, -⟩ |
    ⟨computed, p₁, -, hvalue, rfl, -⟩
  · obtain - | ⟨hleft, hright⟩ := hcondition
    obtain ⟨a, ha⟩ := hleft.exists_value σ
    obtain ⟨b, hb⟩ := hright.exists_value σ
    have hX := reaches_load hleft hx hcode.left.left hσ ha stack
    have hY := reaches_load hright hy hcode.left.right hσ hb (a :: stack)
    have hhead := hcode.right.head
    rw [List.length_append, ← Nat.add_assoc] at hhead
    have hstep := step_instruction (b :: a :: stack) slots hhead
    refine Or.inl ⟨truth32 (op.holds a b), by simp [Graph.Instruction.compute?, ha, hb,
      Operator.compute], reaches₁_of_reaches (hX.trans hY) (hstep.trans ?_)⟩
    rw [execute_compareJump, hq, List.length_append, List.length_append, ← Nat.add_assoc,
      ← Nat.add_assoc]
    cases op.holds a b <;> rfl
  · rcases reaches_value hnodup hcondition hvalue hcode.left hσ stack with
      ⟨v, hv, hreach⟩ | ⟨hv, hreach⟩
    · have hstep := step_instruction (v :: stack) slots hcode.right.head
      refine Or.inl ⟨v, hv, reaches₁_of_reaches hreach (hstep.trans ?_)⟩
      rw [execute_trueJump, hq, List.length_append, ← Nat.add_assoc]
      by_cases hzero : v = 0
      · rw [if_pos hzero, if_pos hzero]
        rfl
      · rw [if_neg hzero, if_neg hzero]
        rfl
    · exact Or.inr ⟨hv, hreach⟩

/-! ### Steps -/

/-- The stack machine is where the graph is. -/
inductive Matches (u : ClassUnit) (m : Graph.Method) (code : List Line) :
    Graph.State → State → Prop
  | running {i pc p σ slots} : Placed u m code i pc p → Holds m σ slots →
      Matches u m code (.running i σ) (.running pc [] slots)
  | ended {o σ slots} : Holds m σ slots → Matches u m code (.ended o σ) (.ended o slots)

theorem Holds.update (hm : ScalarMethod m) (hσ : Holds m σ slots) {x : String} {r : UInt16}
    (hr : m.register? x = some r) (v : Int32) :
    Holds m (Function.update σ x v) (Function.update slots r v) := by
  intro y q hq
  by_cases hy : y = x
  · subst hy
    obtain rfl : r = q := Option.some.inj (hr.symm.trans hq)
    rw [Function.update_self, Function.update_self]
  · have hqr : q ≠ r := by
      rintro rfl
      exact hy (hm.distinct y x q hq hr)
    rw [Function.update_of_ne hy, Function.update_of_ne hqr, hσ y q hq]

/-- A jump to a label of the graph leads to the place of its index. -/
theorem exists_position (hnodup : (labelNames code).Nodup) {j : Nat} {l : String}
    (hj : m.labels.get? l = some j) (hplaced : Placed u m code j pc p) :
    ∃ q, position? code l = some q ∧ ∀ stack slots,
      Reaches (step code) (.running q stack slots) (.running pc stack slots) := by
  obtain ⟨start, rfl, hlabels⟩ := hplaced.labels
  obtain ⟨before, after, hsplit⟩ := List.append_of_mem (mem_labelsAt.mpr hj)
  rw [labels, hsplit, List.map_append, List.map_cons] at hlabels ⊢
  have hhead := hlabels.right.head
  refine ⟨_, position?_of_unique hnodup hhead, fun stack slots => ?_⟩
  have hrest := reaches_labels hlabels.right.tail stack slots
  have hlabel := reaches_of_step (step_label stack slots hhead)
  simp only [List.length_append, List.length_cons, List.length_map] at hrest hlabel ⊢
  have hpc : start + (before.length + (after.length + 1)) =
      start + before.length + 1 + after.length := by omega
  rw [hpc]
  exact hlabel.trans hrest

/-- Behind its lines an instruction is left for the next one. -/
theorem matches_next {i : Nat} (hσ : Holds m σ slots)
    (hlabels : CodeAt code pc (labels m (i + 1)))
    (hplaced : Placed u m code (i + 1) (pc + (labels m (i + 1)).length) p) :
    ∃ t, Matches u m code (.running (i + 1) σ) t ∧
      Reaches (step code) (.running pc [] slots) t := by
  refine ⟨_, .running hplaced hσ, ?_⟩
  have h := reaches_labels hlabels [] slots
  rwa [labels, List.length_map]

section Steps

variable {deepest : Nat} {i : Nat} {instr : Graph.Instruction} {next : Graph.State}

/-- A value is pushed and taken from the stack by the instruction behind it. -/
theorem exists_matches_taken (hnodup : (labelNames code).Nodup) {source : Graph.Instruction}
    (hsource : IsValue source) {computed : List Line}
    (hvalue : (value u m source).run p = .ok (computed, p')) {taken : Instruction}
    (hcode : CodeAt code pc (computed ++ Assembly.code [taken])) (hσ : Holds m σ slots)
    {σ' : Int32 → Graph.Store} {slots' : Int32 → Slots} (hσ' : ∀ v, Holds m (σ' v) (slots' v))
    (htaken : ∀ v pc, execute code pc slots taken [v] = some (.running (pc + 1) [] (slots' v)))
    (hlabels : CodeAt code (pc + (computed ++ Assembly.code [taken]).length) (labels m (i + 1)))
    {p₁ : Progress} (hplaced : Placed u m code (i + 1)
      (pc + (computed ++ Assembly.code [taken]).length + (labels m (i + 1)).length) p₁)
    (hnext : (source.compute? σ).map (Graph.goOn σ fun v => .running (i + 1) (σ' v)) =
      some next) :
    ∃ t, Matches u m code next t ∧ Reaches₁ (step code) (.running pc [] slots) t := by
  rcases reaches_value hnodup hsource hvalue hcode.left hσ [] with ⟨v, hv, hreach⟩ | ⟨hv, hreach⟩
  · rw [hv] at hnext
    obtain rfl := Option.some.inj hnext
    obtain ⟨t, hmatches, hrest⟩ := matches_next (hσ' v) hlabels hplaced
    refine ⟨t, hmatches, ?_⟩
    have htake := step_instruction [v] slots hcode.right.head
    rw [htaken] at htake
    rw [List.length_append, ← Nat.add_assoc] at hrest
    exact Relation.TransGen.trans_left (reaches₁_of_reaches hreach htake) hrest
  · rw [hv] at hnext
    obtain rfl := Option.some.inj hnext
    exact ⟨_, .ended hσ, hreach⟩

/-- A step of the graph is one or more steps of the stack machine. -/
theorem exists_matches_execute (hm : ScalarMethod m) (hnodup : (labelNames code).Nodup)
    (hbody : body u m = .ok (code, deepest)) (hplaced : Placed u m code i pc p)
    (hσ : Holds m σ slots) (hi : m.instructions[i]? = some instr)
    (hnext : Graph.execute m i σ instr = some next) :
    ∃ t, Matches u m code next t ∧ Reaches₁ (step code) (.running pc [] slots) t := by
  obtain ⟨lines, p₁, hrun, hlines, hlabels, hplaced'⟩ := hplaced.next hi
  -- where the machine goes on from a label of the graph
  have target {l : String} {j : Nat} (hj : m.labels.get? l = some j) :
      ∃ q pcj pj, position? code l = some q ∧ Placed u m code j pcj pj ∧
        Reaches (step code) (.running q [] slots) (.running pcj [] slots) := by
    obtain ⟨pcj, pj, hplacedj⟩ := exists_placed hbody (hm.labels l j hj)
    obtain ⟨q, hq, hreach⟩ := exists_position hnodup hj hplacedj
    exact ⟨q, pcj, pj, hq, hplacedj, hreach [] slots⟩
  cases hm.instructions _ (List.mem_of_getElem? hi) with
  | @assign x t source ht hsource =>
    obtain ⟨computed, r, p₂, hvalue, hr, rfl, -⟩ := assign_named hrun
    rw [ofType_scalar ht] at hlines hlabels hplaced'
    exact exists_matches_taken hnodup hsource hvalue hlines hσ (fun v => hσ.update hm hr v)
      (fun _ _ => rfl) hlabels hplaced' hnext
  | statement hvalue =>
    obtain ⟨computed, p₂, hcomputed, rfl⟩ := instruction_value hvalue hrun
    rw [hvalue.execute_eq] at hnext
    exact exists_matches_taken hnodup hvalue hcomputed hlines hσ (fun _ => hσ)
      (fun _ _ => rfl) hlabels hplaced' hnext
  | @branch condition l hcondition htarget =>
    obtain ⟨j, hj⟩ := Graph.exists_index_of_has htarget
    obtain ⟨q, pcj, pj, hq, hplacedj, hreachj⟩ := target hj
    rw [Graph.execute] at hnext
    rcases reaches_branch hnodup hcondition hrun hlines hσ hq [] with
      ⟨v, hv, hreach⟩ | ⟨hv, hreach⟩
    · rw [hv] at hnext
      by_cases hzero : v = 0
      · rw [if_pos hzero] at hreach
        simp only [if_pos hzero] at hnext
        obtain rfl := Option.some.inj hnext
        obtain ⟨t, hmatches, hrest⟩ := matches_next hσ hlabels hplaced'
        exact ⟨t, hmatches, Relation.TransGen.trans_left hreach hrest⟩
      · rw [if_neg hzero] at hreach
        simp only [if_neg hzero, hj] at hnext
        obtain rfl := Option.some.inj hnext
        exact ⟨_, .running hplacedj hσ, Relation.TransGen.trans_left hreach hreachj⟩
    · rw [hv] at hnext
      obtain rfl := Option.some.inj hnext
      exact ⟨_, .ended hσ, hreach⟩
  | @jump l htarget =>
    obtain ⟨j, hj⟩ := Graph.exists_index_of_has htarget
    obtain ⟨q, pcj, pj, hq, hplacedj, hreachj⟩ := target hj
    obtain ⟨rfl, -⟩ := ok_inj hrun
    rw [Graph.execute, hj] at hnext
    obtain rfl := Option.some.inj hnext
    have hstep := step_instruction [] slots hlines.head
    rw [execute_jump, hq] at hstep
    exact ⟨_, .running hplacedj hσ, reaches₁_of_step hstep hreachj⟩
  | retNothing =>
    obtain ⟨rfl, -⟩ := ok_inj hrun
    obtain rfl := Option.some.inj hnext
    exact ⟨_, .ended hσ, reaches₁_of_step (step_instruction [] slots hlines.head) .refl⟩
  | @retValue t x ht hx =>
    rcases instruction_ret hrun with ⟨-, -, hnone | rfl⟩ |
      ⟨y, loaded, p₂, hy, -, hloaded, rfl, -⟩
    · cases hnone
    · simp at ht
    obtain rfl := Option.some.inj hy
    obtain ⟨v, hv⟩ := hx.exists_value σ
    rw [Graph.execute, hv] at hnext
    obtain rfl := Option.some.inj hnext
    have hreach := reaches_load hx hloaded hlines.left hσ hv []
    have hstep := step_instruction [v] slots hlines.right.head
    rw [ofType_scalar ht] at hstep
    exact ⟨_, .ended hσ, reaches₁_of_reaches hreach hstep⟩

end Steps

/-- The two machines stay in step. -/
theorem respects (hm : ScalarMethod m) (hfresh : FreshLabels m) {deepest : Nat}
    (hbody : body u m = .ok (code, deepest)) :
    Respects (Graph.step m) (step code) (Matches u m code) := by
  intro a b hab
  cases hab with
  | ended hσ => exact rfl
  | @running i pc p σ slots hplaced hσ =>
    obtain ⟨next, hnext⟩ := Option.isSome_iff_exists.mp (hm.step_isSome i σ)
    rw [hnext]
    rw [Graph.step] at hnext
    rcases hi : m.instructions[i]? with - | instr
    · rw [hi] at hnext
      injection hnext with hnext
      subst hnext
      -- the graph has ended, so the machine is behind the last line
      have hlength : i = m.instructions.length :=
        Nat.le_antisymm hplaced.le (List.getElem?_eq_none_iff.mp hi)
      refine ⟨_, .ended hσ, reaches₁_of_step ?_ .refl⟩
      rw [step, hplaced.eq_length hlength, List.getElem?_eq_none le_rfl]
    · rw [hi] at hnext
      exact exists_matches_execute hm (labelNames_body_nodup hfresh hbody) hbody hplaced hσ hi
        hnext

/-! ### Methods -/

/-- The text of what stands in a method. -/
def Method.bodyText (a : Method) : String := String.join (a.body.map fun l => l.text ++ "\n")

/-- From the first labels on, the stack machine stays in step with the graph. -/
theorem reaches_first {deepest : Nat}
    (hbody : body u m = .ok (code, deepest)) (hσ : Holds m σ slots) :
    ∃ t, Matches u m code (.running 0 σ) t ∧ Reaches (step code) (.running 0 [] slots) t := by
  have hplaced := placed_zero hbody
  refine ⟨_, .running hplaced hσ, ?_⟩
  obtain ⟨start, hstart, hlabels⟩ := hplaced.labels
  obtain rfl : start = 0 := by omega
  have h := reaches_labels hlabels [] slots
  rwa [Nat.zero_add, ← List.length_map (f := Line.label)] at h

/-- What is emitted for a method on numbers and truth values, whose labels are
words and not those of comparisons, means what the method means: read back
from its text by the words of the machine, and run from registers that hold the
values of the variables, it comes to an outcome with some final values in the
registers if and only if the instructions of the graph come to it with these
values of the variables. -/
theorem emission_preserves_meaning {options : Options} {a : Method} (hm : ScalarMethod m)
    (hwritable : WritableLabels m) (hfresh : FreshLabels m)
    (h : Member.ofGraph options u m = .ok (.method a)) :
    ∃ code, readBody? a.bodyText = some code ∧
      ∀ σ slots, Holds m σ slots → ∀ o final,
        (∃ slots', Ends code slots o slots' ∧ Holds m final slots') ↔
        ∃ σ', Graph.Ends m σ o σ' ∧ ∀ x, (m.register? x).isSome → final x = σ' x := by
  obtain ⟨deepest, hbody, -⟩ := memberOfGraph_eq_ok h
  obtain ⟨p, hrun, -⟩ := body_eq_ok hbody
  refine ⟨a.body, readBody?_text (legible_bodyFrom hwritable hm.instructions hrun), ?_⟩
  intro σ slots hσ o final
  have hrespects := respects hm hfresh hbody
  obtain ⟨t, hmatches, hfirst⟩ := reaches_first hbody hσ
  have heval := reaches_eval hfirst
  constructor
  · rintro ⟨slots', hends, hfinal⟩
    rw [Ends, heval] at hends
    obtain ⟨b, hb, hends⟩ := tr_eval_rev hrespects hmatches hends
    cases hb with
    | @ended o σ' slots' hσ' =>
      refine ⟨σ', hends, ?_⟩
      intro x hx
      obtain ⟨r, hr⟩ := Option.isSome_iff_exists.mp hx
      rw [← hfinal x r hr, hσ' x r hr]
  · rintro ⟨σ', hends, hfinal⟩
    obtain ⟨b, hb, hends⟩ := tr_eval hrespects hmatches hends
    cases hb with
    | @ended o σ' slots' hσ' =>
      refine ⟨slots', by rwa [Ends, heval], ?_⟩
      intro x r hr
      rw [hσ' x r hr, hfinal x (by rw [hr]; rfl)]

/-! ### A method on numbers and truth values

    while (n > 0) { small = n < 10; n = n - 1; }
    return n;
-/

def counting : Graph.Method :=
  { Graph.Method.new "count" .int with
    parameters := [.named "n" .int]
    instructions :=
      [.branch (.binary (.comparison .le) (.named "n" .int) (.ofInt 0)) "done",
       .assign (.named "small" .boolean)
        (.binary (.comparison .lt) (.named "n" .int) (.ofInt 10)),
       .assign (.named "n" .int) (.binary (.arithmetic .sub) (.named "n" .int) (.ofInt 1)),
       .jump "loop",
       .ret .int (some (.named "n" .int))]
    labels := .ofList [("loop", 0), ("done", 4)]
    registers := .ofList [("n", ⟨1, .int⟩), ("small", ⟨2, .boolean⟩)] }

def countingCode : Method :=
  { access := .anyone, isStatic := false, isFinal := false, name := "count"
    parameters := [.int], result := .int, stackLimit := 2, localsLimit := 3
    body := [.label "loop"] ++
      Assembly.code [.load .int 1, .push (.short 0), .compareJump .le "done",
        .load .int 1, .push (.byte 10)] ++ compareLines .lt 0 ++
      Assembly.code [.store .int 2, .load .int 1, .push (.short 1), .arithmetic .sub, .store .int 1,
        .jump "loop"] ++ [.label "done"] ++ Assembly.code [.load .int 1, .returnValue .int] }

theorem scalarMethod_counting : ScalarMethod counting where
  distinct := by
    have hentries : counting.registers.entries =
        [("n", ⟨1, .int⟩), ("small", ⟨2, .boolean⟩)] := by decide
    have hregister : ∀ x r, counting.register? x = some r →
        (x, r) ∈ [("n", (1 : UInt16)), ("small", 2)] := by
      intro x r h
      obtain ⟨q, hq, rfl⟩ := Option.map_eq_some_iff.mp h
      have hmem := counting.registers.get?_eq_some_iff.mp hq
      rw [hentries] at hmem
      exact List.mem_map_of_mem (f := fun e => (e.1, e.2.number)) hmem
    intro x y r hx hy
    have hxr := hregister x r hx
    have hyr := hregister y r hy
    simp only [List.mem_cons, List.not_mem_nil, or_false, Prod.mk.injEq] at hxr hyr
    -- the two names have different registers
    rcases hxr with ⟨rfl, rfl⟩ | ⟨rfl, rfl⟩ <;> rcases hyr with ⟨rfl, h⟩ | ⟨rfl, h⟩
    · rfl
    · exact absurd h (by decide)
    · exact absurd h (by decide)
    · rfl
  labels := by
    intro l i h
    have hmem := counting.labels.get?_eq_some_iff.mp h
    have hentries : ∀ e ∈ counting.labels.entries, e.2 ≤ 5 := by decide
    exact hentries _ hmem
  instructions := by
    have hn : Operand.IsScalar (.named "n" .int) := ⟨by decide, Or.inl rfl⟩
    have hliteral : ∀ v, Operand.IsScalar (.ofInt v) := fun v => Or.inl rfl
    intro i hi
    simp only [counting, List.mem_cons, List.not_mem_nil, or_false] at hi
    rcases hi with rfl | rfl | rfl | rfl | rfl
    · exact .branch (.binary hn (hliteral 0)) (by decide)
    · exact .assign (Or.inr rfl) (.binary hn (hliteral 10))
    · exact .assign (Or.inl rfl) (.binary hn (hliteral 1))
    · exact .jump (by decide)
    · exact .retValue (Or.inl rfl) hn

theorem emission_preserves_counting :
    Member.ofGraph .standard (.new "Calc") counting = .ok (.method countingCode) ∧
    ∃ code, readBody? countingCode.bodyText = some code ∧
      ∀ σ slots, Holds counting σ slots → ∀ o final,
        (∃ slots', Ends code slots o slots' ∧ Holds counting final slots') ↔
        ∃ σ', Graph.Ends counting σ o σ' ∧
          ∀ x, (counting.register? x).isSome → final x = σ' x := by
  have hkeys : counting.labels.keys = ["done", "loop"] := by decide
  have hcode : Member.ofGraph .standard (.new "Calc") counting = .ok (.method countingCode) := rfl
  refine ⟨hcode, emission_preserves_meaning scalarMethod_counting ?_ ?_ hcode⟩
  · intro x hx
    rw [hkeys] at hx
    have table : ∀ x ∈ ["done", "loop"], ' ' ∉ x.toList ∧ '\n' ∉ x.toList := by decide
    exact ⟨(table x hx).1, (table x hx).2⟩
  · intro x hx
    rw [hkeys] at hx
    have table : ∀ x ∈ ["done", "loop"], ¬"cmp_".toList <+: x.toList := by decide
    exact fresh_of_not_prefix (table x hx)

end JavaMinus.Assembly
