/-
JavaMinus/Proofs/Assembly/Layout.lean

Where the lines of a method stand.

The lines of an instruction stand behind its labels, and the labels of the
next instruction stand behind them (`Placed`).  No label stands twice in a
method (`labelNames_body_nodup`): the labels of the graph have a name each,
those of comparisons a number each, and the two kinds are written differently
unless a label is named like one of a comparison (`Fresh`).
-/
import JavaMinus.Proofs.Assembly.Emission
import JavaMinus.Proofs.Assembly.Execution
import JavaMinus.Proofs.Reading

namespace JavaMinus.Assembly

open JavaMinus.Graph (ClassUnit Operand Operator ValueType)
open Machine

variable {u : ClassUnit} {m : Graph.Method} {p p' : Progress} {lines : List Line}

/-! ### Labels of comparisons -/

theorem whenTrue_injective {a b : Nat} (h : whenTrue a = whenTrue b) : a = b :=
  Reading.eq_of_repr_eq ((String.append_right_inj "cmp_true_").mp h)

theorem whenDone_injective {a b : Nat} (h : whenDone a = whenDone b) : a = b :=
  Reading.eq_of_repr_eq ((String.append_right_inj "cmp_end_").mp h)

theorem whenTrue_ne_whenDone (a b : Nat) : whenTrue a ≠ whenDone b := by
  intro h
  have hchars := congrArg String.toList (show "cmp_true_" ++ a.repr = "cmp_end_" ++ b.repr from h)
  rw [String.toList_append, String.toList_append] at hchars
  -- the words part at their fifth letters
  have hfifth : some 't' = some 'e' := congrArg (·[4]?) hchars
  exact absurd hfifth (by decide)

/-- A label that is not one of a comparison. -/
def Fresh (x : String) : Prop := ∀ n, x ≠ whenTrue n ∧ x ≠ whenDone n

/-- The labels of comparisons begin alike. -/
theorem fresh_of_not_prefix {x : String} (h : ¬"cmp_".toList <+: x.toList) : Fresh x := by
  intro n
  refine ⟨?_, ?_⟩
  · rintro rfl
    refine h ⟨"true_".toList ++ n.repr.toList, ?_⟩
    show _ = ("cmp_true_" ++ n.repr).toList
    rw [String.toList_append]
    rfl
  · rintro rfl
    refine h ⟨"end_".toList ++ n.repr.toList, ?_⟩
    show _ = ("cmp_end_" ++ n.repr).toList
    rw [String.toList_append]
    rfl

/-- The label is one of a comparison whose number lies from the first on up to
the second. -/
def IsComparisonLabel (lo hi : Nat) (x : String) : Prop :=
  ∃ n, lo ≤ n ∧ n < hi ∧ (x = whenTrue n ∨ x = whenDone n)

/-! ### Jumps -/

/-- The label that an instruction may jump to. -/
def Instruction.target? : Instruction → Option String
  | compareJump _ target | trueJump target | jump target => some target
  | _ => none

/-- The label that an instruction of the graph may jump to. -/
def targetOf? : Graph.Instruction → Option String
  | .branch _ target | .jump target => some target
  | _ => none

/-- The labels that instructions jump to, one after the other. -/
def jumps (is : List Instruction) : List String := is.filterMap Instruction.target?

theorem jumps_append (is is' : List Instruction) : jumps (is ++ is') = jumps is ++ jumps is' :=
  List.filterMap_append

theorem jumps_append_eq_nil {is is' : List Instruction} (h : jumps is = []) (h' : jumps is' = []) :
    jumps (is ++ is') = [] := by
  rw [jumps_append, h, h', List.append_nil]

/-- The instruction of the graph is a comparison. -/
def isComparison : Graph.Instruction → Bool
  | .binary op _ _ => op.isComparison
  | _ => false

/-- The instruction of the graph uses a comparison as a value. -/
def keepsComparison : Graph.Instruction → Bool
  | .assign _ source => isComparison source
  | i => isComparison i

/-! ### What is emitted for an instruction -/

/-- What is emitted is a row of instructions, or such a row around a single
comparison that is kept.  Where it jumps to beside the labels of the comparison
stands at its end. -/
inductive Emitted (p p' : Progress) (targets : List String) : Bool → List Line → Prop
  | plain (is : List Instruction) : is ≠ [] → jumps is = targets →
      p'.comparisons = p.comparisons → Emitted p p' targets false (code is)
  | compared (is is' : List Instruction) (op : Comparison) : jumps is = [] →
      jumps is' = targets → p'.comparisons = p.comparisons + 1 →
      Emitted p p' targets true (code is ++ compareLines op p.comparisons ++ code is')

theorem code_append (is is' : List Instruction) : code (is ++ is') = code is ++ code is' :=
  List.map_append

variable {kept : Bool} {targets : List String}

/-- Instructions on both sides do not count, and those behind may jump. -/
theorem Emitted.around {q q' : Progress} (h : Emitted p p' [] kept lines)
    (hq : q.comparisons = p.comparisons) (hq' : q'.comparisons = p'.comparisons)
    {before : List Instruction} (hbefore : jumps before = []) (after : List Instruction) :
    Emitted q q' (jumps after) kept (code before ++ lines ++ code after) := by
  cases h with
  | plain is hne his hp =>
    rw [← code_append, ← code_append]
    refine .plain _ (by simp [hne]) ?_ (by rw [hq', hp, hq])
    rw [jumps_append, jumps_append, hbefore, his]
    rfl
  | compared is is' op his his' hp =>
    have hlines :
        code before ++ (code is ++ compareLines op p.comparisons ++ code is') ++ code after =
          code (before ++ is) ++ compareLines op q.comparisons ++ code (is' ++ after) := by
      rw [hq, code_append, code_append]
      simp only [List.append_assoc]
    rw [hlines]
    refine .compared _ _ op (jumps_append_eq_nil hbefore his) ?_ (by rw [hq', hp, hq])
    rw [jumps_append, his']
    rfl

theorem Emitted.before {q' : Progress} (h : Emitted p p' [] kept lines)
    (hq' : q'.comparisons = p'.comparisons) (after : List Instruction) :
    Emitted p q' (jumps after) kept (lines ++ code after) :=
  h.around rfl hq' (show jumps [] = [] from rfl) after

theorem load_emitted {x : Operand} (h : (load m x).run p = .ok (lines, p')) :
    ∃ is, lines = code is ∧ is ≠ [] ∧ jumps is = [] ∧ p'.comparisons = p.comparisons := by
  induction x generalizing p p' lines with
  | literal v t =>
    obtain ⟨rfl, rfl⟩ := load_literal h
    exact ⟨_, rfl, List.cons_ne_nil _ _, rfl, rfl⟩
  | named x t =>
    obtain ⟨family, r, rfl, rfl, -⟩ := load_named h
    exact ⟨_, rfl, List.cons_ne_nil _ _, rfl, rfl⟩
  | element array index t ih =>
    obtain ⟨r, position, p₁, hposition, rfl, rfl, -⟩ := load_element h
    obtain ⟨is, rfl, -, his, hp⟩ := ih hposition
    refine ⟨_, by rw [← code_append, ← code_append], by simp, ?_, hp⟩
    exact jumps_append_eq_nil (jumps_append_eq_nil rfl his) rfl

theorem loadAll_emitted {xs : List Operand} (h : (loadAll m xs).run p = .ok (lines, p')) :
    ∃ is, lines = code is ∧ jumps is = [] ∧ p'.comparisons = p.comparisons := by
  induction xs generalizing p p' lines with
  | nil =>
    obtain ⟨rfl, rfl⟩ := ok_inj h
    exact ⟨[], rfl, rfl, rfl⟩
  | cons x rest ih =>
    obtain ⟨first, more, p₁, hfirst, hmore, rfl⟩ := loadAll_cons h
    obtain ⟨is, rfl, -, his, hp⟩ := load_emitted hfirst
    obtain ⟨is', rfl, his', hp'⟩ := ih hmore
    exact ⟨is ++ is', (code_append ..).symm, jumps_append_eq_nil his his', hp'.trans hp⟩

theorem invoke_emitted {mode : CallMode} {c : Graph.Call} {left : Nat}
    (h : (invoke u m mode c).run p = .ok ((lines, left), p')) :
    ∃ is, lines = code is ∧ is ≠ [] ∧ jumps is = [] ∧ p'.comparisons = p.comparisons := by
  obtain ⟨method, operands, p₁, hoperands, rfl, -, -, -, rfl⟩ := invoke_eq_ok h
  obtain ⟨is, rfl, his, hp⟩ := loadAll_emitted hoperands
  refine ⟨is ++ [.invoke mode method], (code_append ..).symm, by simp,
    jumps_append_eq_nil his rfl, ?_⟩
  split <;> exact hp

theorem call_emitted {c : Graph.Call} {left : Nat}
    (h : (call u m c).run p = .ok ((lines, left), p')) :
    ∃ is, lines = code is ∧ is ≠ [] ∧ jumps is = [] ∧ p'.comparisons = p.comparisons := by
  rw [call] at h
  split at h
  case h_1 =>
    rcases allocate_eq_ok h with ⟨name, -, rfl, -, rfl⟩ | ⟨_, size, loaded, -, hloaded, rfl, -⟩
    · exact ⟨_, rfl, List.cons_ne_nil _ _, rfl, rfl⟩
    · obtain ⟨is, rfl, -, his, hp⟩ := load_emitted hloaded
      exact ⟨is ++ [.newIntArray], (code_append ..).symm, by simp,
        jumps_append_eq_nil his rfl, hp⟩
  case h_2 =>
    obtain ⟨loaded, p₁, hloaded, h⟩ := run_bind_eq_ok h
    obtain ⟨rfl, rfl, rfl⟩ := ok_inj' h
    obtain ⟨is, rfl, -, his, hp⟩ := load_emitted hloaded
    exact ⟨is ++ [.arrayLength], (code_append ..).symm, by simp, jumps_append_eq_nil his rfl, hp⟩
  case h_3 | h_4 | h_5 => exact invoke_emitted h

/-- A value is computed without jumps but for those of a comparison. -/
theorem value_emitted {i : Graph.Instruction} (h : (value u m i).run p = .ok (lines, p')) :
    Emitted p p' [] (isComparison i) lines := by
  cases i with
  | single x =>
    obtain ⟨is, rfl, hne, his, hp⟩ := load_emitted h
    exact .plain is hne his hp
  | binary op left right =>
    obtain ⟨x, y, z, p₁, p₂, hx, hy, hz, rfl⟩ := value_binary h
    obtain ⟨is, rfl, -, his, hp⟩ := load_emitted hx
    obtain ⟨is', rfl, -, his', hp'⟩ := load_emitted hy
    have hoperands := jumps_append_eq_nil his his'
    rw [← code_append]
    cases op with
    | arithmetic op =>
      obtain ⟨rfl, rfl⟩ := operate_arithmetic hz
      rw [← code_append]
      exact .plain _ (by simp) (jumps_append_eq_nil hoperands rfl) (hp'.trans hp)
    | connective op =>
      obtain ⟨rfl, rfl⟩ := operate_connective hz
      rw [← code_append]
      exact .plain _ (by simp) (jumps_append_eq_nil hoperands rfl) (hp'.trans hp)
    | comparison op =>
      obtain ⟨rfl, rfl⟩ := operate_comparison hz
      rw [hp', hp]
      have hcompared : Emitted p (p₂.compare.shrink 1) [] true
          (code (is ++ is') ++ compareLines op p.comparisons ++ code []) :=
        .compared _ _ op hoperands rfl (by
          show p₂.comparisons + 1 = _
          rw [hp', hp])
      rwa [show code [] = [] from rfl, List.append_nil] at hcompared
  | call c =>
    obtain ⟨-, left, h⟩ := value_call h
    obtain ⟨is, rfl, hne, his, hp⟩ := call_emitted h
    exact .plain is hne his hp
  | getField object field =>
    obtain ⟨x, f, hx, rfl⟩ := value_getField h
    obtain ⟨is, rfl, -, his, hp⟩ := load_emitted hx
    rw [← code_append]
    exact .plain _ (by simp) (jumps_append_eq_nil his rfl) hp
  | assign | ret | putField | branch | jump => nomatch h

/-- The only labels that an instruction jumps to beside those of a comparison that
is kept is the one that the instruction of the graph names. -/
theorem instruction_emitted {i : Graph.Instruction}
    (h : (instruction u m i).run p = .ok (lines, p')) :
    Emitted p p' (targetOf? i).toList (keepsComparison i) lines := by
  cases i with
  | assign target source =>
    have h : (assign u m source target).run p = .ok (lines, p') := h
    cases target with
    | literal v t => nomatch h
    | named x t =>
      obtain ⟨computed, r, p₁, hvalue, -, rfl, rfl⟩ := assign_named h
      exact (value_emitted hvalue).before (by rfl) [.store (.ofType t) r]
    | element array index t =>
      obtain ⟨r, position, computed, p₁, p₂, hposition, hvalue, rfl, rfl, -⟩ := assign_element h
      obtain ⟨is, rfl, -, his, hp⟩ := load_emitted hposition
      rw [← code_append]
      exact (value_emitted hvalue).around (by exact hp.symm) (by rfl)
        (jumps_append_eq_nil (show jumps [_] = [] from rfl) his) [.elementStore (.ofType t)]
  | call c =>
    obtain ⟨called, left, p₁, hcall, rfl, rfl⟩ := instruction_call h
    obtain ⟨is, rfl, hne, his, hp⟩ := call_emitted hcall
    rw [← code_append]
    refine .plain _ (by simp [hne]) (jumps_append_eq_nil his ?_) hp
    exact List.filterMap_eq_nil_iff.mpr fun i hi => by rw [List.eq_of_mem_replicate hi]; rfl
  | ret t x =>
    rcases instruction_ret h with ⟨rfl, rfl, -⟩ | ⟨y, loaded, p₁, -, -, hloaded, rfl, rfl⟩
    · exact .plain _ (List.cons_ne_nil _ _) rfl rfl
    · obtain ⟨is, rfl, -, his, hp⟩ := load_emitted hloaded
      rw [← code_append]
      exact .plain _ (by simp) (jumps_append_eq_nil his rfl) hp
  | putField object field x =>
    obtain ⟨first, second, f, p₁, p₂, hfirst, hsecond, rfl, rfl⟩ := instruction_putField h
    obtain ⟨is, rfl, -, his, hp⟩ := load_emitted hfirst
    obtain ⟨is', rfl, -, his', hp'⟩ := load_emitted hsecond
    rw [← code_append, ← code_append]
    exact .plain _ (by simp) (jumps_append_eq_nil (jumps_append_eq_nil his his') rfl) (hp'.trans hp)
  | branch condition target =>
    have h : (branch u m target condition).run p = .ok (lines, p') := h
    rcases branch_eq_ok h with ⟨op, left, right, x, y, p₁, p₂, rfl, hx, hy, rfl, rfl⟩ |
      ⟨computed, p₁, hne, hvalue, rfl, rfl⟩
    · obtain ⟨is, rfl, -, his, hp⟩ := load_emitted hx
      obtain ⟨is', rfl, -, his', hp'⟩ := load_emitted hy
      rw [← code_append, ← code_append]
      refine .plain _ (by simp) ?_ (hp'.trans hp)
      rw [jumps_append, jumps_append_eq_nil his his']
      rfl
    -- a comparison would have been branched on
    · have hkept : isComparison condition = false := by
        cases condition with
        | binary op left right =>
          cases op with
          | comparison op => exact absurd rfl (hne op left right)
          | arithmetic op => rfl
          | connective op => rfl
        | _ => rfl
      have hcondition : Emitted p (p₁.shrink 1) [target] (isComparison condition) _ :=
        (value_emitted hvalue).before (by rfl) [.trueJump target]
      rw [hkept] at hcondition
      exact hcondition
  | jump target =>
    obtain ⟨rfl, rfl⟩ := ok_inj h
    exact .plain _ (List.cons_ne_nil _ _) rfl rfl
  | single | binary | getField =>
    obtain ⟨computed, p₁, hvalue, rfl, rfl⟩ :=
      instruction_dropped (by exact trivial) h
    exact (value_emitted hvalue).before (by rfl) [.pop]

theorem labelNames_compareLines (op : Comparison) (n : Nat) :
    labelNames (compareLines op n) = [whenTrue n, whenDone n] := rfl

theorem Emitted.labels (h : Emitted p p' targets kept lines) :
    p.comparisons ≤ p'.comparisons ∧ (labelNames lines).Nodup ∧
      ∀ x ∈ labelNames lines, IsComparisonLabel p.comparisons p'.comparisons x := by
  cases h with
  | plain is _ _ hp =>
    rw [labelNames_code]
    exact ⟨hp.ge, List.nodup_nil, by simp⟩
  | compared is is' op _ _ hp =>
    rw [labelNames_append, labelNames_append, labelNames_code, labelNames_code, List.nil_append,
      List.append_nil, labelNames_compareLines]
    refine ⟨by omega, ?_, ?_⟩
    · simp [whenTrue_ne_whenDone]
    · intro x hx
      refine ⟨p.comparisons, le_rfl, by omega, ?_⟩
      simpa using hx

/-! ### Labels of the graph -/

theorem labelNames_labels (k : Nat) : labelNames (labels m k) = m.labelsAt k := by
  rw [labels, labelNames, List.filterMap_map]
  exact List.filterMap_some

theorem mem_labelsAt {x : String} {k : Nat} :
    x ∈ m.labelsAt k ↔ m.labels.get? x = some k := by
  rw [Listing.get?_eq_some_iff, Graph.Method.labelsAt, List.mem_map]
  constructor
  · rintro ⟨⟨y, i⟩, hmem, rfl⟩
    obtain ⟨hentry, hi⟩ := List.mem_filter.mp hmem
    obtain rfl : i = k := eq_of_beq hi
    exact hentry
  · intro hmem
    exact ⟨(x, k), List.mem_filter.mpr ⟨hmem, beq_self_eq_true k⟩, rfl⟩

theorem labelsAt_nodup (k : Nat) : (m.labelsAt k).Nodup :=
  m.labels.keys_nodup.sublist (List.filter_sublist.map _)

/-- The labels of the graph are not those of comparisons. -/
def FreshLabels (m : Graph.Method) : Prop := ∀ x ∈ m.labels.keys, Fresh x

theorem FreshLabels.of_get? (h : FreshLabels m) {x : String} {k : Nat}
    (hx : m.labels.get? x = some k) : Fresh x :=
  h x (List.mem_map_of_mem (m.labels.get?_eq_some_iff.mp hx))

/-- No label stands twice in what is emitted from an index on. -/
theorem labelNames_bodyFrom (hfresh : FreshLabels m) {k : Nat} {is : List Graph.Instruction}
    (h : (bodyFrom u m k is).run p = .ok (lines, p')) :
    p.comparisons ≤ p'.comparisons ∧ (labelNames lines).Nodup ∧
      ∀ x ∈ labelNames lines, (∃ i, k ≤ i ∧ m.labels.get? x = some i) ∨
        IsComparisonLabel p.comparisons p'.comparisons x := by
  induction is generalizing k p lines with
  | nil =>
    obtain ⟨rfl, rfl⟩ := ok_inj h
    rw [labelNames_labels]
    exact ⟨le_rfl, labelsAt_nodup k, fun x hx => Or.inl ⟨k, le_rfl, mem_labelsAt.mp hx⟩⟩
  | cons i rest ih =>
    obtain ⟨first, more, p₁, hfirst, hmore, rfl⟩ := bodyFrom_cons h
    obtain ⟨hle, hnodup, hnames⟩ := (instruction_emitted hfirst).labels
    obtain ⟨hle', hnodup', hnames'⟩ := ih hmore
    rw [labelNames_append, labelNames_append, labelNames_labels]
    -- the labels of the graph are apart by their index, those of comparisons by their number
    refine ⟨hle.trans hle', ?_, ?_⟩
    · refine ((labelsAt_nodup k).append hnodup ?_).append hnodup' ?_
      · intro x hx hx'
        obtain ⟨n, -, -, hn⟩ := hnames x hx'
        have := hfresh.of_get? (mem_labelsAt.mp hx) n
        exact hn.elim this.1 this.2
      · intro x hx hx'
        rcases List.mem_append.mp hx with hx | hx
        · have hk := mem_labelsAt.mp hx
          rcases hnames' x hx' with ⟨j, hj, hget⟩ | ⟨n, -, -, hn⟩
          · obtain rfl : k = j := Option.some.inj (hk.symm.trans hget)
            omega
          · have := hfresh.of_get? hk n
            exact hn.elim this.1 this.2
        · obtain ⟨n, -, hlt, hn⟩ := hnames x hx
          rcases hnames' x hx' with ⟨j, -, hget⟩ | ⟨n', hge, -, hn'⟩
          · have := hfresh.of_get? hget n
            exact hn.elim this.1 this.2
          · rcases hn with rfl | rfl <;> rcases hn' with hn' | hn'
            · have := whenTrue_injective hn'
              omega
            · exact whenTrue_ne_whenDone _ _ hn'
            · exact whenTrue_ne_whenDone _ _ hn'.symm
            · have := whenDone_injective hn'
              omega
    · intro x hx
      rcases List.mem_append.mp hx with hx | hx
      · rcases List.mem_append.mp hx with hx | hx
        · exact Or.inl ⟨k, le_rfl, mem_labelsAt.mp hx⟩
        · obtain ⟨n, hge, hlt, hn⟩ := hnames x hx
          exact Or.inr ⟨n, hge, by omega, hn⟩
      · rcases hnames' x hx with ⟨j, hj, hget⟩ | ⟨n, hge, hlt, hn⟩
        · exact Or.inl ⟨j, by omega, hget⟩
        · exact Or.inr ⟨n, by omega, hlt, hn⟩

/-! ### Places of instructions -/

/-- The instruction of the index stands at the position, emitted from the
given counts: its labels stand in front of the position, and what is emitted
from the instruction on stands behind it. -/
structure Placed (u : ClassUnit) (m : Graph.Method) (code : List Line) (i pc : Nat)
    (p : Progress) : Prop where
  le : i ≤ m.instructions.length
  front : ∃ before, (bodyFrom u m 0 (m.instructions.take i)).run ⟨.empty, 0⟩ = .ok (before, p) ∧
    CodeAt code 0 before ∧ pc = before.length
  labels : ∃ start, pc = start + (Assembly.labels m i).length ∧
    CodeAt code start (Assembly.labels m i)
  rest : ∃ rest p', (bodyFrom u m i (m.instructions.drop i)).run p =
    .ok (Assembly.labels m i ++ rest, p') ∧ CodeAt code pc rest ∧ pc + rest.length = code.length

/-- What is emitted begins with the labels of the first index. -/
theorem exists_labels_append {k : Nat} {is : List Graph.Instruction}
    (h : (bodyFrom u m k is).run p = .ok (lines, p')) : ∃ rest, lines = labels m k ++ rest := by
  cases is with
  | nil =>
    obtain ⟨rfl, rfl⟩ := ok_inj h
    exact ⟨[], (List.append_nil _).symm⟩
  | cons i rest =>
    obtain ⟨first, more, p₁, -, -, rfl⟩ := bodyFrom_cons h
    exact ⟨first ++ more, List.append_assoc ..⟩

/-- An instruction behind others is emitted behind them, and its labels in
front of it. -/
theorem bodyFrom_concat {k : Nat} {is : List Graph.Instruction} {i : Graph.Instruction}
    {p₁ : Progress} {first : List Line} (h : (bodyFrom u m k is).run p = .ok (lines, p'))
    (hi : (instruction u m i).run p' = .ok (first, p₁)) :
    (bodyFrom u m k (is ++ [i])).run p =
      .ok (lines ++ first ++ labels m (k + is.length + 1), p₁) := by
  induction is generalizing k p lines with
  | nil =>
    obtain ⟨rfl, rfl⟩ := ok_inj h
    rw [List.nil_append, bodyFrom, run_bind_ok hi]
    rfl
  | cons j rest ih =>
    obtain ⟨first', more, p₂, hfirst, hmore, rfl⟩ := bodyFrom_cons h
    rw [List.cons_append, bodyFrom, run_bind_ok hfirst, run_bind_ok (ih hmore)]
    rw [List.length_cons, show k + 1 + rest.length + 1 = k + (rest.length + 1) + 1 by omega]
    show Except.ok (_, p₁) = Except.ok (_, p₁)
    simp only [List.append_assoc]

variable {code : List Line} {i pc : Nat}

/-- The first instruction stands behind the first labels. -/
theorem placed_zero {deepest : Nat} (h : body u m = .ok (code, deepest)) :
    Placed u m code 0 (labels m 0).length ⟨.empty, 0⟩ := by
  obtain ⟨p', hrun, -⟩ := body_eq_ok h
  obtain ⟨rest, rfl⟩ := exists_labels_append hrun
  have hself := codeAt_self (labels m 0 ++ rest)
  refine ⟨Nat.zero_le _, ⟨labels m 0, rfl, hself.left, rfl⟩,
    ⟨0, (Nat.zero_add _).symm, hself.left⟩, rest, p', hrun, ?_, (List.length_append ..).symm⟩
  simpa using hself.right

/-- The lines of an instruction stand where it is placed, and behind them the
labels and the place of the next one. -/
theorem Placed.next {instr : Graph.Instruction} (h : Placed u m code i pc p)
    (hi : m.instructions[i]? = some instr) :
    ∃ lines p₁, (instruction u m instr).run p = .ok (lines, p₁) ∧ CodeAt code pc lines ∧
      CodeAt code (pc + lines.length) (Assembly.labels m (i + 1)) ∧
      Placed u m code (i + 1) (pc + lines.length + (Assembly.labels m (i + 1)).length) p₁ := by
  obtain ⟨hlt, hget⟩ := List.getElem?_eq_some_iff.mp hi
  obtain ⟨before, hbefore, hbeforeCode, hpc⟩ := h.front
  obtain ⟨rest, p', hrun, hcode, hlength⟩ := h.rest
  have hdrop : m.instructions.drop i = instr :: m.instructions.drop (i + 1) := by
    rw [List.drop_eq_getElem_cons hlt, hget]
  have htake : m.instructions.take (i + 1) = m.instructions.take i ++ [instr] := by
    rw [List.take_succ_eq_append_getElem hlt, hget]
  rw [hdrop] at hrun
  obtain ⟨lines, more, p₁, hfirst, hmore, hlines⟩ := bodyFrom_cons hrun
  -- the rest begins with the labels of the next instruction
  obtain ⟨rest', rfl⟩ := exists_labels_append hmore
  rw [List.append_assoc] at hlines
  obtain rfl := List.append_cancel_left hlines
  refine ⟨lines, p₁, hfirst, hcode.left, hcode.right.left, ?_⟩
  have hfront := bodyFrom_concat hbefore hfirst
  rw [← htake, List.length_take, Nat.min_eq_left h.le, Nat.zero_add] at hfront
  refine ⟨hlt, ⟨_, hfront, (hbeforeCode.append ?_).append ?_, ?_⟩, ⟨_, rfl, hcode.right.left⟩,
    rest', p', hmore, hcode.right.right, ?_⟩
  · rw [Nat.zero_add, ← hpc]
    exact hcode.left
  · rw [Nat.zero_add, List.length_append, ← hpc]
    exact hcode.right.left
  · rw [List.length_append, List.length_append, hpc]
  · rw [← hlength, List.length_append, List.length_append]
    omega

/-- Behind the last instruction the code ends. -/
theorem Placed.eq_length (h : Placed u m code i pc p) (hi : i = m.instructions.length) :
    pc = code.length := by
  obtain ⟨rest, p', hrun, -, hlength⟩ := h.rest
  rw [hi, List.drop_length] at hrun
  obtain ⟨hrest, -⟩ := ok_inj hrun
  obtain rfl : rest = [] := List.append_cancel_left (hrest.trans (List.append_nil _).symm)
  exact hlength

/-- Every instruction has a place, and so has the end of the method. -/
theorem exists_placed {deepest : Nat} (h : body u m = .ok (code, deepest)) {i : Nat}
    (hi : i ≤ m.instructions.length) : ∃ pc p, Placed u m code i pc p := by
  induction i with
  | zero => exact ⟨_, _, placed_zero h⟩
  | succ i ih =>
    obtain ⟨pc, p, hplaced⟩ := ih (Nat.le_of_succ_le hi)
    obtain ⟨lines, p₁, -, -, -, hnext⟩ := hplaced.next (List.getElem?_eq_getElem hi)
    exact ⟨_, _, hnext⟩

theorem labelNames_body_nodup {deepest : Nat} (hfresh : FreshLabels m)
    (h : body u m = .ok (code, deepest)) : (labelNames code).Nodup := by
  obtain ⟨p, hrun, -⟩ := body_eq_ok h
  exact (labelNames_bodyFrom hfresh hrun).2.1

end JavaMinus.Assembly
