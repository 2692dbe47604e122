/-
JavaMinus/Proofs/Assembly/Balance.lean

The operand stack of what is emitted.

Between the instructions of the graph the stack is empty, but for one place:
when a new object has been put into a variable, a second reference to it is
still there for its constructor (`entryHeight`).  Every piece that is emitted
fits to that, and so the heights of the text are the heights on every path.

Main statement: no path takes a value from the stack that is not there, the
height at a line is the same on all paths, and the depth that is named in the
head of the method is the greatest height (`stack_is_balanced`).
-/
import JavaMinus.Proofs.Assembly.Heights

namespace JavaMinus.Assembly

open JavaMinus.Graph (ClassUnit Operand Operator ValueType)
open Machine Relation

variable {u : ClassUnit} {m : Graph.Method} {p p' : Progress} {lines : List Line} {b : Nat}

/-! ### Values -/

theorem flows_load {x : Operand} (h : (load m x).run p = .ok (lines, p')) :
    Flows p p' b (b + 1) lines := by
  induction x generalizing p p' lines b with
  | literal v t =>
    obtain ⟨rfl, rfl⟩ := load_literal h
    exact flows_grow rfl rfl (Nat.zero_le _) rfl
  | named x t =>
    obtain ⟨family, r, rfl, rfl, -⟩ := load_named h
    exact flows_grow rfl rfl (Nat.zero_le _) rfl
  | element array index t ih =>
    obtain ⟨r, position, p₁, hposition, rfl, rfl, -⟩ := load_element h
    have harray : Flows p (p.grow 1) b (b + 1) (code [.load .reference r]) :=
      flows_grow rfl rfl (Nat.zero_le _) rfl
    have hread : Flows p₁ (p₁.shrink 1) (b + 1 + 1) (b + 1) (code [.elementLoad (.ofType t)]) :=
      flows_shrink rfl rfl (Nat.le_add_left ..) rfl
    exact (harray.append (ih hposition)).append hread

theorem flows_operate {op : Operator} (h : (operate op).run p = .ok (lines, p')) :
    Flows p p' (b + 2) (b + 1) lines := by
  cases op with
  | arithmetic op =>
    obtain ⟨rfl, rfl⟩ := operate_arithmetic h
    exact flows_shrink rfl rfl (Nat.le_add_left ..) rfl
  | connective op =>
    obtain ⟨rfl, rfl⟩ := operate_connective h
    exact flows_shrink rfl rfl (Nat.le_add_left ..) rfl
  | comparison op =>
    obtain ⟨rfl, rfl⟩ := operate_comparison h
    exact flows_compareLines op _

/-! ### Calls -/

theorem flows_loadAll {xs : List Operand} (h : (loadAll m xs).run p = .ok (lines, p')) :
    Flows p p' b (b + xs.length) lines := by
  induction xs generalizing p p' lines b with
  | nil =>
    obtain ⟨rfl, rfl⟩ := ok_inj h
    exact flows_nil
  | cons x rest ih =>
    obtain ⟨first, more, p₁, hfirst, hmore, rfl⟩ := loadAll_cons h
    have hrest : Flows p₁ p' (b + 1) (b + (rest.length + 1)) more := by
      rw [show b + (rest.length + 1) = b + 1 + rest.length by omega]
      exact ih hmore
    exact (flows_load hfirst).append hrest

/-- A call takes its operands and leaves its result. -/
theorem flows_invoke {mode : CallMode} {c : Graph.Call} {left : Nat}
    (h : (invoke u m mode c).run p = .ok ((lines, left), p')) :
    Flows p p' b (b + left) lines := by
  obtain ⟨method, operands, p₁, hoperands, rfl, hparameters, hresult, rfl, rfl⟩ := invoke_eq_ok h
  have hpops : (Instruction.invoke mode method).pops = (operandsOf mode c).length := by
    rw [Instruction.pops, operandsOf, hparameters, List.length_append]
    split <;> rfl
  have hpushes : (Instruction.invoke mode method).pushes = resultCount c.result := by
    simp only [Instruction.pushes, resultCount, hresult]
  refine (flows_loadAll hoperands).append (flows_single rfl ?_ ?_ ?_ ?_)
  · rw [hpops]
    exact Nat.le_add_left ..
  · rw [hpops, hpushes, Nat.add_sub_cancel]
  · rintro l ⟨⟩
  · rw [resultCount]
    split
    case isTrue =>
      have htracks := tracks_shrink (p := p₁) (b := b + (operandsOf mode c).length)
        (operandsOf mode c).length
      rwa [Nat.add_sub_cancel] at htracks
    case isFalse =>
      have htracks := tracks_replace (p := p₁) (b := b + (operandsOf mode c).length)
        (operandsOf mode c).length 1
      rwa [Nat.add_sub_cancel] at htracks

/-- The call makes an object of a class. -/
def makesObject (c : Graph.Call) : Bool :=
  c.kind == .new && (match c.caller.type with | .object _ => true | _ => false)

/-- How many values a call leaves.  A new object is left twice. -/
def leftBy (c : Graph.Call) : Nat :=
  match c.kind with
  | .new => if makesObject c then 2 else 1
  | .arrayLength => 1
  | .static | .special | .virtual => resultCount c.result

theorem flows_call {c : Graph.Call} {left : Nat}
    (h : (call u m c).run p = .ok ((lines, left), p')) :
    left = leftBy c ∧ Flows p p' b (b + leftBy c) lines := by
  -- the height is that of the call, and it is `leftBy` in each case
  suffices left = leftBy c ∧ Flows p p' b (b + left) lines by
    obtain ⟨hleft, hflows⟩ := this
    exact ⟨hleft, hleft ▸ hflows⟩
  rw [call] at h
  split at h
  case h_1 hkind =>
    rcases allocate_eq_ok h with ⟨name, hcaller, rfl, rfl, rfl⟩ |
      ⟨element, size, loaded, hcaller, hloaded, rfl, rfl, -⟩
    · refine ⟨by simp [leftBy, makesObject, hkind, hcaller], ?_⟩
      have hnew : Flows p (p.grow 1) b (b + 1) (code [.newObject (u.internalName name)]) :=
        flows_grow rfl rfl (Nat.zero_le _) rfl
      have hdup : Flows (p.grow 1) (p.grow 2) (b + 1) (b + 2) (code [.dup]) := by
        rw [← Progress.grow_grow p 1 1]
        exact flows_grow rfl rfl (Nat.le_add_left ..) rfl
      exact hnew.append hdup
    · refine ⟨by simp [leftBy, makesObject, hkind, hcaller], ?_⟩
      exact (flows_load hloaded).append (flows_keep rfl rfl (Nat.le_add_left ..) rfl)
  case h_2 hkind =>
    obtain ⟨loaded, p₁, hloaded, h⟩ := run_bind_eq_ok h
    obtain ⟨rfl, rfl, rfl⟩ := ok_inj' h
    refine ⟨by simp [leftBy, hkind], ?_⟩
    exact (flows_load hloaded).append (flows_keep rfl rfl (Nat.le_add_left ..) rfl)
  case h_3 hkind | h_4 hkind | h_5 hkind =>
    have hflows := flows_invoke (b := b) h
    obtain ⟨-, -, -, -, -, -, -, hleft, -⟩ := invoke_eq_ok h
    exact ⟨by rw [hleft, leftBy, hkind], hflows⟩

/-! ### Instructions -/

/-- The instruction makes an object of a class. -/
def makes : Graph.Instruction → Bool
  | .call c => makesObject c
  | _ => false

theorem flows_value {i : Graph.Instruction} (h : (value u m i).run p = .ok (lines, p')) :
    Flows p p' b (b + if makes i then 2 else 1) lines := by
  cases i with
  | single x => exact flows_load h
  | binary op left right =>
    obtain ⟨x, y, z, p₁, p₂, hx, hy, hz, rfl⟩ := value_binary h
    exact ((flows_load hx).append (flows_load hy)).append (flows_operate hz)
  | call c =>
    obtain ⟨hvoid, left, h⟩ := value_call h
    obtain ⟨-, hflows⟩ := flows_call (b := b) h
    -- a value is left by every call that is not `void`, and a new object twice
    have hleft : leftBy c = if makesObject c then 2 else 1 := by
      rw [leftBy]
      split
      case h_1 => rfl
      case h_2 hkind => simp [makesObject, hkind]
      case h_3 hkind | h_4 hkind | h_5 hkind => simp [makesObject, hkind, resultCount, hvoid]
    rwa [hleft] at hflows
  | getField object field =>
    obtain ⟨x, f, hx, rfl⟩ := value_getField h
    exact (flows_load hx).append (flows_keep rfl rfl (Nat.le_add_left ..) rfl)
  | assign | ret | putField | branch | jump => nomatch h

/-- Popping takes away what is there. -/
theorem flows_drop (n : Nat) :
    Flows p (p.shrink n) (b + n) b (code (List.replicate n .pop)) := by
  induction n generalizing p with
  | zero => exact flows_nil
  | succ n ih =>
    have hpop : Flows p (p.shrink 1) (b + n + 1) (b + n) (code [.pop]) :=
      flows_shrink rfl rfl (Nat.le_add_left ..) rfl
    rw [Nat.add_comm n 1, ← Progress.shrink_shrink, Nat.add_comm 1 n]
    exact hpop.append ih

/-- How many values are left between an instruction and the next.  When a new
object has been put into a variable, it is there for its constructor. -/
def leaves : Graph.Instruction → Nat
  | .assign (.named _ _) source => if makes source then 1 else 0
  | _ => 0

/-- Objects of classes are not put into elements, and they are no conditions. -/
def KeepsObjects : Graph.Instruction → Prop
  | .assign (.element _ _ _) source | .branch source _ => ¬makes source
  | _ => True

/-- The instruction runs the constructor of a new object. -/
def constructs : Graph.Instruction → Bool
  | .call c => isConstruction c
  | _ => false

theorem visits_branch {condition : Graph.Instruction} {target : String} (hkeeps : ¬makes condition)
    (hfresh : Fresh target) (h : (branch u m target condition).run p = .ok (lines, p')) :
    Visits p p' 0 0 lines := by
  rcases branch_eq_ok h with ⟨op, left, right, x, y, p₁, p₂, rfl, hx, hy, rfl, rfl⟩ |
    ⟨computed, p₁, -, hvalue, rfl, rfl⟩
  · have hloaded : Flows p p₂ 0 2 (x ++ y) := (flows_load hx).append (flows_load hy)
    exact (hloaded.append (flows_compareJump hfresh)).toVisits
  · have hvalue := flows_value (b := 0) hvalue
    rw [if_neg hkeeps] at hvalue
    exact (hvalue.append (flows_trueJump hfresh)).toVisits

theorem visits_assign {target : Operand} {source : Graph.Instruction}
    (hkeeps : KeepsObjects (.assign target source))
    (h : (assign u m source target).run p = .ok (lines, p')) :
    Visits p p' 0 (leaves (.assign target source)) lines := by
  cases target with
  | literal v t => nomatch h
  | named x t =>
    obtain ⟨computed, r, p₁, hvalue, -, rfl, rfl⟩ := assign_named h
    have hvalue := flows_value (b := 0) hvalue
    have hleaves : leaves (.assign (.named x t) source) =
        (0 + if makes source then 2 else 1) - 1 := by
      rw [leaves]
      split <;> rfl
    rw [hleaves]
    refine (hvalue.append (flows_shrink rfl rfl ?_ rfl)).toVisits
    show 1 ≤ 0 + if makes source then 2 else 1
    split <;> decide
  | element array index t =>
    obtain ⟨r, position, computed, p₁, p₂, hposition, hvalue, rfl, rfl, -⟩ := assign_element h
    have harray : Flows p (p.grow 1) 0 1 (code [.load .reference r]) :=
      flows_grow rfl rfl (Nat.zero_le _) rfl
    have hvalue := flows_value (b := 2) hvalue
    -- no new object is put into an element, so the value is on the stack once
    rw [if_neg hkeeps] at hvalue
    have hstore : Flows p₂ (p₂.shrink 3) 3 0 (code [.elementStore (.ofType t)]) :=
      flows_shrink rfl rfl le_rfl rfl
    exact (((harray.append (flows_load hposition)).append hvalue).append hstore).toVisits

/-- A call that is a statement leaves nothing, and a constructor takes away the
second reference to its object. -/
theorem visits_call {c : Graph.Call} (h : (instruction u m (.call c)).run p = .ok (lines, p')) :
    Visits p p' (if constructs (.call c) then 1 else 0) 0 lines := by
  obtain ⟨called, left, p₁, hcall, rfl, rfl⟩ := instruction_call h
  show Visits _ _ (if isConstruction c then 1 else 0) _ _
  generalize (if isConstruction c then 1 else 0) = extra
  obtain ⟨rfl, hflows⟩ := flows_call (b := extra) hcall
  have hdrop := flows_drop (p := p₁) (b := 0) (leftBy c + extra)
  rw [Nat.zero_add] at hdrop
  rw [Nat.add_comm] at hflows
  exact (hflows.append hdrop).toVisits

/-- What is emitted for an instruction begins with an empty stack and ends with
what the instruction leaves. -/
theorem visits_instruction {i : Graph.Instruction} (hkeeps : KeepsObjects i)
    (hconstructs : ¬constructs i) (hfresh : ∀ l, targetOf? i = some l → Fresh l)
    (h : (instruction u m i).run p = .ok (lines, p')) : Visits p p' 0 (leaves i) lines := by
  cases i with
  | assign target source => exact visits_assign hkeeps h
  | call c =>
    have hvisits := visits_call h
    rwa [if_neg hconstructs] at hvisits
  | ret t x =>
    rcases instruction_ret h with ⟨rfl, rfl, -⟩ | ⟨y, loaded, p₁, -, -, hloaded, rfl, rfl⟩
    · exact visits_returnVoid
    · exact (flows_load hloaded).append_visits visits_returnValue
  | putField object field x =>
    obtain ⟨first, second, f, p₁, p₂, hfirst, hsecond, rfl, rfl⟩ := instruction_putField h
    have hloaded : Flows p p₂ 0 2 (first ++ second) :=
      (flows_load hfirst).append (flows_load hsecond)
    exact (hloaded.append (flows_shrink rfl rfl le_rfl rfl)).toVisits
  | branch condition target => exact visits_branch hkeeps (hfresh target rfl) h
  | jump target =>
    obtain ⟨rfl, rfl⟩ := ok_inj h
    exact visits_jump (hfresh target rfl)
  | single | binary | getField =>
    obtain ⟨computed, p₁, hvalue, rfl, rfl⟩ := instruction_dropped (by exact trivial) h
    exact ((flows_value hvalue).append (flows_drop 1)).toVisits

/-- What is emitted for a constructor begins with the second reference to its
object. -/
theorem visits_construction {i : Graph.Instruction} (hconstructs : constructs i)
    (h : (instruction u m i).run p = .ok (lines, p')) : Visits p p' 1 (leaves i) lines := by
  cases i with
  | call c =>
    have hvisits := visits_call h
    rwa [if_pos hconstructs] at hvisits
  | assign | single | binary | ret | putField | getField | branch | jump => nomatch hconstructs

/-! ### Methods -/

/-- The height of the stack in front of the instruction at an index. -/
def entryHeight (m : Graph.Method) : Nat → Nat
  | 0 => 0
  | k + 1 => (m.instructions[k]?.map leaves).getD 0

/-- Every new object that is put into a variable is followed by its
constructor, to which nothing can jump, and no other constructors are run.
Labels are not named like those of comparisons. -/
structure Orderly (m : Graph.Method) : Prop where
  keeps : ∀ i ∈ m.instructions, KeepsObjects i
  followed : ∀ k, entryHeight m k = 1 →
    (∃ i, m.instructions[k]? = some i ∧ constructs i) ∧ m.labelsAt k = []
  preceded : ∀ k i, m.instructions[k]? = some i → constructs i → entryHeight m k = 1
  targets : ∀ i ∈ m.instructions, ∀ l, targetOf? i = some l → Fresh l
  fresh : FreshLabels m

theorem leaves_eq (i : Graph.Instruction) : leaves i = 0 ∨ leaves i = 1 := by
  unfold leaves
  repeat' split
  all_goals simp

theorem entryHeight_eq (k : Nat) : entryHeight m k = 0 ∨ entryHeight m k = 1 := by
  cases k with
  | zero => exact Or.inl rfl
  | succ k =>
    rw [entryHeight]
    cases m.instructions[k]? with
    | none => exact Or.inl rfl
    | some i => exact leaves_eq i

/-- Every instruction fits between the heights in front of it and behind it. -/
theorem Orderly.visits (hm : Orderly m) {k : Nat} {i : Graph.Instruction}
    (hi : m.instructions[k]? = some i) (h : (instruction u m i).run p = .ok (lines, p')) :
    Visits p p' (entryHeight m k) (entryHeight m (k + 1)) lines := by
  have hmem := List.mem_of_getElem? hi
  have hbehind : entryHeight m (k + 1) = leaves i := by rw [entryHeight, hi]; rfl
  rw [hbehind]
  rcases entryHeight_eq (m := m) k with hk | hk
  · rw [hk]
    refine visits_instruction (hm.keeps i hmem) ?_ (hm.targets i hmem) h
    intro hconstructs
    rw [hm.preceded k i hi hconstructs] at hk
    exact Nat.one_ne_zero hk
  · obtain ⟨⟨j, hj, hconstructs⟩, -⟩ := hm.followed k hk
    obtain rfl : i = j := Option.some.inj (hi.symm.trans hj)
    rw [hk]
    exact visits_construction hconstructs h

theorem Orderly.flows_labels (hm : Orderly m) (k : Nat) :
    Flows p p (entryHeight m k) (entryHeight m k) (labels m k) := by
  refine Assembly.flows_labels ?_
  intro hlabels
  rcases entryHeight_eq (m := m) k with hk | hk
  · exact hk
  · exact absurd (hm.followed k hk).2 hlabels

/-- What is emitted for a row of instructions fits. -/
theorem Orderly.fits_bodyFrom (hm : Orderly m) {k : Nat} {is : List Graph.Instruction}
    (his : CodeAt m.instructions k is) (h : (bodyFrom u m k is).run p = .ok (lines, p')) :
    Fits p p' (entryHeight m k) (entryHeight m (k + is.length)) lines := by
  induction is generalizing k p lines with
  | nil =>
    obtain ⟨rfl, rfl⟩ := ok_inj h
    exact (hm.flows_labels k).toFits
  | cons i rest ih =>
    obtain ⟨first, more, p₁, hfirst, hmore, rfl⟩ := bodyFrom_cons h
    have hrest := ih his.tail hmore
    rw [Nat.add_assoc, Nat.add_comm 1] at hrest
    exact (((hm.flows_labels k).append_visits (hm.visits his.head hfirst)).toFits).append hrest

/-! ### Paths through a method -/

/-- What is emitted for the instruction at an index begins at the position,
with its labels. -/
def BeginsAt (u : ClassUnit) (m : Graph.Method) (i pc : Nat) : Prop :=
  ∃ before p, (bodyFrom u m 0 (m.instructions.take i)).run ⟨.empty, 0⟩ =
    .ok (before ++ labels m i, p) ∧ pc = before.length

/-- Some path that begins at an instruction comes to the position with this
height of the stack. -/
inductive Occurs (u : ClassUnit) (m : Graph.Method) (code : List Line) : Nat → Nat → Prop
  | start {i pc} : i ≤ m.instructions.length → BeginsAt u m i pc →
      Occurs u m code pc (entryHeight m i)
  | move {pc h pc' h'} : Occurs u m code pc h → Moves code (pc, h) (pc', h') →
      Occurs u m code pc' h'

variable {code : List Line}

theorem Occurs.moves {pc h pc' h' : Nat} (hoccurs : Occurs u m code pc h)
    (hmoves : ReflTransGen (Moves code) (pc, h) (pc', h')) : Occurs u m code pc' h' := by
  generalize hs : (pc', h') = s at hmoves
  induction hmoves generalizing pc' h' with
  | refl =>
    obtain ⟨rfl, rfl⟩ := Prod.mk.inj hs
    exact hoccurs
  | tail _ hmove ih =>
    subst hs
    exact .move (ih rfl) hmove

/-- Every line of a method, and what is behind the last, is on a path, with the
height of the text. -/
theorem Orderly.occurs_bodyFrom (hm : Orderly m) {k : Nat} {is : List Graph.Instruction}
    {before : List Line} (hk : k ≤ m.instructions.length) (his : m.instructions.drop k = is)
    (hbefore : (bodyFrom u m 0 (m.instructions.take k)).run ⟨.empty, 0⟩ =
      .ok (before ++ labels m k, p))
    (h : (bodyFrom u m k is).run p = .ok (lines, p')) (hcode : CodeAt code before.length lines)
    {j : Nat} (hj : j ≤ lines.length) :
    Occurs u m code (before.length + j) (heightAfter (entryHeight m k) (lines.take j)) := by
  have hstart : Occurs u m code before.length (entryHeight m k) :=
    .start hk ⟨before, p, hbefore, rfl⟩
  -- on the instructions; the lines in front of them grow with each
  induction is generalizing k p lines before j with
  | nil =>
    obtain ⟨rfl, rfl⟩ := ok_inj h
    have hlabels := hm.flows_labels (p := p') k
    rcases Nat.lt_or_eq_of_le hj with hlt | rfl
    · exact hstart.moves (hlabels.covers hcode j hlt)
    · rw [List.take_length, hlabels.ends]
      exact hstart.moves (hlabels.passes hcode)
  | cons i rest ih =>
    obtain ⟨first, more, p₁, hfirst, hmore, rfl⟩ := bodyFrom_cons h
    have hlt : k < m.instructions.length := by
      have := congrArg List.length his
      rw [List.length_drop, List.length_cons] at this
      omega
    rw [List.drop_eq_getElem_cons hlt] at his
    obtain ⟨hi, hrest⟩ := List.cons.inj his
    have hpiece := (hm.flows_labels k).append_visits
      (hm.visits (List.getElem?_eq_some_iff.mpr ⟨hlt, hi⟩) hfirst)
    rcases Nat.lt_or_ge j (labels m k ++ first).length with hjlt | hge
    · rw [List.take_append_of_le_length hjlt.le]
      exact hstart.moves (hpiece.covers hcode.left j hjlt)
    · -- the line stands behind the instruction
      obtain ⟨j, rfl⟩ := Nat.exists_eq_add_of_le hge
      rw [List.take_length_add_append, heightAfter_append, hpiece.ends, ← Nat.add_assoc,
        ← List.length_append]
      have hbefore' := bodyFrom_concat hbefore hfirst
      rw [List.length_take, Nat.min_eq_left hk, Nat.zero_add, ← hi,
        ← List.take_succ_eq_append_getElem hlt, List.append_assoc before] at hbefore'
      have hcode' := hcode.right
      rw [← List.length_append] at hcode'
      refine ih hlt hrest hbefore' hmore hcode' ?_ (.start hlt ⟨_, _, hbefore', rfl⟩)
      simp only [List.length_append] at hj
      omega

/-- The height of the text in front of a position. -/
def heightAt (code : List Line) (pc : Nat) : Nat := heightAfter 0 (code.take pc)

theorem heightAt_succ {pc : Nat} {l : Line} (h : code[pc]? = some l) :
    heightAt code (pc + 1) = l.after (heightAt code pc) := by
  obtain ⟨hlt, hget⟩ := List.getElem?_eq_some_iff.mp h
  rw [heightAt, List.take_succ_eq_append_getElem hlt, hget, heightAfter_append]
  rfl

theorem pushes_of_target {i : Instruction} {l : String} (h : i.target? = some l) :
    i.pushes = 0 := by
  cases i <;> first | rfl | nomatch h

/-- Along a path the heights are those of the text. -/
theorem heightAt_of_moves {e : Nat} (hfits : Fits p p' 0 e code) (hnodup : (labelNames code).Nodup)
    {pc pc' h' : Nat} (hmove : Moves code (pc, heightAt code pc) (pc', h')) :
    h' = heightAt code pc' := by
  cases hmove with
  | label hl => exact (heightAt_succ hl).symm
  | next hi hfalls => rw [heightAt_succ hi, after_instruction hfalls]
  | @jump _ _ i l q hi hl hq =>
    rw [pushes_of_target hl, Nat.add_zero]
    have hspot : (.instruction i, heightAt code pc) ∈ spots 0 code :=
      mem_spots.mpr ⟨pc, hi, rfl⟩
    have hmark : (.label l, heightAt code pc') ∈ spots 0 code := mem_spots.mpr ⟨pc', hq, rfl⟩
    rcases hfits.lands i _ l hspot hl with hland | ⟨hfresh, hzero⟩
    · -- a label stands only once
      obtain ⟨k, hk, hheight⟩ := mem_spots.mp hland
      obtain rfl : k = pc' := eq_of_nodup_filterMap hnodup hk hq rfl rfl
      exact hheight
    · rw [hfits.marks l _ hmark hfresh]
      exact hzero

theorem heightAfter_labels (h k : Nat) : heightAfter h (labels m k) = h := by
  rw [labels]
  induction m.labelsAt k with
  | nil => rfl
  | cons x rest ih => exact ih

/-- What is emitted in front of an instruction is where the code begins. -/
theorem heightAt_of_beginsAt (hm : Orderly m) {deepest : Nat}
    (hbody : body u m = .ok (code, deepest)) {i pc : Nat} (hi : i ≤ m.instructions.length)
    (h : BeginsAt u m i pc) :
    heightAt code pc = entryHeight m i := by
  obtain ⟨before, p, hbefore, rfl⟩ := h
  obtain ⟨pc, p', hplaced⟩ := exists_placed hbody hi
  obtain ⟨before', hbefore', hcode, -⟩ := hplaced.front
  obtain ⟨rfl, rfl⟩ := ok_inj (hbefore'.symm.trans hbefore)
  have hfits := hm.fits_bodyFrom (codeAt_take m.instructions i) hbefore
  have hends := hfits.ends
  rw [List.length_take, Nat.min_eq_left hi, Nat.zero_add, heightAfter_append,
    heightAfter_labels] at hends
  rw [heightAt, hcode.left.take_eq]
  exact hends

theorem heightAt_of_occurs (hm : Orderly m) {deepest : Nat} (hbody : body u m = .ok (code, deepest))
    {pc h : Nat} (hoccurs : Occurs u m code pc h) : h = heightAt code pc := by
  induction hoccurs with
  | start hi hbegins => exact (heightAt_of_beginsAt hm hbody hi hbegins).symm
  | move _ hmove ih =>
    subst ih
    obtain ⟨p, hrun, -⟩ := body_eq_ok hbody
    exact heightAt_of_moves (hm.fits_bodyFrom (codeAt_self _) hrun)
      (labelNames_body_nodup hm.fresh hbody) hmove

theorem occurs_heightAt (hm : Orderly m) {deepest : Nat} (hbody : body u m = .ok (code, deepest))
    {pc : Nat} (hpc : pc ≤ code.length) : Occurs u m code pc (heightAt code pc) := by
  obtain ⟨p, hrun, -⟩ := body_eq_ok hbody
  have h : Occurs u m code (([] : List Line).length + pc) (heightAt code pc) :=
    hm.occurs_bodyFrom (Nat.zero_le _) rfl rfl hrun (codeAt_self code) hpc
  rwa [List.length_nil, Nat.zero_add] at h

/-- The heights that occur are those of the text. -/
theorem occurs_iff (hm : Orderly m) {deepest : Nat} (hbody : body u m = .ok (code, deepest))
    {h : Nat} : (∃ pc, Occurs u m code pc h) ↔ ∃ k ≤ code.length, h = heightAt code k := by
  constructor
  · rintro ⟨pc, hoccurs⟩
    rw [heightAt_of_occurs hm hbody hoccurs]
    refine ⟨min pc code.length, Nat.min_le_right .., ?_⟩
    rw [heightAt, heightAt, List.take_eq_take_min]
  · rintro ⟨k, hk, rfl⟩
    exact ⟨k, occurs_heightAt hm hbody hk⟩

/-- The greatest count is the greatest height, if that can be counted. -/
theorem deepest_eq_peak (hm : Orderly m) {deepest : Nat}
    (hbody : body u m = .ok (code, deepest)) (hlimit : peak 0 code ≤ Depth.limit) :
    deepest = peak 0 code := by
  obtain ⟨p, hrun, rfl⟩ := body_eq_ok hbody
  have hfits := hm.fits_bodyFrom (codeAt_self _) hrun
  rw [hfits.tracks rfl le_rfl hlimit]
  exact Nat.zero_max _

/-- On all paths through what is emitted for a method, nothing is taken from
the stack that is not there, the height at a line is the same on all of them,
and in front of an instruction the stack is empty, but for the constructor of
a new object.  The depth in the head of the method is the greatest height, if
no height is greater than what can be counted. -/
theorem stack_is_balanced {options : Options} {a : Method} (hm : Orderly m)
    (hcomputed : options.stackLimit = .computed)
    (h : Member.ofGraph options u m = .ok (.method a))
    (hlimit : ∀ pc h, Occurs u m a.body pc h → h ≤ 65535) :
    (∀ pc h i, Occurs u m a.body pc h → a.body[pc]? = some (.instruction i) → i.pops ≤ h) ∧
    (∀ pc h h', Occurs u m a.body pc h → Occurs u m a.body pc h' → h = h') ∧
    (∀ i pc h, i ≤ m.instructions.length → BeginsAt u m i pc → Occurs u m a.body pc h →
      h = entryHeight m i) ∧
    IsGreatest {h | ∃ pc, Occurs u m a.body pc h} a.stackLimit := by
  obtain ⟨deepest, hbody, hdeepest⟩ := memberOfGraph_eq_ok h
  obtain ⟨p, hrun, -⟩ := body_eq_ok hbody
  have hfits := hm.fits_bodyFrom (codeAt_self _) hrun
  have heights : ∀ {pc h}, Occurs u m a.body pc h → h = heightAt a.body pc :=
    heightAt_of_occurs hm hbody
  refine ⟨?_, ?_, ?_, ?_⟩
  · intro pc h i hoccurs hi
    rw [heights hoccurs]
    exact hfits.safe (.instruction i, heightAt a.body pc) (mem_spots.mpr ⟨pc, hi, rfl⟩)
  · intro pc h h' hoccurs hoccurs'
    rw [heights hoccurs, heights hoccurs']
  · intro i pc h hi hbegins hoccurs
    rw [heights hoccurs]
    exact heightAt_of_beginsAt hm hbody hi hbegins
  · have hset : {h | ∃ pc, Occurs u m a.body pc h} =
        {h | ∃ k ≤ a.body.length, h = heightAfter 0 (a.body.take k)} := by
      ext h
      exact occurs_iff hm hbody
    have hpeak := isGreatest_peak 0 a.body
    rw [← hset] at hpeak
    obtain ⟨pc, hoccurs⟩ := hpeak.1
    rw [hdeepest hcomputed, deepest_eq_peak hm hbody (hlimit pc _ hoccurs)]
    exact hpeak

/-! ### A method that makes an object

    f = new Foo(); b = n < 3; if (!b) f.run(n, n);
-/

def building : Graph.Method :=
  let f : Operand := .named "f" (.object "Foo")
  let n : Operand := .named "n" .int
  { Graph.Method.new "build" .void with
    parameters := [n]
    instructions :=
      [.assign f (.call (.newObject "Foo")),
       .call (.construct f),
       .assign (.named "b" .boolean) (.binary (.comparison .lt) n (.ofInt 3)),
       .branch (.single (.named "b" .boolean)) "done",
       .call (.virtual f "run" [n, n] .int),
       .ret .void none]
    labels := .ofList [("done", 5)]
    registers := .ofList [("n", ⟨1, .int⟩), ("f", ⟨2, .object "Foo"⟩), ("b", ⟨3, .boolean⟩)] }

def buildingCode : Method :=
  let run : MethodRef := ⟨"Foo", "run", [.int, .int], .int⟩
  { access := .anyone, isStatic := false, isFinal := false, name := "build"
    parameters := [.int], result := .void, stackLimit := 3, localsLimit := 4
    body := Assembly.code [.newObject "Foo", .dup, .store .reference 2, .load .reference 2,
        .invoke .special ⟨"Foo", "<init>", [], .void⟩, .pop, .load .int 1, .push (.short 3)] ++
      compareLines .lt 0 ++
      Assembly.code [.store .int 3, .load .int 3, .trueJump "done", .load .reference 2,
        .load .int 1, .load .int 1, .invoke .virtual run, .pop] ++ [.label "done"] ++
      Assembly.code [.returnVoid] }

theorem orderly_building : Orderly building where
  keeps := by
    intro i hi
    simp only [building, List.mem_cons, List.not_mem_nil, or_false] at hi
    rcases hi with rfl | rfl | rfl | rfl | rfl | rfl
    · trivial
    · trivial
    · trivial
    · exact Bool.false_ne_true
    · trivial
    · trivial
  followed := by
    intro k hk
    match k with
    | 1 => exact ⟨⟨_, rfl, rfl⟩, by decide⟩
    | 0 | 2 | 3 | 4 | 5 | 6 => nomatch hk
    | n + 7 => nomatch hk
  preceded := by
    intro k i hi hconstructs
    match k with
    | 1 => rfl
    | 0 | 2 | 3 | 4 | 5 =>
      obtain rfl := Option.some.inj hi
      nomatch hconstructs
    | n + 6 => nomatch hi
  targets := by
    intro i hi l hl
    simp only [building, List.mem_cons, List.not_mem_nil, or_false] at hi
    rcases hi with rfl | rfl | rfl | rfl | rfl | rfl
    · nomatch hl
    · nomatch hl
    · nomatch hl
    · obtain rfl := Option.some.inj hl
      exact fresh_of_not_prefix (by decide)
    · nomatch hl
    · nomatch hl
  fresh := by
    have hkeys : building.labels.keys = ["done"] := by decide
    intro x hx
    rw [hkeys, List.mem_singleton] at hx
    rw [hx]
    exact fresh_of_not_prefix (by decide)

theorem stack_is_balanced_building :
    let u : ClassUnit := .new "Calc"
    Member.ofGraph .standard u building = .ok (.method buildingCode) ∧
    (∀ pc h i, Occurs u building buildingCode.body pc h →
      buildingCode.body[pc]? = some (.instruction i) → i.pops ≤ h) ∧
    (∀ pc h h', Occurs u building buildingCode.body pc h →
      Occurs u building buildingCode.body pc h' → h = h') ∧
    (∀ i pc h, i ≤ building.instructions.length → BeginsAt u building i pc →
      Occurs u building buildingCode.body pc h → h = entryHeight building i) ∧
    IsGreatest {h | ∃ pc, Occurs u building buildingCode.body pc h} buildingCode.stackLimit := by
  intro u
  have hcode : Member.ofGraph .standard u building = .ok (.method buildingCode) := rfl
  refine ⟨hcode, stack_is_balanced orderly_building rfl hcode ?_⟩
  intro pc h hoccurs
  obtain ⟨deepest, hbody, -⟩ := memberOfGraph_eq_ok hcode
  have hpeak : h ≤ peak 0 buildingCode.body :=
    (isGreatest_peak 0 buildingCode.body).2 ((occurs_iff orderly_building hbody).mp ⟨pc, hoccurs⟩)
  have hthree : peak 0 buildingCode.body = 3 := rfl
  omega

end JavaMinus.Assembly
