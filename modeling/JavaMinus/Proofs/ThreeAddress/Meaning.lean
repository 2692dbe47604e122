/-
JavaMinus/Proofs/ThreeAddress/Meaning.lean

Lowering preserves meaning.

The text that is written for a method is read back and run.  It comes to an
outcome with some final values exactly if the statements of the method, as the
tree has them, do (`Preserved`).

From the tree to the code the proof follows the execution of the statements
(`comes_of_executes`).  In the other direction there is no execution to follow,
and a run may be shorter than the lines look, since a part is left by a return
or a trap.  There the proof goes along the run: what lies later on it may be
assumed, and only the turn of a loop needs that, since everything else leads
into a part (`exists_executes`).
-/
import JavaMinus.Proofs.Declarations
import JavaMinus.Proofs.ThreeAddress.Layout
import JavaMinus.ThreeAddress.Program

namespace JavaMinus.ThreeAddress

open Machine Reading StateTransition

variable {s : Signature} {t : Tree} {rest : List Tree} {c c' : Counters} {ls : List Line}

/-! ### What the lines of each form of statement are -/

theorem Lowered.of_assignment (h : Lowered s (t :: rest) c ls c') (hk : t.kind = .assignment)
    {e : Tree} (hcs : t.children = [e]) :
    ∃ ty v a n ls', ls = v.code ++ [.assign (.named t.name) (Tag.ofTy ty) (.operand v.operand)]
        ++ ls' ∧ s.typeOf? t.name = some ty ∧ HasScalarType s e ty ∧
      Represents e v a c.temporaries n ∧ Lowered s rest ⟨n, c.labels⟩ ls' c' := by
  cases h with
  | assignment _ hcs' hx hty hv hrest =>
    obtain rfl := (List.cons.inj (hcs.symm.trans hcs')).1
    exact ⟨_, _, _, _, _, rfl, hx, hty, hv, hrest⟩
  | block hk' | conditional hk' | loop hk' | returnNothing hk' | returnValue hk' =>
    exact absurd (hk.symm.trans hk') (by decide)

theorem Lowered.of_block (h : Lowered s (t :: rest) c ls c') (hk : t.kind = .block) :
    ∃ body ls' c₁, ls = body ++ ls' ∧ Lowered s t.children c body c₁ ∧
      Lowered s rest c₁ ls' c' := by
  cases h with
  | block _ hbody hrest => exact ⟨_, _, _, rfl, hbody, hrest⟩
  | assignment hk' | conditional hk' | loop hk' | returnNothing hk' | returnValue hk' =>
    exact absurd (hk.symm.trans hk') (by decide)

theorem Lowered.of_conditional (h : Lowered s (t :: rest) c ls c') (hk : t.kind = .conditional)
    {e first : Tree} {second : List Tree} (hcs : t.children = e :: first :: second) :
    ∃ v a n thenLines elseLines ls' c₁ c₂,
      ls = conditionalLines c.labels v thenLines elseLines ++ ls' ∧
      HasScalarType s e .boolean ∧ Represents e v a c.temporaries n ∧
      Lowered s [first] ⟨n, c.labels + 1⟩ thenLines c₁ ∧ Lowered s second c₁ elseLines c₂ ∧
      Lowered s rest c₂ ls' c' := by
  cases h with
  | conditional _ hcs' hty hv hthen helse hrest =>
    obtain ⟨rfl, htail⟩ := List.cons.inj (hcs.symm.trans hcs')
    obtain ⟨rfl, rfl⟩ := List.cons.inj htail
    exact ⟨_, _, _, _, _, _, _, _, rfl, hty, hv, hthen, helse, hrest⟩
  | assignment hk' | block hk' | loop hk' | returnNothing hk' | returnValue hk' =>
    exact absurd (hk.symm.trans hk') (by decide)

/-- Either part of a conditional was lowered to its lines. -/
theorem Lowered.exists_part {first : Tree} {second : List Tree} {thenLines elseLines : List Line}
    {c₁ c₂ : Counters} (hthen : Lowered s [first] c thenLines c₁)
    (helse : Lowered s second c₁ elseLines c₂) (w : Bool) :
    ∃ c c', Lowered s (if w then [first] else second) c (if w then thenLines else elseLines) c' := by
  cases w with
  | true => exact ⟨_, _, hthen⟩
  | false => exact ⟨_, _, helse⟩

theorem Lowered.of_loop (h : Lowered s (t :: rest) c ls c') (hk : t.kind = .loop)
    {e body : Tree} (hcs : t.children = [e, body]) :
    ∃ v a n bodyLines ls' c₁, ls = loopLines c.labels v bodyLines ++ ls' ∧
      HasScalarType s e .boolean ∧ Represents e v a c.temporaries n ∧
      Lowered s [body] ⟨n, c.labels + 1⟩ bodyLines c₁ ∧ Lowered s rest c₁ ls' c' := by
  cases h with
  | loop _ hcs' hty hv hbody hrest =>
    obtain ⟨rfl, htail⟩ := List.cons.inj (hcs.symm.trans hcs')
    obtain ⟨rfl, -⟩ := List.cons.inj htail
    exact ⟨_, _, _, _, _, _, rfl, hty, hv, hbody, hrest⟩
  | assignment hk' | block hk' | conditional hk' | returnNothing hk' | returnValue hk' =>
    exact absurd (hk.symm.trans hk') (by decide)

theorem Lowered.of_returnNothing (h : Lowered s (t :: rest) c ls c')
    (hk : t.kind = .returnStmt) (hcs : t.children = []) :
    ∃ tag ls', ls = [.ret tag none] ++ ls' := by
  cases h with
  | returnNothing _ _ _ hrest => exact ⟨_, _, rfl⟩
  | returnValue _ hcs' => exact absurd (hcs.symm.trans hcs') (List.cons_ne_nil _ _).symm
  | assignment hk' | block hk' | conditional hk' | loop hk' =>
    exact absurd (hk.symm.trans hk') (by decide)

theorem Lowered.of_returnValue (h : Lowered s (t :: rest) c ls c')
    (hk : t.kind = .returnStmt) {e : Tree} (hcs : t.children = [e]) :
    ∃ ty tag v a n ls', ls = v.code ++ [.ret tag (some v.operand)] ++ ls' ∧
      HasScalarType s e ty ∧ Represents e v a c.temporaries n := by
  cases h with
  | returnValue _ hcs' hty _ hv =>
    obtain rfl := (List.cons.inj (hcs.symm.trans hcs')).1
    exact ⟨_, _, _, _, _, _, rfl, hty, hv⟩
  | returnNothing _ hcs' => exact absurd (hcs'.symm.trans hcs) (List.cons_ne_nil _ _).symm
  | assignment hk' | block hk' | conditional hk' | loop hk' =>
    exact absurd (hk.symm.trans hk') (by decide)

/-! ### From the statements to the code -/

/-- Where the machine is when statements have come to an outcome. -/
def State.behind (pc : Nat) (o : Outcome) (τ : Store) : State :=
  if o = .finished then .running pc τ else .ended o τ

theorem State.behind_finished (pc : Nat) (τ : Store) :
    State.behind pc .finished τ = .running pc τ := if_pos rfl

theorem State.behind_of_ne {pc : Nat} {o : Outcome} {τ : Store} (h : o ≠ .finished) :
    State.behind pc o τ = .ended o τ := if_neg h

/-- From the position the machine comes to the outcome, with the final values;
the second position is where it goes on after the outcome `finished`. -/
def Comes (s : Signature) (code : List Instruction) (pc pc' : Nat) (τ : Store) (o : Outcome)
    (σ' : Store) : Prop :=
  ∃ τ', Agree s σ' τ' ∧ Reaches (step code) (.running pc τ) (State.behind pc' o τ')

variable {code : List Instruction} {σ σ' τ : Store} {o : Outcome} {pc pc' : Nat}

theorem Comes.after {pc₁ : Nat} {τ₁ : Store}
    (hreach : Reaches (step code) (.running pc τ) (.running pc₁ τ₁))
    (h : Comes s code pc₁ pc' τ₁ o σ') : Comes s code pc pc' τ o σ' := by
  obtain ⟨τ', hagree, hrun⟩ := h
  exact ⟨τ', hagree, hreach.trans hrun⟩

/-- An outcome other than `finished` is the same wherever one would go on. -/
theorem Comes.left {pc₁ : Nat} (h : Comes s code pc pc₁ τ o σ') (ho : o ≠ .finished) :
    Comes s code pc pc' τ o σ' := by
  obtain ⟨τ', hagree, hrun⟩ := h
  refine ⟨τ', hagree, ?_⟩
  rwa [State.behind_of_ne ho] at hrun ⊢

theorem Comes.finished (h : Comes s code pc pc' τ .finished σ') :
    ∃ τ', Agree s σ' τ' ∧ Reaches (step code) (.running pc τ) (.running pc' τ') := by
  obtain ⟨τ', hagree, hrun⟩ := h
  rw [State.behind_finished] at hrun
  exact ⟨τ', hagree, hrun⟩

theorem comes_trapped {τ' : Store}
    (h : Reaches (step code) (.running pc τ) (.ended .trapped τ')) (hagree : Agree s σ' τ') :
    Comes s code pc pc' τ .trapped σ' := by
  refine ⟨τ', hagree, ?_⟩
  rwa [State.behind_of_ne (by decide)]

/-- The code of lines one after another. -/
theorem codeAt_split {before after : List Line} (hls : ls = before ++ after)
    (hcode : CodeAt code pc (instructions ls)) (hpc : pc' = pc + (instructions ls).length) :
    CodeAt code pc (instructions before) ∧
      CodeAt code (pc + (instructions before).length) (instructions after) ∧
      pc' = pc + (instructions before).length + (instructions after).length := by
  rw [hls, instructions_append] at hcode hpc
  refine ⟨hcode.left, hcode.right, ?_⟩
  rw [hpc, List.length_append, Nat.add_assoc]

/-- The value of an expression is put into a variable of the method. -/
theorem Represents.reaches_assigned {e : Tree} {ty : Ty} {v : Value} {a : Atom} {n n' : Nat}
    (hs : PlainNames s) (h : Represents e v a n n') (hty : HasScalarType s e ty) {x : String}
    {tag : Tag}
    (hcode : CodeAt code pc
      (instructions (v.code ++ [.assign (.named x) tag (.operand v.operand)])))
    (hστ : Agree s σ τ) {w : Scalar} (hw : evaluate σ e = some (.value w)) :
    ∃ τ', Reaches (step code) (.running pc τ) (.running (pc + (instructions
        (v.code ++ [.assign (.named x) tag (.operand v.operand)])).length) τ') ∧
      Agree s (Function.update σ x w) τ' := by
  have hline : (Line.assign (.named x) tag (.operand v.operand)).instruction? =
      some (.move x a) := by
    rw [Line.instruction?, h.atom]
    rfl
  rw [instructions_concat hline] at hcode ⊢
  obtain ⟨τ₁, hreach, hagree, hvalue⟩ := h.reaches_value hs hty hcode.left hστ hw
  refine ⟨Function.update τ₁ x w, ?_, hagree.update x w⟩
  rw [List.length_append, ← Nat.add_assoc]
  have hmove := reaches_move (σ := τ₁) hcode.right.head
  rw [hvalue] at hmove
  exact hreach.trans hmove

/-- The code of statements comes to the outcome that the statements come
to. -/
theorem comes_of_executes {ts : List Tree} (hs : PlainNames s) (hunique : UniqueLabels code)
    (h : Executes ts σ o σ') :
    ∀ {c c' : Counters} {ls : List Line} {pc pc' : Nat} {τ : Store}, Lowered s ts c ls c' →
      CodeAt code pc (instructions ls) → pc' = pc + (instructions ls).length →
      Agree s σ τ → Comes s code pc pc' τ o σ' := by
  -- on the execution, one case for each way in which a statement can end
  induction h with
  | nil =>
    intro c c' ls pc pc' τ hl _ hpc hστ
    cases hl
    refine ⟨τ, hστ, ?_⟩
    rw [State.behind_finished, hpc]
    exact .refl
  | assignment hk hcs hv _ ih =>
    intro c c' ls pc pc' τ hl hcode hpc hστ
    obtain ⟨ty, v, a, n, ls', hls, hx, hty, hrep, hrest⟩ := hl.of_assignment hk hcs
    obtain ⟨hcode₁, hcode₂, hpc'⟩ := codeAt_split hls hcode hpc
    obtain ⟨τ₁, hreach, hagree⟩ := hrep.reaches_assigned hs hty hcode₁ hστ hv
    exact (ih hrest hcode₂ hpc' hagree).after hreach
  | assignmentTrapped hk hcs hv =>
    intro c c' ls pc pc' τ hl hcode hpc hστ
    obtain ⟨ty, v, a, n, ls', hls, hx, hty, hrep, hrest⟩ := hl.of_assignment hk hcs
    rw [hls, instructions_append, instructions_append] at hcode
    obtain ⟨τ₁, hreach, hagree⟩ := hrep.reaches_trapped hs hty hcode.left.left hστ hv
    exact comes_trapped hreach hagree
  | block hk _ _ ihbody ih =>
    intro c c' ls pc pc' τ hl hcode hpc hστ
    obtain ⟨body, ls', c₁, hls, hbody, hrest⟩ := hl.of_block hk
    obtain ⟨hcode₁, hcode₂, hpc'⟩ := codeAt_split hls hcode hpc
    obtain ⟨τ₁, hagree, hreach⟩ := (ihbody hbody hcode₁ rfl hστ).finished
    exact (ih hrest hcode₂ hpc' hagree).after hreach
  | blockLeft hk _ ho ih =>
    intro c c' ls pc pc' τ hl hcode hpc hστ
    obtain ⟨body, ls', c₁, hls, hbody, hrest⟩ := hl.of_block hk
    obtain ⟨hcode₁, -, -⟩ := codeAt_split hls hcode hpc
    exact (ih hbody hcode₁ rfl hστ).left ho
  | @branch t rest e first second w σ σ₁ o σ' hk hcs hv _ _ ihpart ih =>
    intro c c' ls pc pc' τ hl hcode hpc hστ
    obtain ⟨v, a, n, thenLines, elseLines, ls', c₁, c₂, hls, hty, hrep, hthen, helse, hrest⟩ :=
      hl.of_conditional hk hcs
    obtain ⟨hcode₁, hcode₂, hpc'⟩ := codeAt_split hls hcode hpc
    obtain ⟨p, τ₁, hpart, hreach, hagree, hout⟩ :=
      reaches_part hs hunique hrep hty hcode₁ hστ hv
    obtain ⟨_, _, hlowered⟩ := hthen.exists_part helse w
    obtain ⟨τ₂, hagree₂, hreach₂⟩ := (ihpart hlowered hpart rfl hagree).finished
    exact (ih hrest hcode₂ hpc' hagree₂).after ((hreach.trans hreach₂).trans (hout τ₂))
  | @branchLeft t rest e first second w σ o σ' hk hcs hv _ ho ih =>
    intro c c' ls pc pc' τ hl hcode hpc hστ
    obtain ⟨v, a, n, thenLines, elseLines, ls', c₁, c₂, hls, hty, hrep, hthen, helse, hrest⟩ :=
      hl.of_conditional hk hcs
    obtain ⟨hcode₁, -, -⟩ := codeAt_split hls hcode hpc
    obtain ⟨p, τ₁, hpart, hreach, hagree, -⟩ :=
      reaches_part hs hunique hrep hty hcode₁ hστ hv
    obtain ⟨_, _, hlowered⟩ := hthen.exists_part helse w
    exact ((ih hlowered hpart rfl hagree).left ho).after hreach
  | branchTrapped hk hcs hv =>
    intro c c' ls pc pc' τ hl hcode hpc hστ
    obtain ⟨v, a, n, thenLines, elseLines, ls', c₁, c₂, hls, hty, hrep, -, -, -⟩ :=
      hl.of_conditional hk hcs
    obtain ⟨hcode₁, -, -⟩ := codeAt_split hls hcode hpc
    rw [instructions_conditionalLines hrep.atom] at hcode₁
    obtain ⟨τ₁, hreach, hagree⟩ := hrep.reaches_trapped hs hty hcode₁.left hστ hv
    exact comes_trapped hreach hagree
  | turn hk hcs hv _ _ ihbody ih =>
    intro c c' ls pc pc' τ hl hcode hpc hστ
    obtain ⟨v, a, n, bodyLines, ls', c₁, hls, hty, hrep, hbody, -⟩ := hl.of_loop hk hcs
    obtain ⟨hcode₁, -, -⟩ := codeAt_split hls hcode hpc
    obtain ⟨p, τ₁, hcode₃, hreach, hagree, hback⟩ :=
      reaches_body hs hunique hrep hty hcode₁ hστ hv
    obtain ⟨τ₂, hagree₂, hreach₂⟩ := (ihbody hbody hcode₃ rfl hagree).finished
    exact (ih hl hcode hpc hagree₂).after
      ((hreach.to_reflTransGen.trans hreach₂).trans (hback τ₂))
  | turnLeft hk hcs hv _ ho ih =>
    intro c c' ls pc pc' τ hl hcode hpc hστ
    obtain ⟨v, a, n, bodyLines, ls', c₁, hls, hty, hrep, hbody, -⟩ := hl.of_loop hk hcs
    obtain ⟨hcode₁, -, -⟩ := codeAt_split hls hcode hpc
    obtain ⟨p, τ₁, hcode₃, hreach, hagree, -⟩ :=
      reaches_body hs hunique hrep hty hcode₁ hστ hv
    exact ((ih hbody hcode₃ rfl hagree).left ho).after hreach.to_reflTransGen
  | loopEnded hk hcs hv _ ih =>
    intro c c' ls pc pc' τ hl hcode hpc hστ
    obtain ⟨v, a, n, bodyLines, ls', c₁, hls, hty, hrep, -, hrest⟩ := hl.of_loop hk hcs
    obtain ⟨hcode₁, hcode₂, hpc'⟩ := codeAt_split hls hcode hpc
    obtain ⟨τ₁, hreach, hagree⟩ := reaches_behind hs hunique hrep hty hcode₁ hστ hv
    exact (ih hrest hcode₂ hpc' hagree).after hreach
  | loopTrapped hk hcs hv =>
    intro c c' ls pc pc' τ hl hcode hpc hστ
    obtain ⟨v, a, n, bodyLines, ls', c₁, hls, hty, hrep, -, -⟩ := hl.of_loop hk hcs
    obtain ⟨hcode₁, -, -⟩ := codeAt_split hls hcode hpc
    obtain ⟨τ₁, hreach, hagree⟩ := reaches_loopTrapped hs hrep hty hcode₁ hστ hv
    exact comes_trapped hreach hagree
  | returnNothing hk hcs =>
    intro c c' ls pc pc' τ hl hcode hpc hστ
    obtain ⟨tag, ls', rfl⟩ := hl.of_returnNothing hk hcs
    refine ⟨τ, hστ, ?_⟩
    have hret : code[pc]? = some (.ret none) := hcode.head
    exact reaches_ret hret
  | returnValue hk hcs hv =>
    intro c c' ls pc pc' τ hl hcode hpc hστ
    obtain ⟨ty, tag, v, a, n, ls', rfl, hty, hrep⟩ := hl.of_returnValue hk hcs
    have hline : (Line.ret tag (some v.operand)).instruction? = some (.ret (some a)) := by
      rw [Line.instruction?, hrep.atom]
      rfl
    rw [instructions_append, instructions_concat hline] at hcode
    obtain ⟨τ₁, hreach, hagree, hvalue⟩ := hrep.reaches_value hs hty hcode.left.left hστ hv
    refine ⟨τ₁, hagree, hreach.trans ?_⟩
    have hret := reaches_ret (σ := τ₁) hcode.left.right.head
    rw [Option.map_some, hvalue] at hret
    exact hret
  | returnTrapped hk hcs hv =>
    intro c c' ls pc pc' τ hl hcode hpc hστ
    obtain ⟨ty, tag, v, a, n, ls', rfl, hty, hrep⟩ := hl.of_returnValue hk hcs
    rw [instructions_append, instructions_append] at hcode
    obtain ⟨τ₁, hreach, hagree⟩ := hrep.reaches_trapped hs hty hcode.left.left hστ hv
    exact comes_trapped hreach hagree

/-! ### From the code to the statements -/

/-- The value of a well typed expression fits the variable of its type. -/
theorem fits_update {x : String} {ty : Ty} {e : Tree} {w : Scalar} (hx : s.typeOf? x = some ty)
    (hty : HasScalarType s e ty) (hσ : σ.Fits s) (hw : evaluate σ e = some (.value w)) :
    Store.Fits (Function.update σ x w) s := by
  intro y ty' hy hscalar
  by_cases hyx : y = x
  · subst hyx
    obtain rfl : ty = ty' := Option.some.inj (hx.symm.trans hy)
    rw [Function.update_self]
    rcases evaluate_of_hasScalarType hσ hty with ⟨v, hv, hvty⟩ | htrapped
    · rw [hw] at hv
      injection hv with hv
      injection hv with hv
      rwa [hv]
    · rw [hw] at htrapped
      nomatch htrapped
  · rw [Function.update_of_ne hyx]
    exact hσ y ty' hy hscalar

/-- Variables keep their types. -/
theorem fits_of_executes {ts : List Tree} (h : Executes ts σ o σ') :
    ∀ {c c' : Counters} {ls : List Line}, Lowered s ts c ls c' → σ.Fits s → σ'.Fits s := by
  induction h with
  | nil => exact fun _ hσ => hσ
  | assignment hk hcs hv _ ih =>
    intro c c' ls hl hσ
    obtain ⟨ty, v, a, n, ls', -, hx, hty, -, hrest⟩ := hl.of_assignment hk hcs
    exact ih hrest (fits_update hx hty hσ hv)
  | block hk _ _ ihbody ih =>
    intro c c' ls hl hσ
    obtain ⟨body, ls', c₁, -, hbody, hrest⟩ := hl.of_block hk
    exact ih hrest (ihbody hbody hσ)
  | blockLeft hk _ _ ih =>
    intro c c' ls hl hσ
    obtain ⟨body, ls', c₁, -, hbody, -⟩ := hl.of_block hk
    exact ih hbody hσ
  | @branch t rest e first second w _ _ _ _ hk hcs _ _ _ ihpart ih =>
    intro c c' ls hl hσ
    obtain ⟨v, a, n, thenLines, elseLines, ls', c₁, c₂, -, -, -, hthen, helse, hrest⟩ :=
      hl.of_conditional hk hcs
    cases w with
    | true => exact ih hrest (ihpart hthen hσ)
    | false => exact ih hrest (ihpart helse hσ)
  | @branchLeft t rest e first second w _ _ _ hk hcs _ _ _ ih =>
    intro c c' ls hl hσ
    obtain ⟨v, a, n, thenLines, elseLines, ls', c₁, c₂, -, -, -, hthen, helse, -⟩ :=
      hl.of_conditional hk hcs
    cases w with
    | true => exact ih hthen hσ
    | false => exact ih helse hσ
  | turn hk hcs _ _ _ ihbody ih =>
    intro c c' ls hl hσ
    obtain ⟨v, a, n, bodyLines, ls', c₁, -, -, -, hbody, -⟩ := hl.of_loop hk hcs
    exact ih hl (ihbody hbody hσ)
  | turnLeft hk hcs _ _ _ ih =>
    intro c c' ls hl hσ
    obtain ⟨v, a, n, bodyLines, ls', c₁, -, -, -, hbody, -⟩ := hl.of_loop hk hcs
    exact ih hbody hσ
  | loopEnded hk hcs _ _ ih =>
    intro c c' ls hl hσ
    obtain ⟨v, a, n, bodyLines, ls', c₁, -, -, -, -, hrest⟩ := hl.of_loop hk hcs
    exact ih hrest hσ
  | assignmentTrapped | branchTrapped | loopTrapped | returnNothing | returnValue
  | returnTrapped => exact fun _ hσ => hσ

/-- Statements come to an outcome if their code stands where the machine is. -/
def Followed (s : Signature) (code : List Instruction) (start : State) : Prop :=
  ∀ ts c ls c', Lowered s ts c ls c' → ∀ pc τ σ, start = .running pc τ →
    CodeAt code pc (instructions ls) → Agree s σ τ → σ.Fits s → ∃ o σ', Executes ts σ o σ'

/-- The code of statements that finish leads behind it, with values that fit. -/
theorem finished_of_executes {ts : List Tree} (hs : PlainNames s) (hunique : UniqueLabels code)
    (h : Executes ts σ .finished σ') (hl : Lowered s ts c ls c')
    (hcode : CodeAt code pc (instructions ls)) (hστ : Agree s σ τ) (hσ : σ.Fits s) :
    ∃ τ', Reaches (step code) (.running pc τ) (.running (pc + (instructions ls).length) τ') ∧
      Agree s σ' τ' ∧ σ'.Fits s := by
  obtain ⟨τ', hagree, hreach⟩ := (comes_of_executes hs hunique h hl hcode rfl hστ).finished
  exact ⟨τ', hreach, hagree, fits_of_executes h hl hσ⟩

/-- Statements whose code runs to an end come to an outcome. -/
theorem exists_executes (hs : PlainNames s) (hunique : UniqueLabels code) {b : State}
    {ts : List Tree} (hb : b ∈ eval (step code) (.running pc τ)) (hl : Lowered s ts c ls c')
    (hcode : CodeAt code pc (instructions ls)) (hστ : Agree s σ τ) (hσ : σ.Fits s) :
    ∃ o σ', Executes ts σ o σ' := by
  suffices Followed s code (.running pc τ) from this ts c ls c' hl pc τ σ rfl hcode hστ hσ
  clear hl hcode hστ hσ
  refine eval_strong_induction hb ?_
  intro start _ later ts c ls c' hl pc' τ' σ hstart
  -- the lines of the parts are reached from the start, in no step or in some
  have hreach : Reaches (step code) start (.running pc' τ') := by
    rw [hstart]
    exact .refl
  clear hstart
  induction hl generalizing pc' τ' σ with
  | nil => exact fun _ _ _ => ⟨_, _, .nil⟩
  | @assignment t rest e ty v a n ls c c' hk hcs hx hty hrep _ ih =>
    intro hcode hστ hσ
    obtain ⟨hcode₁, hcode₂, -⟩ := codeAt_split rfl hcode rfl
    rcases evaluate_of_hasScalarType hσ hty with ⟨w, hw, -⟩ | hw
    · obtain ⟨τ₁, hreach₁, hagree⟩ := hrep.reaches_assigned hs hty hcode₁ hστ hw
      obtain ⟨o, σ', hrest⟩ :=
        ih _ τ₁ _ (hreach.trans hreach₁) hcode₂ hagree (fits_update hx hty hσ hw)
      exact ⟨o, σ', .assignment hk hcs hw hrest⟩
    · exact ⟨_, _, .assignmentTrapped hk hcs hw⟩
  | @block t rest body ls' c c₁ c' hk hbody _ ihbody ih =>
    intro hcode hστ hσ
    obtain ⟨hcode₁, hcode₂, -⟩ := codeAt_split rfl hcode rfl
    obtain ⟨o, σ₁, hexec⟩ := ihbody pc' τ' σ hreach hcode₁ hστ hσ
    by_cases ho : o = .finished
    · subst ho
      obtain ⟨τ₁, hreach₁, hagree, hfits⟩ :=
        finished_of_executes hs hunique hexec hbody hcode₁ hστ hσ
      obtain ⟨o, σ', hrest⟩ := ih _ τ₁ σ₁ (hreach.trans hreach₁) hcode₂ hagree hfits
      exact ⟨o, σ', .block hk hexec hrest⟩
    · exact ⟨o, σ₁, .blockLeft hk hexec ho⟩
  | @conditional t rest e first second v a n thenLines elseLines ls' c c₁ c₂ c' hk hcs hty hrep
      hthen helse _ ihthen ihelse ih =>
    intro hcode hστ hσ
    obtain ⟨hcode₁, hcode₂, -⟩ := codeAt_split rfl hcode rfl
    rcases evaluate_of_hasScalarType hσ hty with ⟨w, hw, hwty⟩ | hw
    · obtain ⟨w, rfl⟩ := Scalar.exists_truth hwty
      obtain ⟨p, τ₁, hpart, hreach₁, hagree, hout⟩ :=
        reaches_part hs hunique hrep hty hcode₁ hστ hw
      obtain ⟨_, _, hlowered⟩ := hthen.exists_part helse w
      -- whichever part is taken, its run starts where the condition leads
      have hpartExec : ∃ o σ₁, Executes (if w then [first] else second) σ o σ₁ := by
        cases w with
        | true => exact ihthen p τ₁ σ (hreach.trans hreach₁) hpart hagree hσ
        | false => exact ihelse p τ₁ σ (hreach.trans hreach₁) hpart hagree hσ
      obtain ⟨o, σ₁, hexec⟩ := hpartExec
      by_cases ho : o = .finished
      · subst ho
        obtain ⟨τ₂, hreach₂, hagree₂, hfits⟩ :=
          finished_of_executes hs hunique hexec hlowered hpart hagree hσ
        obtain ⟨o, σ', hrest⟩ := ih _ τ₂ σ₁
          (hreach.trans ((hreach₁.trans hreach₂).trans (hout τ₂))) hcode₂ hagree₂ hfits
        exact ⟨o, σ', .branch hk hcs hw hexec hrest⟩
      · exact ⟨o, σ₁, .branchLeft hk hcs hw hexec ho⟩
    · exact ⟨_, _, .branchTrapped hk hcs hw⟩
  | @loop t rest e body v a n bodyLines ls' c c₁ c' hk hcs hty hrep hbody hrest ihbody ih =>
    intro hcode hστ hσ
    obtain ⟨hcode₁, hcode₂, -⟩ := codeAt_split rfl hcode rfl
    rcases evaluate_of_hasScalarType hσ hty with ⟨w, hw, hwty⟩ | hw
    · obtain ⟨w, rfl⟩ := Scalar.exists_truth hwty
      cases w with
      | true =>
        obtain ⟨p, τ₁, hcode₃, hreach₁, hagree, hback⟩ :=
          reaches_body hs hunique hrep hty hcode₁ hστ hw
        obtain ⟨o, σ₁, hexec⟩ :=
          ihbody p τ₁ σ (hreach.trans hreach₁.to_reflTransGen) hcode₃ hagree hσ
        by_cases ho : o = .finished
        · subst ho
          obtain ⟨τ₂, hreach₂, hagree₂, hfits⟩ :=
            finished_of_executes hs hunique hexec hbody hcode₃ hagree hσ
          -- the next turn starts later on the run
          have hturn : Reaches₁ (step code) start (.running pc' τ₂) :=
            Relation.TransGen.trans_right hreach
              (Relation.TransGen.trans_left hreach₁ (hreach₂.trans (hback τ₂)))
          obtain ⟨o, σ', hmore⟩ := later _ hturn _ _ _ _
            (.loop hk hcs hty hrep hbody hrest) pc' τ₂ σ₁ rfl hcode hagree₂ hfits
          exact ⟨o, σ', .turn hk hcs hw hexec hmore⟩
        · exact ⟨o, σ₁, .turnLeft hk hcs hw hexec ho⟩
      | false =>
        obtain ⟨τ₁, hreach₁, hagree⟩ := reaches_behind hs hunique hrep hty hcode₁ hστ hw
        obtain ⟨o, σ', hrest⟩ := ih _ τ₁ σ (hreach.trans hreach₁) hcode₂ hagree hσ
        exact ⟨o, σ', .loopEnded hk hcs hw hrest⟩
    · exact ⟨_, _, .loopTrapped hk hcs hw⟩
  | returnNothing hk hcs => exact fun _ _ _ => ⟨_, _, .returnNothing hk hcs⟩
  | @returnValue t rest e ty tag v a n ls' c c' hk hcs hty hrep =>
    intro _ _ hσ
    rcases evaluate_of_hasScalarType hσ hty with ⟨w, hw, -⟩ | hw
    · exact ⟨_, _, .returnValue hk hcs hw⟩
    · exact ⟨_, _, .returnTrapped hk hcs hw⟩

/-! ### Methods -/

/-- The names in a signature are names, and no variable has the name of a
temporary. -/
structure PlainSignature (s : Signature) : Prop where
  name : IsName s.name
  result : IsName s.returnType.name
  declared : ∀ v ∈ s.parameters ++ s.locals, IsName v.name ∧ IsName v.ty.name ∧
    ∀ k, v.name ≠ (Cell.temporary k).text

theorem mem_of_typeOf? {x : String} {ty : Ty} (h : s.typeOf? x = some ty) :
    ∃ v ∈ s.parameters ++ s.locals, v.name = x := by
  obtain ⟨v, hv, -⟩ := Option.map_eq_some_iff.mp h
  have found {vs : List Variable} (hfind : Variable.find? vs x = some v) :
      v ∈ vs ∧ v.name = x := by
    rw [Variable.find?] at hfind
    have hname := List.find?_some hfind
    exact ⟨List.mem_of_find?_eq_some hfind, eq_of_beq hname⟩
  rcases Option.or_eq_some_iff.mp hv with hfind | ⟨-, hfind⟩
  · exact ⟨v, List.mem_append_right _ (found hfind).1, (found hfind).2⟩
  · exact ⟨v, List.mem_append_left _ (found hfind).1, (found hfind).2⟩

theorem PlainSignature.plainNames (h : PlainSignature s) : PlainNames s where
  isName := by
    intro x ty hx
    obtain ⟨v, hv, rfl⟩ := mem_of_typeOf? hx
    exact (h.declared v hv).1
  notTemporary := by
    intro x ty hx
    obtain ⟨v, hv, rfl⟩ := mem_of_typeOf? hx
    exact (h.declared v hv).2.2

theorem solid_ofName {x : String} (h : IsName x) : Solid (Tag.ofName x).text.toList := by
  rw [Tag.ofName]
  split
  · exact ⟨by decide, by decide⟩
  split
  · exact ⟨by decide, by decide⟩
  split
  · exact ⟨by decide, by decide⟩
  · rw [Tag.text, String.toList_append]
    exact Solid.append ⟨by decide, by decide⟩ h.solid

theorem solid_ofTy {ty : Ty} (h : IsName ty.name) : Solid (Tag.ofTy ty).text.toList := by
  cases ty with
  | scalar x => exact solid_ofName h
  | array x | varargs x =>
    rw [Tag.ofTy, Tag.text, String.toList_append]
    exact Solid.append ⟨by decide, by decide⟩ (solid_ofName h)

theorem not_mem_intercalate {c : Char} {sep : List Char} {xs : List (List Char)} (hsep : c ∉ sep)
    (hxs : ∀ x ∈ xs, c ∉ x) : c ∉ sep.intercalate xs := by
  induction xs with
  | nil => exact List.not_mem_nil
  | cons x rest ih =>
    have hx : c ∉ x := hxs x (List.mem_cons_self ..)
    have hrest := ih fun y hy => hxs y (List.mem_cons_of_mem _ hy)
    rcases rest with - | ⟨y, rest⟩
    · rwa [List.intercalate_singleton]
    · rw [List.intercalate_cons_cons]
      simp only [List.mem_append, not_or]
      exact ⟨⟨hx, hsep⟩, hrest⟩

/-- The head of a method is one line. -/
theorem noFeed_header {m : Method} (hname : Solid m.name.toList)
    (hparameters : ∀ p ∈ m.parameters, Solid p.1.toList ∧ Solid p.2.text.toList)
    (hresult : Solid m.result.text.toList) : '\n' ∉ m.header.toList := by
  -- a word for the access is written or not
  have haccess : ∀ b : Bool, ∀ word : String, '\n' ∉ word.toList →
      '\n' ∉ (if b then word else "").toList := by
    intro b word hword
    cases b
    · exact List.not_mem_nil
    · exact hword
  have hlist : '\n' ∉
      (", ".intercalate (m.parameters.map fun p => p.1 ++ p.2.text)).toList := by
    rw [String.toList_intercalate]
    refine not_mem_intercalate (by decide) ?_
    simp only [List.mem_map, forall_exists_index, and_imp]
    rintro _ _ p hp rfl rfl
    rw [String.toList_append]
    exact ((hparameters p hp).1.append (hparameters p hp).2).noFeed
  have htext : m.header = ".method " ++ (if m.isPublic then "public " else "") ++
      (if m.isStatic then "static " else "") ++ m.name ++ "(" ++
      ", ".intercalate (m.parameters.map fun p => p.1 ++ p.2.text) ++ ")" ++
      m.result.text ++ " \x7b" := rfl
  rw [htext]
  simp only [String.toList_append, List.mem_append, not_or]
  refine ⟨⟨⟨⟨⟨⟨⟨⟨by decide, haccess _ _ (by decide)⟩, haccess _ _ (by decide)⟩, hname.noFeed⟩,
    by decide⟩, hlist⟩, by decide⟩, hresult.noFeed⟩, by decide⟩

/-- The text of a method is read as code that, from any store with the same
values of the variables, comes to an outcome with some final values of the
variables exactly if the method does. -/
def Preserved (s : Signature) (t : Tree) (m : Method) : Prop :=
  ∃ code, readMethod? m.text = some code ∧
    ∀ σ τ : Store, σ.Fits s → Agree s σ τ → ∀ (o : Outcome) (final : Store),
      (∃ τ', Ends code τ o τ' ∧ Agree s final τ') ↔
        ∃ σ', MethodRuns s t σ o σ' ∧ Agree s final σ'

theorem Agree.symm {σ τ : Store} (h : Agree s σ τ) : Agree s τ σ :=
  fun x ty hx => (h x ty hx).symm

theorem Agree.trans {σ τ υ : Store} (h : Agree s σ τ) (h' : Agree s τ υ) : Agree s σ υ :=
  fun x ty hx => (h x ty hx).trans (h' x ty hx)

/-- The code of a method. -/
def codeOf (s : Signature) (t : Tree) (ls : List Line) : List Instruction :=
  instructions (ls ++ addedReturn s.returnType (statements t))

theorem labels_addedReturn (result : Ty) (body : List Tree) :
    labels (addedReturn result body) = [] := by
  rw [addedReturn]
  split <;> rfl

theorem uniqueLabels_codeOf (hl : Lowered s (statements t) c ls c') :
    UniqueLabels (codeOf s t ls) := by
  refine uniqueLabels_instructions ?_
  rw [labels_append, labels_addedReturn, List.append_nil]
  exact hl.labelsBetween.2.nodup

theorem codeAt_codeOf : CodeAt (codeOf s t ls) 0 (instructions ls) := by
  have h := codeAt_self (codeOf s t ls)
  rw [codeOf, instructions_append] at h ⊢
  exact h.left

/-- Behind the statements the machine returns if the method returns nothing,
and ends otherwise. -/
theorem reaches_settled (hlast : ∀ u ∈ (statements t).getLast?, u.kind ≠ .returnStmt) :
    Reaches (step (codeOf s t ls)) (.running (instructions ls).length τ)
      (.ended (s.settle .finished) τ) := by
  -- a `void` method has a return behind its statements, any other has nothing there
  by_cases hvoid : s.returnType = .void
  · have hadded : addedReturn s.returnType (statements t) = [.ret .void none] := by
      have hnone : (statements t).getLast?.any (·.kind == .returnStmt) = false := by
        rcases e : (statements t).getLast? with - | u
        · rfl
        · simpa using hlast u (Option.mem_def.mpr e)
      rw [addedReturn, hnone, hvoid]
      rfl
    have hret : (codeOf s t ls)[(instructions ls).length]? = some (.ret none) := by
      rw [codeOf, instructions_append, hadded]
      exact List.getElem?_concat_length
    rw [Signature.settle, if_pos ⟨rfl, hvoid⟩]
    exact reaches_ret hret
  · have hadded : addedReturn s.returnType (statements t) = [] := by
      rw [addedReturn, if_neg]
      simp [hvoid]
    have hcode : codeOf s t ls = instructions ls := by
      rw [codeOf, hadded, List.append_nil]
    rw [Signature.settle, if_neg fun h => hvoid h.2, hcode]
    exact reaches_of_step (step_behind τ)

/-- The code of a method comes to what the method comes to. -/
theorem ends_of_methodRuns (hs : PlainNames s) (hl : Lowered s (statements t) c ls c')
    (hστ : Agree s σ τ) (h : MethodRuns s t σ o σ') :
    ∃ τ', Ends (codeOf s t ls) τ o τ' ∧ Agree s σ' τ' := by
  obtain ⟨o', hexec, rfl⟩ := h
  obtain ⟨τ', hagree, hreach⟩ := comes_of_executes hs (uniqueLabels_codeOf hl) hexec hl
    codeAt_codeOf (Nat.zero_add _).symm hστ
  refine ⟨τ', ends_of_reaches ?_, hagree⟩
  by_cases ho : o' = .finished
  · subst ho
    rw [State.behind_finished] at hreach
    exact hreach.trans (reaches_settled (hexec.last_ne_return rfl))
  · rw [State.behind_of_ne ho] at hreach
    rwa [Signature.settle, if_neg fun h => ho h.1]

/-- A method whose code comes to an end comes to an outcome. -/
theorem exists_methodRuns (hs : PlainNames s) (hl : Lowered s (statements t) c ls c')
    (hσ : σ.Fits s) (hστ : Agree s σ τ) {τ' : Store} (h : Ends (codeOf s t ls) τ o τ') :
    ∃ o' σ', MethodRuns s t σ o' σ' := by
  obtain ⟨o', σ', hexec⟩ :=
    exists_executes hs (uniqueLabels_codeOf hl) h hl codeAt_codeOf hστ hσ
  exact ⟨s.settle o', σ', o', hexec, rfl⟩

/-- Lowering a method on numbers and truth values preserves what it means. -/
theorem preserved_of_lowered (hs : PlainNames s) (hl : Lowered s (statements t) c ls c')
    {m : Method} (hbody : m.body = ls ++ addedReturn s.returnType (statements t))
    (hheader : '\n' ∉ m.header.toList) : Preserved s t m := by
  have hlegible : ∀ l ∈ m.body, l.Legible := by
    rw [hbody]
    refine legible_append (hl.legible hs) ?_
    rw [addedReturn]
    split
    · exact legible_singleton (l := .ret .void none) ⟨by decide, by decide⟩
    · simp
  refine ⟨codeOf s t ls, by rw [readMethod?_text hheader hlegible, hbody, codeOf], ?_⟩
  intro σ τ hσ hστ o final
  constructor
  -- the machine has one end, so it is the one that the statements come to
  · rintro ⟨τ', hends, hfinal⟩
    obtain ⟨o', σ', hruns⟩ := exists_methodRuns hs hl hσ hστ hends
    obtain ⟨υ, hends', hagree⟩ := ends_of_methodRuns hs hl hστ hruns
    obtain ⟨rfl, rfl⟩ := hends.unique hends'
    exact ⟨σ', hruns, hfinal.trans hagree.symm⟩
  · rintro ⟨σ', hruns, hfinal⟩
    obtain ⟨τ', hends, hagree⟩ := ends_of_methodRuns hs hl hστ hruns
    exact ⟨τ', hends, hfinal.trans hagree⟩

/-! ### Methods of a program -/

section Program

variable {root cls : Tree} {d : Declarations}

/-- A method on numbers and truth values is lowered, whatever the counters. -/
theorem run_lowerMethod (hm : d.method? s.name = some s) (hsig : t.signature = .ok s)
    (hplain : PlainSignature s) (hbody : ∀ u ∈ statements t, ScalarStatement s u)
    (c : Counters) :
    ∃ m c', (lowerMethod d t).run c = .ok (m, c') ∧ m.name = t.name ∧ Preserved s t m := by
  obtain ⟨ls, c', hrun, hl⟩ :=
    lowerBlock_scalar hm hplain.plainNames (solid_ofTy hplain.result) hbody c
  have hname := Tree.name_of_signature hsig
  have hget := Tree.get?_name_of_signature hsig
  have hresult : (d.returnType? t.name).getD .void = s.returnType := by
    rw [Declarations.returnType?, hname, hm]
    rfl
  refine ⟨_, c', by rw [lowerMethod, hresult, hget, run_bind_ok hrun]; rfl, rfl, ?_⟩
  refine preserved_of_lowered hplain.plainNames hl rfl (noFeed_header ?_ ?_ ?_)
  · rw [hname]
    exact hplain.name.solid
  · intro p hp
    have hparameters := filterMap_toOption_of_mapM (Tree.signature_ok hsig).2.2.1
    simp only [hparameters, List.mem_map] at hp
    obtain ⟨v, hv, rfl⟩ := hp
    obtain ⟨hvname, hvty, -⟩ := hplain.declared v (List.mem_append_left _ hv)
    exact ⟨hvname.solid, solid_ofTy hvty⟩
  · exact solid_ofTy hplain.result

/-- The methods of a program were lowered from some counters on. -/
theorem exists_method_of_ofTree {p : Program} (hp : Program.ofTree d root = .ok p)
    (hcls : cls ∈ root.childrenOf .classDecl) (ht : t ∈ cls.childrenOf .methodDecl) :
    ∃ code ∈ p.classes, ∃ m ∈ code.methods, ∃ c₁ c₂,
      (lowerMethod d t).run c₁ = .ok (m, c₂) := by
  obtain ⟨c, hrun⟩ := run'_eq_ok hp
  obtain ⟨classes, c₁, hclasses, hrun⟩ := run_bind_eq_ok hrun
  obtain ⟨rfl, -⟩ := run_pure_eq_ok hrun
  obtain ⟨code, hcode, c₂, c₃, hclass⟩ := exists_of_forall₂ (forall₂_of_run_mapM hclasses) hcls
  obtain ⟨methods, c₄, hmethods, hclass⟩ := run_bind_eq_ok hclass
  obtain ⟨rfl, -⟩ := run_pure_eq_ok hclass
  obtain ⟨m, hm, hmethod⟩ := exists_of_forall₂ (forall₂_of_run_mapM hmethods) ht
  exact ⟨_, hcode, m, hm, hmethod⟩

theorem ofLines_append (a b : List String) : ofLines (a ++ b) = ofLines a ++ ofLines b := by
  rw [ofLines, ofLines, ofLines, List.map_append, String.join_append]

theorem infix_flatMap {α β : Type} {f : α → List β} {xs : List α} {x : α} (hx : x ∈ xs) :
    f x <:+: xs.flatMap f := by
  rw [List.flatMap_def]
  exact List.infix_of_mem_flatten (List.mem_map_of_mem hx)

/-- The text of a method stands in the text of the program. -/
theorem exists_text_eq {p : Program} {code : ClassCode} {m : Method} (hcode : code ∈ p.classes)
    (hm : m ∈ code.methods) : ∃ before after, p.text = before ++ m.text ++ after := by
  have hclass : m.lines <:+: code.lines :=
    (infix_flatMap hm).trans (List.infix_append ..)
  obtain ⟨before, after, hlines⟩ := hclass.trans
    ((infix_flatMap hcode).trans (List.suffix_append ..).isInfix)
  exact ⟨ofLines before, ofLines after, by
    rw [Program.text, ← hlines, ofLines_append, ofLines_append, Method.text]⟩

/-- For every method of a class on numbers and truth values, the code that is
written for it means what the method means: it is lowered from any counters,
and where a whole program is lowered its text holds such a text of the method. -/
theorem lowering_preserves_meaning (hd : Declarations.ofTree root = .ok d)
    (hcls : root.children.getLast? = some cls) (ht : t ∈ cls.childrenOf .methodDecl)
    (hsig : t.signature = .ok s) (hnames : (d.methods.map (·.name)).Nodup)
    (hplain : PlainSignature s) (hbody : ∀ u ∈ statements t, ScalarStatement s u) :
    (∀ c, ∃ m c', (lowerMethod d t).run c = .ok (m, c') ∧ m.name = t.name ∧ Preserved s t m) ∧
    (∀ p, Program.ofTree d root = .ok p → ∃ code ∈ p.classes, ∃ m ∈ code.methods,
      m.name = t.name ∧ (∃ before after, p.text = before ++ m.text ++ after) ∧
        Preserved s t m) := by
  have hm := Declarations.method?_of_signature hd hcls hnames ht hsig
  have hrun := run_lowerMethod hm hsig hplain hbody
  refine ⟨hrun, ?_⟩
  intro p hp
  have hmem : cls ∈ root.childrenOf .classDecl := by
    refine List.mem_filter.mpr ⟨List.mem_of_getLast? hcls, ?_⟩
    rw [(Declarations.methods_of_ofTree hd hcls).1]
    rfl
  obtain ⟨code, hcode, m, hmethod, c₁, c₂, hlower⟩ := exists_method_of_ofTree hp hmem ht
  obtain ⟨m', c', hlower', hname, hpreserved⟩ := hrun c₁
  rw [hlower] at hlower'
  injection hlower' with h
  injection h with h
  subst h
  exact ⟨code, hcode, m, hmethod, hname, exists_text_eq hcode hmethod, hpreserved⟩

end Program

/-! ### A method on numbers and truth values

    int fall(int n, boolean up) {
      while (0 < n) { if (up) n = n * 2; else n = n - 1; }
      return n / 3;
    }
-/

/-- A node at no known place. -/
def node (kind : Kind) (attributes : List (String × String)) (cs : List Tree) : Tree :=
  .node ⟨0, kind, .ofList attributes, default⟩ cs

def falling : Tree :=
  let typeName (x : String) := node .typeName [("value", x)] []
  let parameter (x ty : String) := node .parameter [("name", x)] [typeName ty]
  let variable_ (x : String) := node .identifier [("name", x)] []
  let number (x : String) := node .integer [("value", x)] []
  let arithmetic (op : String) (left right : Tree) := node .arithmetic [("op", op)] [left, right]
  let assignment (e : Tree) := node .assignment [("name", "n")] [e]
  node .methodDecl [("name", "fall")]
    [typeName "int", parameter "n" "int", parameter "up" "boolean",
     node .loop []
      [node .logical [("op", "<")] [number "0", variable_ "n"],
       node .conditional []
        [variable_ "up", assignment (arithmetic "*" (variable_ "n") (number "2")),
         assignment (arithmetic "-" (variable_ "n") (number "1"))]],
     node .returnStmt [] [arithmetic "/" (variable_ "n") (number "3")]]

def fallingClass : Tree := node .classDecl [("name", "Down")] [falling]

def fallingSignature : Signature :=
  ⟨"fall", .int, [⟨"n", .int⟩, ⟨"up", .boolean⟩], [], false⟩

def fallingDeclarations : Declarations := ⟨"Down", none, [], [], [fallingSignature]⟩

theorem plainSignature_falling : PlainSignature fallingSignature where
  name := ⟨rfl, by decide, by decide, by decide⟩
  result := ⟨rfl, by decide, by decide, by decide⟩
  declared := by
    have notTemporary : ∀ x : String, x.toList.head? ≠ some 't' →
        ∀ k, x ≠ (Cell.temporary k).text := by
      rintro x hx k rfl
      have hchars : (Cell.temporary k).text.toList = 't' :: k.repr.toList := by
        show ("t" ++ k.repr).toList = _
        rw [String.toList_append]
        rfl
      rw [hchars] at hx
      exact hx rfl
    intro v hv
    rcases List.mem_cons.mp hv with rfl | hv
    · exact ⟨⟨rfl, by decide, by decide, by decide⟩, ⟨rfl, by decide, by decide, by decide⟩,
        notTemporary "n" (by decide)⟩
    · rw [List.mem_singleton.mp hv]
      exact ⟨⟨rfl, by decide, by decide, by decide⟩, ⟨rfl, by decide, by decide, by decide⟩,
        notTemporary "up" (by decide)⟩

theorem scalarStatement_falling : ∀ u ∈ statements falling, ScalarStatement fallingSignature u := by
  have hn : ∀ t : Tree, t.kind = .identifier → t.get? "name" = some "n" →
      HasScalarType fallingSignature t .int :=
    fun t hk hname => .identifier hk hname (by decide) (Or.inl rfl)
  intro u hu
  have hcases : u ∈ [(statements falling)[0], (statements falling)[1]] := hu
  rcases List.mem_cons.mp hcases with rfl | hu
  · refine .loop rfl rfl (.comparison rfl rfl rfl (.integer (v := 0) rfl (by decide)) (hn _ rfl rfl)) ?_
    refine .conditional rfl rfl (by decide) (.identifier rfl rfl (by decide) (Or.inr rfl)) ?_ ?_
    · exact .assignment rfl rfl (by decide) rfl
        (.arithmetic rfl rfl rfl (hn _ rfl rfl) (.integer (v := 2) rfl (by decide)))
    · intro e he
      rw [List.mem_singleton.mp he]
      exact .assignment rfl rfl (by decide) rfl
        (.arithmetic rfl rfl rfl (hn _ rfl rfl) (.integer (v := 1) rfl (by decide)))
  · rw [List.mem_singleton.mp hu]
    exact .returnValue rfl rfl
      (.arithmetic rfl rfl rfl (hn _ rfl rfl) (.integer (v := 3) rfl (by decide)))

theorem lowering_preserves_falling :
    Declarations.ofTree (node .program [] [fallingClass]) = .ok fallingDeclarations ∧
    (∀ c, ∃ m c', (lowerMethod fallingDeclarations falling).run c = .ok (m, c') ∧
      m.name = falling.name ∧ Preserved fallingSignature falling m) ∧
    (∀ p, Program.ofTree fallingDeclarations (node .program [] [fallingClass]) = .ok p →
      ∃ code ∈ p.classes, ∃ m ∈ code.methods, m.name = falling.name ∧
        (∃ before after, p.text = before ++ m.text ++ after) ∧
        Preserved fallingSignature falling m) :=
  ⟨rfl, lowering_preserves_meaning
    (show Declarations.ofTree (node .program [] [fallingClass]) = .ok _ from rfl) rfl
    (List.mem_singleton_self falling) rfl (by decide) plainSignature_falling
    scalarStatement_falling⟩

end JavaMinus.ThreeAddress
