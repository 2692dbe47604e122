/-
JavaMinus/Proofs/ThreeAddress/Layout.lean

Running branches and loops.

Where the lines of a branch or a loop stand in code without repeated labels,
the machine comes from the condition to the right part, and from the end of a
part to where it should go on.  No other place is reached than in a branch or
a loop that is written with brackets.
-/
import JavaMinus.Proofs.ThreeAddress.Statements

namespace JavaMinus.ThreeAddress

open Machine StateTransition

/-! ### Stores that agree -/

/-- The stores have the same values for the variables of the method. -/
def Agree (s : Signature) (σ τ : Store) : Prop :=
  ∀ x ty, s.typeOf? x = some ty → σ x = τ x

theorem Agree.update {s : Signature} {σ τ : Store} (h : Agree s σ τ) (x : String) (v : Scalar) :
    Agree s (Function.update σ x v) (Function.update τ x v) := by
  intro y ty hy
  by_cases hyx : y = x
  · rw [hyx, Function.update_self, Function.update_self]
  · rw [Function.update_of_ne hyx, Function.update_of_ne hyx, h y ty hy]

theorem Agree.frame {s : Signature} (hs : PlainNames s) {n : Nat} {σ τ υ : Store}
    (h : Agree s σ τ) (hframe : Frame n τ υ) : Agree s σ υ := by
  intro x ty hx
  rw [h x ty hx, hframe.eq_of_plain hs x ty hx]

variable {s : Signature} {code : List Instruction}

/-! ### Expressions -/

section Expressions

variable {e : Tree} {ty : Ty} {v : Value} {a : Atom} {n n' pc : Nat} {σ τ : Store}

theorem Represents.reaches_value (hs : PlainNames s) (h : Represents e v a n n')
    (hty : HasScalarType s e ty) (hcode : CodeAt code pc (instructions v.code))
    (hστ : Agree s σ τ) {w : Scalar} (hw : evaluate σ e = some (.value w)) :
    ∃ τ', Reaches (step code) (.running pc τ)
        (.running (pc + (instructions v.code).length) τ') ∧ Agree s σ τ' ∧ a.value τ' = w := by
  have hrun := h.computes code pc τ hcode
  rw [← evaluate_congr hστ hty, hw] at hrun
  obtain ⟨τ', hreach, hframe, hvalue⟩ := hrun
  exact ⟨τ', hreach, hστ.frame hs hframe, hvalue⟩

theorem Represents.reaches_trapped (hs : PlainNames s) (h : Represents e v a n n')
    (hty : HasScalarType s e ty) (hcode : CodeAt code pc (instructions v.code))
    (hστ : Agree s σ τ) (hw : evaluate σ e = some .trapped) :
    ∃ τ', Reaches (step code) (.running pc τ) (.ended .trapped τ') ∧ Agree s σ τ' := by
  have hrun := h.computes code pc τ hcode
  rw [← evaluate_congr hστ hty, hw] at hrun
  obtain ⟨τ', hreach, hframe⟩ := hrun
  exact ⟨τ', hreach, hστ.frame hs hframe⟩

end Expressions

/-! ### Branches -/

theorem instructions_conditionalLines {k : Nat} {v : Value} {a : Atom}
    (ha : v.operand.atom? = some a) (thenLines elseLines : List Line) :
    instructions (conditionalLines k v thenLines elseLines) =
      instructions v.code ++ .branch a (Label.text ⟨.thenBranch, k⟩) ::
        (instructions elseLines ++ .jump (Label.text ⟨.conditionalEnd, k⟩) ::
          .label (Label.text ⟨.thenBranch, k⟩) :: (instructions thenLines ++
            [.label (Label.text ⟨.conditionalEnd, k⟩)])) := by
  simp [conditionalLines, instructions, Line.instruction?, ha]

section Branches

variable {e : Tree} {v : Value} {a : Atom} {n n' k pc : Nat} {thenLines elseLines : List Line}
  {σ τ : Store}

/-- A condition leads to its part, and the end of the part to the end of the
branch. -/
theorem reaches_part (hs : PlainNames s) (hunique : UniqueLabels code)
    (h : Represents e v a n n') (hty : HasScalarType s e .boolean)
    (hcode : CodeAt code pc (instructions (conditionalLines k v thenLines elseLines)))
    (hστ : Agree s σ τ) {w : Bool} (hw : evaluate σ e = some (.value (.truth w))) :
    ∃ p τ', CodeAt code p (instructions (if w then thenLines else elseLines)) ∧
      Reaches (step code) (.running pc τ) (.running p τ') ∧ Agree s σ τ' ∧
      ∀ υ, Reaches (step code)
        (.running (p + (instructions (if w then thenLines else elseLines)).length) υ)
        (.running (pc + (instructions (conditionalLines k v thenLines elseLines)).length) υ) := by
  rw [instructions_conditionalLines h.atom] at hcode ⊢
  obtain ⟨τ', hreach, hagree, hvalue⟩ := h.reaches_value hs hty hcode.left hστ hw
  -- behind the condition: the branch, the else-part, the jump, the then-part and the end
  have hbranch := hcode.right.head
  have helse := hcode.right.tail.left
  have hjump := hcode.right.tail.right.head
  have hthenLabel := hcode.right.tail.right.tail.head
  have hthen := hcode.right.tail.right.tail.tail.left
  have hend := hcode.right.tail.right.tail.tail.right.head
  cases w with
  | true =>
    refine ⟨_, τ', hthen, ?_, hagree, ?_⟩
    · exact (hreach.trans (reaches_branch_true hunique hbranch hthenLabel hvalue)).trans
        (reaches_label hthenLabel rfl)
    · intro υ
      refine reaches_label hend ?_
      simp only [List.length_append, List.length_cons, List.length_nil, if_true]
      omega
  | false =>
    refine ⟨_, τ', helse, hreach.trans (reaches_branch_false hbranch hvalue), hagree, ?_⟩
    intro υ
    refine (reaches_jump hunique hjump hend).trans (reaches_label hend ?_)
    simp only [List.length_append, List.length_cons, List.length_nil]
    omega

end Branches

/-! ### Loops -/

theorem instructions_loopLines {k : Nat} {v : Value} {a : Atom}
    (ha : v.operand.atom? = some a) (bodyLines : List Line) :
    instructions (loopLines k v bodyLines) =
      .label (Label.text ⟨.loopCondition, k⟩) :: (instructions v.code ++
        .branch a (Label.text ⟨.loopBody, k⟩) :: .jump (Label.text ⟨.loopEnd, k⟩) ::
          .label (Label.text ⟨.loopBody, k⟩) :: (instructions bodyLines ++
            [.jump (Label.text ⟨.loopCondition, k⟩), .label (Label.text ⟨.loopEnd, k⟩)])) := by
  simp [loopLines, instructions, Line.instruction?, ha]

section Loops

variable {e : Tree} {v : Value} {a : Atom} {n n' k pc : Nat} {bodyLines : List Line}
  {σ τ : Store}

/-- While the condition holds, it leads to the body, and the end of the body
back to the condition. -/
theorem reaches_body (hs : PlainNames s) (hunique : UniqueLabels code)
    (h : Represents e v a n n') (hty : HasScalarType s e .boolean)
    (hcode : CodeAt code pc (instructions (loopLines k v bodyLines)))
    (hστ : Agree s σ τ) (hw : evaluate σ e = some (.value (.truth true))) :
    ∃ p τ', CodeAt code p (instructions bodyLines) ∧
      Reaches₁ (step code) (.running pc τ) (.running p τ') ∧ Agree s σ τ' ∧
      ∀ υ, Reaches (step code) (.running (p + (instructions bodyLines).length) υ)
        (.running pc υ) := by
  rw [instructions_loopLines h.atom] at hcode
  have hhead := hcode.head
  obtain ⟨τ', hreach, hagree, hvalue⟩ := h.reaches_value hs hty hcode.tail.left hστ hw
  have hbranch := hcode.tail.right.head
  have hbodyLabel := hcode.tail.right.tail.tail.head
  have hbody := hcode.tail.right.tail.tail.tail.left
  have hback := hcode.tail.right.tail.tail.tail.right.head
  refine ⟨_, τ', hbody, ?_, hagree, fun υ => reaches_jump hunique hback hhead⟩
  refine reaches₁_of_step (step_running τ hhead) ?_
  exact (hreach.trans (reaches_branch_true hunique hbranch hbodyLabel hvalue)).trans
    (reaches_label hbodyLabel rfl)

/-- When the condition does not hold, it leads behind the loop. -/
theorem reaches_behind (hs : PlainNames s) (hunique : UniqueLabels code)
    (h : Represents e v a n n') (hty : HasScalarType s e .boolean)
    (hcode : CodeAt code pc (instructions (loopLines k v bodyLines)))
    (hστ : Agree s σ τ) (hw : evaluate σ e = some (.value (.truth false))) :
    ∃ τ', Reaches (step code) (.running pc τ)
        (.running (pc + (instructions (loopLines k v bodyLines)).length) τ') ∧
      Agree s σ τ' := by
  rw [instructions_loopLines h.atom] at hcode ⊢
  have hhead := hcode.head
  obtain ⟨τ', hreach, hagree, hvalue⟩ := h.reaches_value hs hty hcode.tail.left hστ hw
  have hbranch := hcode.tail.right.head
  have hjump := hcode.tail.right.tail.head
  have hend := hcode.tail.right.tail.tail.tail.right.tail.head
  refine ⟨τ', ?_, hagree⟩
  refine (reaches_label hhead rfl).trans (hreach.trans
    ((reaches_branch_false hbranch hvalue).trans ((reaches_jump hunique hjump hend).trans
      (reaches_label hend ?_))))
  simp only [List.length_append, List.length_cons, List.length_nil]
  omega

/-- A condition that is trapped traps the loop. -/
theorem reaches_loopTrapped (hs : PlainNames s)
    (h : Represents e v a n n') (hty : HasScalarType s e .boolean)
    (hcode : CodeAt code pc (instructions (loopLines k v bodyLines)))
    (hστ : Agree s σ τ) (hw : evaluate σ e = some .trapped) :
    ∃ τ', Reaches (step code) (.running pc τ) (.ended .trapped τ') ∧ Agree s σ τ' := by
  rw [instructions_loopLines h.atom] at hcode
  obtain ⟨τ', hreach, hagree⟩ := h.reaches_trapped hs hty hcode.tail.left hστ hw
  exact ⟨τ', (reaches_label hcode.head rfl).trans hreach, hagree⟩

end Loops

end JavaMinus.ThreeAddress
