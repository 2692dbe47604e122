/-
JavaMinus/Proofs/ThreeAddress/Statements.lean

The shape of lowered statements.

What the lowering of statements comes to is said once more, as a relation
between statements, the counters before and behind them, and lines
(`Lowered`).  Statements on numbers and truth values are always lowered, and
their lines stand in this relation to them (`lowerBlock_scalar`).

Two things are read off the relation by induction: all lines are legible
(`Lowered.legible`), and no label stands twice (`Lowered.labelsBetween`).  The
second holds since a branch or loop takes a number of its own, and its parts
take later ones.
-/
import JavaMinus.Proofs.ThreeAddress.Expressions
import JavaMinus.ThreeAddress.Statement

namespace JavaMinus.ThreeAddress

open Machine Reading

/-! ### Lowered statements -/

/-- The lines are those of the statements, and take the counters from the
first pair to the second. -/
inductive Lowered (s : Signature) : List Tree → Counters → List Line → Counters → Prop
  | nil {c} : Lowered s [] c [] c
  | assignment {t rest e ty v a n ls c c'} : t.kind = .assignment → t.children = [e] →
      s.typeOf? t.name = some ty → HasScalarType s e ty → Represents e v a c.temporaries n →
      Lowered s rest ⟨n, c.labels⟩ ls c' →
      Lowered s (t :: rest) c
        (v.code ++ [.assign (.named t.name) (Tag.ofTy ty) (.operand v.operand)] ++ ls) c'
  | block {t rest ls ls' c c₁ c'} : t.kind = .block → Lowered s t.children c ls c₁ →
      Lowered s rest c₁ ls' c' → Lowered s (t :: rest) c (ls ++ ls') c'
  | conditional {t rest e first second v a n thenLines elseLines ls c c₁ c₂ c'} :
      t.kind = .conditional → t.children = e :: first :: second →
      HasScalarType s e .boolean → Represents e v a c.temporaries n →
      Lowered s [first] ⟨n, c.labels + 1⟩ thenLines c₁ → Lowered s second c₁ elseLines c₂ →
      Lowered s rest c₂ ls c' →
      Lowered s (t :: rest) c (conditionalLines c.labels v thenLines elseLines ++ ls) c'
  | loop {t rest e body v a n bodyLines ls c c₁ c'} : t.kind = .loop →
      t.children = [e, body] → HasScalarType s e .boolean → Represents e v a c.temporaries n →
      Lowered s [body] ⟨n, c.labels + 1⟩ bodyLines c₁ → Lowered s rest c₁ ls c' →
      Lowered s (t :: rest) c (loopLines c.labels v bodyLines ++ ls) c'
  | returnNothing {t rest tag ls c c'} : t.kind = .returnStmt → t.children = [] →
      Solid (Tag.text tag).toList → Lowered s rest c ls c' →
      Lowered s (t :: rest) c ([.ret tag none] ++ ls) c'
  | returnValue {t rest e ty tag v a n ls c c'} : t.kind = .returnStmt → t.children = [e] →
      HasScalarType s e ty → Solid (Tag.text tag).toList → Represents e v a c.temporaries n →
      Lowered s rest ⟨n, c.labels⟩ ls c' →
      Lowered s (t :: rest) c (v.code ++ [.ret tag (some v.operand)] ++ ls) c'

/-- A statement in front of others. -/
theorem Lowered.cons {s : Signature} {t : Tree} {rest : List Tree} {ls ls' : List Line}
    {c c₁ c' : Counters} (h : Lowered s [t] c ls c₁) (hrest : Lowered s rest c₁ ls' c') :
    Lowered s (t :: rest) c (ls ++ ls') c' := by
  cases h with
  | assignment hk hcs hx hty hv hnil =>
    cases hnil
    rw [List.append_nil]
    exact .assignment hk hcs hx hty hv hrest
  | block hk hbody hnil =>
    cases hnil
    rw [List.append_nil]
    exact .block hk hbody hrest
  | conditional hk hcs hty hv hthen helse hnil =>
    cases hnil
    rw [List.append_nil]
    exact .conditional hk hcs hty hv hthen helse hrest
  | loop hk hcs hty hv hbody hnil =>
    cases hnil
    rw [List.append_nil]
    exact .loop hk hcs hty hv hbody hrest
  | returnNothing hk hcs ht hnil =>
    cases hnil
    rw [List.append_nil]
    exact .returnNothing hk hcs ht hrest
  | returnValue hk hcs hty ht hv hnil =>
    cases hnil
    rw [List.append_nil]
    exact .returnValue hk hcs hty ht hv hrest

/-! ### Lowering statements -/

variable {d : Declarations} {m : String} {s : Signature} {result : Ty}

theorem childAt_ok {t e : Tree} {rest : List Tree} (h : t.children = e :: rest) :
    childAt t 0 = .ok e := by
  rw [childAt, h]
  rfl

theorem childAt_one_ok {t e e' : Tree} {rest : List Tree} (h : t.children = e :: e' :: rest) :
    childAt t 1 = .ok e' := by
  rw [childAt, h]
  rfl

/-- A name that is a variable of the method is one for assignments too, and no
field. -/
theorem assigned?_of_typeOf? (hm : d.method? m = some s) {t : Tree} {ty : Ty}
    (hx : s.typeOf? t.name = some ty) :
    ∃ origin, assigned? d (some m) t = some ⟨origin, ty⟩ ∧ origin ≠ .field := by
  rw [assigned?, Declarations.variableOf?, Option.getD_some, Option.bind_some]
  rcases methodVariable?_of_typeOf? hm hx with h | h <;> rw [h]
  · exact ⟨.local, rfl, by decide⟩
  · exact ⟨.parameter, rfl, by decide⟩

/-- The line that assigns to a variable. -/
def assignmentLine (b : Binding) (x : String) (value : Operand) : Line :=
  if b.origin == .field then .fieldWrite x (Tag.ofTy b.ty) value
  else .assign (.named x) (Tag.ofTy b.ty) (.operand value)

theorem run_lowerAssignment_of_assigned? {scope : Option String} {t e : Tree} {b : Binding}
    (hb : assigned? d scope t = some b) {v : Value} {c c' : Counters} (hcs : t.children = [e])
    (hv : (lower d scope e (some b.ty)).run c = .ok (v, c')) :
    (lowerAssignment d scope t).run c =
      .ok (v.code ++ [assignmentLine b t.name v.operand], c') := by
  rw [lowerAssignment, hb, run_bind_ok (run_lift_ok c (childAt_ok hcs)), Option.map_some,
    Option.getD_some, run_bind_ok hv, Option.any_some, assignmentLine]
  split <;> rfl

theorem run_lowerAssignment (hm : d.method? m = some s) {t e : Tree} {ty : Ty} {v : Value}
    {c c' : Counters} (hcs : t.children = [e]) (hx : s.typeOf? t.name = some ty)
    (hv : (lower d (some m) e (some ty)).run c = .ok (v, c')) :
    (lowerAssignment d (some m) t).run c =
      .ok (v.code ++ [.assign (.named t.name) (Tag.ofTy ty) (.operand v.operand)], c') := by
  obtain ⟨origin, htarget, hfield⟩ := assigned?_of_typeOf? hm hx
  have hrun := run_lowerAssignment_of_assigned? htarget hcs hv
  rwa [assignmentLine, if_neg (by simpa using hfield)] at hrun

theorem run_lowerReturn {t e : Tree} {v : Value} {c c' : Counters} (hcs : t.children = [e])
    (hv : (lower d (some m) e (some result)).run c = .ok (v, c')) :
    (lowerReturn d (some m) result t).run c =
      .ok (v.code ++ [.ret (Tag.ofTy result) (some v.operand)], c') := by
  rw [lowerReturn, hcs]
  exact run_bind_ok hv

/-! ### One equation for each form of statement -/

variable {scope : Option String} {t : Tree}

theorem lowerStatement_assignment (h : t.kind = .assignment) :
    lowerStatement d scope result t = lowerAssignment d scope t := by
  obtain ⟨head, cs⟩ := t
  have hk : head.kind = .assignment := h
  rw [lowerStatement, hk]

theorem lowerStatement_elementAssignment (h : t.kind = .elementAssignment) :
    lowerStatement d scope result t = lowerElementAssignment d scope t := by
  obtain ⟨head, cs⟩ := t
  have hk : head.kind = .elementAssignment := h
  rw [lowerStatement, hk]

theorem lowerStatement_expressionStmt (h : t.kind = .expressionStmt) :
    lowerStatement d scope result t = lowerExpressionStmt d scope t := by
  obtain ⟨head, cs⟩ := t
  have hk : head.kind = .expressionStmt := h
  rw [lowerStatement, hk]

theorem lowerStatement_return (h : t.kind = .returnStmt) :
    lowerStatement d scope result t = lowerReturn d scope result t := by
  obtain ⟨head, cs⟩ := t
  have hk : head.kind = .returnStmt := h
  rw [lowerStatement, hk]

theorem lowerStatement_block (h : t.kind = .block) :
    lowerStatement d scope result t = lowerBlock d scope result t.children := by
  obtain ⟨head, cs⟩ := t
  have hk : head.kind = .block := h
  rw [lowerStatement, hk]
  rfl

theorem run_lowerStatement_conditional (h : t.kind = .conditional) {e first : Tree}
    {second : List Tree} (hcs : t.children = e :: first :: second) {c c₀ c₁ c₂ : Counters}
    {v : Value} {thenLines elseLines : List Line}
    (hv : (lower d scope e (some .boolean)).run ⟨c.temporaries, c.labels + 1⟩ = .ok (v, c₀))
    (hthen : (lowerStatement d scope result first).run c₀ = .ok (thenLines, c₁))
    (helse : (lowerFirst d scope result second).run c₁ = .ok (elseLines, c₂)) :
    (lowerStatement d scope result t).run c =
      .ok (conditionalLines c.labels v thenLines elseLines, c₂) := by
  obtain ⟨head, cs⟩ := t
  have hk : head.kind = .conditional := h
  obtain rfl : cs = e :: first :: second := hcs
  have hfresh : freshLabel.run c = .ok (c.labels, ⟨c.temporaries, c.labels + 1⟩) := rfl
  rw [lowerStatement, hk]
  exact (run_bind_ok hfresh).trans
    ((run_bind_ok hv).trans ((run_bind_ok hthen).trans (run_bind_ok helse)))

theorem run_lowerStatement_loop (h : t.kind = .loop) {e body : Tree}
    (hcs : t.children = [e, body]) {c c₀ c₁ : Counters} {v : Value} {bodyLines : List Line}
    (hv : (lower d scope e (some .boolean)).run ⟨c.temporaries, c.labels + 1⟩ = .ok (v, c₀))
    (hbody : (lowerStatement d scope result body).run c₀ = .ok (bodyLines, c₁)) :
    (lowerStatement d scope result t).run c = .ok (loopLines c.labels v bodyLines, c₁) := by
  obtain ⟨head, cs⟩ := t
  have hk : head.kind = .loop := h
  obtain rfl : cs = [e, body] := hcs
  have hfresh : freshLabel.run c = .ok (c.labels, ⟨c.temporaries, c.labels + 1⟩) := rfl
  rw [lowerStatement, hk]
  exact (run_bind_ok hfresh).trans ((run_bind_ok hv).trans (run_bind_ok hbody))

/-! ### Scalar statements -/

/-- Statements that are lowered one by one are lowered as a row. -/
theorem lowerBlock_of_each {ts : List Tree}
    (h : ∀ t ∈ ts, ∀ c, ∃ ls c',
      (lowerStatement d scope result t).run c = .ok (ls, c') ∧ Lowered s [t] c ls c')
    (c : Counters) :
    ∃ ls c', (lowerBlock d scope result ts).run c = .ok (ls, c') ∧ Lowered s ts c ls c' := by
  induction ts generalizing c with
  | nil => exact ⟨[], c, by rw [lowerBlock]; rfl, .nil⟩
  | cons t rest ih =>
    obtain ⟨ls, c₁, hrun, hlowered⟩ := h t (List.mem_cons_self ..) c
    obtain ⟨ls', c', hrun', hlowered'⟩ := ih (fun t ht => h t (List.mem_cons_of_mem _ ht)) c₁
    refine ⟨ls ++ ls', c', ?_, hlowered.cons hlowered'⟩
    rw [lowerBlock, run_bind_ok hrun, run_bind_ok hrun']
    rfl

theorem lowerStatement_scalar (hm : d.method? m = some s) (hs : PlainNames s)
    (hresult : Solid (Tag.ofTy result).text.toList) (h : ScalarStatement s t) (c : Counters) :
    ∃ ls c', (lowerStatement d (some m) result t).run c = .ok (ls, c') ∧
      Lowered s [t] c ls c' := by
  induction h generalizing c with
  | @assignment t x ty e hk hname hx hcs hty =>
    have hx' : s.typeOf? t.name = some ty := by rwa [Tree.name, hname, Option.getD_some]
    obtain ⟨v, a, n, hrun, hv⟩ := lower_scalar hm hs hty (some ty) c
    refine ⟨_, _, by rw [lowerStatement_assignment hk, run_lowerAssignment hm hcs hx' hrun], ?_⟩
    simpa using Lowered.assignment hk hcs hx' hty hv .nil
  | @block t hk _ ih =>
    obtain ⟨ls, c', hrun, hbody⟩ := lowerBlock_of_each ih c
    refine ⟨ls, c', by rw [lowerStatement_block hk, hrun], ?_⟩
    simpa using Lowered.block hk hbody .nil
  | @conditional t e first second hk hcs hlength hty _ _ ihfirst ihsecond =>
    obtain ⟨v, a, n, hrun, hv⟩ :=
      lower_scalar hm hs hty (some .boolean) ⟨c.temporaries, c.labels + 1⟩
    obtain ⟨thenLines, c₁, hthen, hThen⟩ := ihfirst ⟨n, c.labels + 1⟩
    -- without an else-part there is nothing to lower
    have helse : ∃ elseLines c₂,
        (lowerFirst d (some m) result second).run c₁ = .ok (elseLines, c₂) ∧
          Lowered s second c₁ elseLines c₂ := by
      rcases second with - | ⟨b, - | ⟨b', rest⟩⟩
      · exact ⟨[], c₁, by rw [lowerFirst]; rfl, .nil⟩
      · rw [lowerFirst]
        exact ihsecond b (List.mem_cons_self ..) c₁
      · simp at hlength
    obtain ⟨elseLines, c₂, helse, hElse⟩ := helse
    refine ⟨_, c₂, run_lowerStatement_conditional hk hcs hrun hthen helse, ?_⟩
    simpa using Lowered.conditional (c := c) hk hcs hty hv hThen hElse .nil
  | @loop t e body hk hcs hty _ ih =>
    obtain ⟨v, a, n, hrun, hv⟩ :=
      lower_scalar hm hs hty (some .boolean) ⟨c.temporaries, c.labels + 1⟩
    obtain ⟨bodyLines, c₁, hbody, hBody⟩ := ih ⟨n, c.labels + 1⟩
    refine ⟨_, c₁, run_lowerStatement_loop hk hcs hrun hbody, ?_⟩
    simpa using Lowered.loop (c := c) hk hcs hty hv hBody .nil
  | @returnNothing t hk hcs =>
    refine ⟨[.ret (Tag.ofTy result) none], c, ?_, ?_⟩
    · rw [lowerStatement_return hk, lowerReturn, hcs]
      rfl
    · simpa using Lowered.returnNothing hk hcs hresult .nil
  | @returnValue t e ty hk hcs hty =>
    obtain ⟨v, a, n, hrun, hv⟩ := lower_scalar hm hs hty (some result) c
    refine ⟨_, _, by rw [lowerStatement_return hk, run_lowerReturn hcs hrun], ?_⟩
    simpa using Lowered.returnValue hk hcs hty hresult hv .nil

/-- Statements on numbers and truth values are lowered to lines of their
shape. -/
theorem lowerBlock_scalar (hm : d.method? m = some s) (hs : PlainNames s)
    (hresult : Solid (Tag.ofTy result).text.toList) {ts : List Tree}
    (h : ∀ t ∈ ts, ScalarStatement s t) (c : Counters) :
    ∃ ls c', (lowerBlock d (some m) result ts).run c = .ok (ls, c') ∧ Lowered s ts c ls c' :=
  lowerBlock_of_each (fun t ht => lowerStatement_scalar hm hs hresult (h t ht)) c

/-! ### Legible lines -/

theorem Represents.legible' {t : Tree} {v : Value} {a : Atom} {n n' : Nat}
    (h : Represents t v a n n') : ∀ l ∈ v.code, l.Legible := fun l hl => (h.legible l hl).1

theorem legible_append {ls ls' : List Line} (h : ∀ l ∈ ls, l.Legible)
    (h' : ∀ l ∈ ls', l.Legible) : ∀ l ∈ ls ++ ls', l.Legible := by
  intro l hl
  rcases List.mem_append.mp hl with hl | hl
  · exact h l hl
  · exact h' l hl

theorem legible_singleton {l : Line} (h : l.Legible) : ∀ l' ∈ [l], l'.Legible := by
  intro l' hl'
  rw [List.mem_singleton.mp hl']
  exact h

theorem legible_conditionalLines {n : Nat} {v : Value} {thenLines elseLines : List Line}
    (hv : ∀ l ∈ v.code, l.Legible) (hx : v.operand.Legible)
    (hthen : ∀ l ∈ thenLines, l.Legible) (helse : ∀ l ∈ elseLines, l.Legible) :
    ∀ l ∈ conditionalLines n v thenLines elseLines, l.Legible := by
  refine legible_append (legible_append (legible_append (legible_append
    (legible_append hv (legible_singleton hx)) helse) ?_) hthen) (legible_singleton trivial)
  simp [Line.Legible]

theorem legible_loopLines {n : Nat} {v : Value} {bodyLines : List Line}
    (hv : ∀ l ∈ v.code, l.Legible) (hx : v.operand.Legible)
    (hbody : ∀ l ∈ bodyLines, l.Legible) :
    ∀ l ∈ loopLines n v bodyLines, l.Legible := by
  refine legible_append (legible_append (legible_append
    (legible_append (legible_singleton trivial) hv) ?_) hbody) ?_
  · simpa [Line.Legible] using hx
  · simp [Line.Legible]

/-- All lines of lowered statements can be read. -/
theorem Lowered.legible (hs : PlainNames s) {ts : List Tree} {ls : List Line}
    {c c' : Counters} (h : Lowered s ts c ls c') : ∀ l ∈ ls, l.Legible := by
  induction h with
  | nil => simp
  | assignment hk hcs hx hty hv _ ih =>
    have hscalar := isScalar_ofTy hty.eq_int_or_boolean
    exact legible_append (legible_append hv.legible'
      (legible_singleton ⟨hs.isName _ _ hx, hscalar, hv.operandLegible⟩)) ih
  | block hk _ _ ihbody ih => exact legible_append ihbody ih
  | conditional hk hcs hty hv _ _ _ ihthen ihelse ih =>
    exact legible_append
      (legible_conditionalLines hv.legible' hv.operandLegible ihthen ihelse) ih
  | loop hk hcs hty hv _ _ ihbody ih =>
    exact legible_append (legible_loopLines hv.legible' hv.operandLegible ihbody) ih
  | returnNothing hk hcs ht _ ih => exact legible_append (legible_singleton ht) ih
  | returnValue hk hcs hty ht hv _ ih =>
    exact legible_append
      (legible_append hv.legible' (legible_singleton ⟨ht, hv.operandLegible⟩)) ih

/-! ### Labels -/

def Line.label? : Line → Option Label
  | label l => some l
  | _ => none

/-- The labels that stand in lines. -/
def labels (ls : List Line) : List Label := ls.filterMap Line.label?

@[simp] theorem labels_append (ls ls' : List Line) :
    labels (ls ++ ls') = labels ls ++ labels ls' := List.filterMap_append

@[simp] theorem labels_nil : labels [] = [] := rfl

@[simp] theorem labels_cons_label (l : Label) (ls : List Line) :
    labels (.label l :: ls) = l :: labels ls := rfl

@[simp] theorem labels_cons_branch (x : Operand) (l : Label) (ls : List Line) :
    labels (.branch x l :: ls) = labels ls := rfl

@[simp] theorem labels_cons_jump (l : Label) (ls : List Line) :
    labels (.jump l :: ls) = labels ls := rfl

theorem Represents.labels_eq_nil {t : Tree} {v : Value} {a : Atom} {n n' : Nat}
    (h : Represents t v a n n') : labels v.code = [] := by
  rw [labels, List.filterMap_eq_nil_iff]
  intro l hl
  have hassign := (h.legible l hl).2
  cases l <;> first | rfl | exact Bool.noConfusion hassign

/-- The labels are different from one another, and have numbers from the first
one up to the second. -/
structure LabelsBetween (lo hi : Nat) (ls : List Label) : Prop where
  nodup : ls.Nodup
  from_le : ∀ l ∈ ls, lo ≤ l.number
  lt_to : ∀ l ∈ ls, l.number < hi

theorem labelsBetween_nil (lo hi : Nat) : LabelsBetween lo hi [] :=
  ⟨List.nodup_nil, by simp, by simp⟩

theorem LabelsBetween.append {lo mid hi : Nat} {ls ls' : List Label}
    (h : LabelsBetween lo mid ls) (h' : LabelsBetween mid hi ls') (hlo : lo ≤ mid)
    (hhi : mid ≤ hi) : LabelsBetween lo hi (ls ++ ls') where
  nodup := by
    refine List.Nodup.append h.nodup h'.nodup ?_
    intro l hl hl'
    have := h.lt_to l hl
    have := h'.from_le l hl'
    omega
  from_le := by
    intro l hl
    rcases List.mem_append.mp hl with hl | hl
    · exact h.from_le l hl
    · exact hlo.trans (h'.from_le l hl)
  lt_to := by
    intro l hl
    rcases List.mem_append.mp hl with hl | hl
    · exact (h.lt_to l hl).trans_le hhi
    · exact h'.lt_to l hl

theorem LabelsBetween.perm {lo hi : Nat} {ls ls' : List Label} (h : LabelsBetween lo hi ls)
    (hperm : ls.Perm ls') : LabelsBetween lo hi ls' where
  nodup := hperm.nodup h.nodup
  from_le l hl := h.from_le l (hperm.mem_iff.mpr hl)
  lt_to l hl := h.lt_to l (hperm.mem_iff.mpr hl)

/-- Different landmarks of one number. -/
theorem labelsBetween_landmarks (n : Nat) (marks : List Landmark) (h : marks.Nodup) :
    LabelsBetween n (n + 1) (marks.map (⟨·, n⟩)) where
  nodup := h.map fun _ _ he => (Label.mk.inj he).1
  from_le := by simp
  lt_to := by simp

theorem labels_conditionalLines {n : Nat} {v : Value} {thenLines elseLines : List Line}
    (hv : labels v.code = []) :
    labels (conditionalLines n v thenLines elseLines) =
      labels elseLines ++ ⟨.thenBranch, n⟩ :: (labels thenLines ++ [⟨.conditionalEnd, n⟩]) := by
  simp [conditionalLines, hv]

theorem labels_loopLines {n : Nat} {v : Value} {bodyLines : List Line}
    (hv : labels v.code = []) :
    labels (loopLines n v bodyLines) =
      ⟨.loopCondition, n⟩ :: ⟨.loopBody, n⟩ :: (labels bodyLines ++ [⟨.loopEnd, n⟩]) := by
  simp [loopLines, hv]

/-- A branch has labels of its own number; its parts have labels of later ones. -/
theorem LabelsBetween.conditional {n mid hi : Nat} {v : Value} {thenLines elseLines : List Line}
    (hv : labels v.code = []) (hthen : LabelsBetween (n + 1) mid (labels thenLines))
    (helse : LabelsBetween mid hi (labels elseLines)) (hmid : n + 1 ≤ mid) (hhi : mid ≤ hi) :
    LabelsBetween n hi (labels (conditionalLines n v thenLines elseLines)) := by
  have hn : n ≤ n + 1 := Nat.le_succ n
  have hmarks := labelsBetween_landmarks n [.thenBranch, .conditionalEnd] (by decide)
  have hall := (hmarks.append hthen hn hmid).append helse (hn.trans hmid) hhi
  refine hall.perm ?_
  rw [labels_conditionalLines hv, List.perm_iff_count]
  intro l
  simp only [List.map_cons, List.map_nil, List.count_append, List.count_cons, List.count_nil]
  omega

/-- A loop has labels of its own number; its body has labels of later ones. -/
theorem LabelsBetween.loop {n hi : Nat} {v : Value} {bodyLines : List Line}
    (hv : labels v.code = []) (hbody : LabelsBetween (n + 1) hi (labels bodyLines))
    (hhi : n + 1 ≤ hi) : LabelsBetween n hi (labels (loopLines n v bodyLines)) := by
  have hmarks := labelsBetween_landmarks n [.loopCondition, .loopBody, .loopEnd] (by decide)
  refine (hmarks.append hbody (Nat.le_succ n) hhi).perm ?_
  rw [labels_loopLines hv, List.perm_iff_count]
  intro l
  simp only [List.map_cons, List.map_nil, List.count_append, List.count_cons, List.count_nil]
  omega

/-- The numbers of labels lie between the counters before and behind the
statements, and no label stands twice. -/
theorem Lowered.labelsBetween {ts : List Tree} {ls : List Line} {c c' : Counters}
    (h : Lowered s ts c ls c') :
    c.labels ≤ c'.labels ∧ LabelsBetween c.labels c'.labels (labels ls) := by
  induction h with
  | nil => exact ⟨le_rfl, labelsBetween_nil _ _⟩
  | assignment hk hcs hx hty hv _ ih =>
    rw [labels_append, labels_append, hv.labels_eq_nil]
    exact ih
  | block hk _ _ ihbody ih =>
    rw [labels_append]
    exact ⟨ihbody.1.trans ih.1, ihbody.2.append ih.2 ihbody.1 ih.1⟩
  | conditional hk hcs hty hv _ _ _ ihthen ihelse ih =>
    obtain ⟨hmid, hthen⟩ := ihthen
    obtain ⟨hhi, helse⟩ := ihelse
    obtain ⟨hle, hrest⟩ := ih
    -- one number is taken for the labels of the branch, the others for those of its parts
    have hpart := ((Nat.le_succ _).trans hmid).trans hhi
    rw [labels_append]
    refine ⟨hpart.trans hle, LabelsBetween.append ?_ hrest hpart hle⟩
    exact .conditional hv.labels_eq_nil hthen helse hmid hhi
  | loop hk hcs hty hv _ _ ihbody ih =>
    obtain ⟨hhi, hbody⟩ := ihbody
    obtain ⟨hle, hrest⟩ := ih
    have hpart := (Nat.le_succ _).trans hhi
    rw [labels_append]
    refine ⟨hpart.trans hle, LabelsBetween.append ?_ hrest hpart hle⟩
    exact .loop hv.labels_eq_nil hbody hhi
  | returnNothing hk hcs ht _ ih =>
    rw [labels_append]
    exact ih
  | returnValue hk hcs hty ht hv _ ih =>
    rw [labels_append, labels_append, hv.labels_eq_nil]
    exact ih

theorem Landmark.noDigit (mark : Landmark) : mark.text.toList.all (!·.isDigit) := by
  cases mark <;> rfl

theorem Landmark.text_injective {a b : Landmark} (h : a.text.toList = b.text.toList) :
    a = b := by
  cases a <;> cases b <;> first | rfl | exact absurd h (by decide)

/-- Labels are written differently. -/
theorem Label.text_injective : Function.Injective Label.text := by
  rintro ⟨a, m⟩ ⟨b, n⟩ h
  have hchars : a.text.toList ++ Nat.toDigits 10 m = b.text.toList ++ Nat.toDigits 10 n := by
    have := congrArg String.toList (show a.text ++ m.repr = b.text ++ n.repr from h)
    rwa [String.toList_append, String.toList_append, Nat.toList_repr, Nat.toList_repr] at this
  -- the name of a landmark reaches up to the first digit
  have hsplit : ∀ (mark : Landmark) (k : Nat),
      (mark.text.toList ++ Nat.toDigits 10 k).takeWhile (!·.isDigit) = mark.text.toList := by
    intro mark k
    rw [List.takeWhile_append_of_pos (List.all_eq_true.mp mark.noDigit)]
    have hdigits : (Nat.toDigits 10 k).takeWhile (!·.isDigit) = [] := by
      rcases e : Nat.toDigits 10 k with - | ⟨c, cs⟩
      · rfl
      · have hc : c ∈ Nat.toDigits 10 k := by rw [e]; exact List.mem_cons_self ..
        have hdigit := Nat.isDigit_of_mem_toDigits (by decide) (by decide) hc
        exact List.takeWhile_cons_of_neg (by simp [hdigit])
    rw [hdigits, List.append_nil]
  have hmark := congrArg (List.takeWhile (!·.isDigit)) hchars
  rw [hsplit, hsplit] at hmark
  obtain rfl := Landmark.text_injective hmark
  have h : a.text ++ m.repr = a.text ++ n.repr := h
  have hnumber := (String.append_right_inj a.text).mp h
  rw [Reading.eq_of_repr_eq hnumber]

theorem label?_of_instruction? (l : Line) :
    l.instruction?.bind Instruction.label? = l.label?.map Label.text := by
  cases l with
  | label | jump | store | fieldWrite | call | construct => rfl
  | branch c l =>
    rcases e : c.atom? with - | a <;> simp [Line.instruction?, e, Line.label?, Instruction.label?]
  | ret tag x =>
    rcases x with - | x
    · rfl
    · rcases e : x.atom? with - | a <;>
        simp [Line.instruction?, e, Line.label?, Instruction.label?]
  | assign c tag source =>
    cases source with
    | operand x =>
      rcases e : x.atom? with - | a <;>
        simp [Line.instruction?, e, Line.label?, Instruction.label?]
    | arithmetic op x y | logical op x y =>
      rcases e : x.atom? with - | a <;> rcases e' : y.atom? with - | b <;>
        simp [Line.instruction?, e, e', Line.label?, Instruction.label?]
    | fieldRead | call | newArray | newObject | length | element => rfl

/-- The labels among the instructions are those among the lines. -/
theorem uniqueLabels_instructions {ls : List Line} (h : (labels ls).Nodup) :
    UniqueLabels (instructions ls) := by
  have hlabels : (instructions ls).filterMap Instruction.label? =
      (labels ls).map Label.text := by
    rw [instructions, labels, List.filterMap_filterMap, List.map_filterMap]
    exact congrArg (List.filterMap · ls) (funext label?_of_instruction?)
  rw [UniqueLabels, hlabels]
  exact h.map Label.text_injective

end JavaMinus.ThreeAddress
