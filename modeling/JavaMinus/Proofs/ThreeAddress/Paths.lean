/-
JavaMinus/Proofs/ThreeAddress/Paths.lean

The paths that control can take through a method.

A path goes from a line to the one below it, or to the label that is jumped to,
whatever the condition of a branch is (`Goes`, `Leads`).  The jumps of a statement
lead to labels of its own, so a path enters the lines of a statement at their
beginning and leaves them behind the last one (`Leads.inside_or_behind`).  Whether one
does leave them can be told from the statement: control can come to the end of a
branch if it can come to the end of one part, to the end of a block if to that of each
statement, to the end of a loop always, and never to that of a return
(`Tree.completes`).  What `Passed` says of a piece of code is shown for each layout of
lines, and for statements by induction on them (`YieldsBlock.passed`).

A return is added to a method only if the method is `void`.  So a path can lead behind
the last line of another one, and it does just if control can come to the end of all
of its statements (`paths_end`).
-/
import JavaMinus.Proofs.ThreeAddress.Consistency
import JavaMinus.Proofs.ThreeAddress.Faults
import JavaMinus.Proofs.ThreeAddress.Labels

namespace JavaMinus

/-! ### Statements that control can come to the end of -/

namespace Tree

mutual
/-- Whether control can come to the end of a statement, if each condition in it may
turn out either way. -/
def completes : Tree → Bool
  | .node h cs =>
    match h.kind, cs with
    | .returnStmt, _ => false
    | .conditional, _ :: first :: second :: _ => first.completes || second.completes
    | .block, cs => allComplete cs
    | _, _ => true

/-- Whether control can come to the end of statements one after another. -/
def allComplete : List Tree → Bool
  | [] => true
  | t :: rest => t.completes && allComplete rest
end

theorem allComplete_eq (ts : List Tree) : allComplete ts = ts.all completes := by
  induction ts with
  | nil => rfl
  | cons t rest ih => rw [allComplete, ih, List.all_cons]

variable {t : Tree}

theorem completes_of_simple
    (h : t.kind ∈ [.assignment, .elementAssignment, .expressionStmt, .loop]) :
    t.completes = true := by
  obtain ⟨head, cs⟩ := t
  have hk : head.kind ∈ [.assignment, .elementAssignment, .expressionStmt, .loop] := h
  unfold completes
  split <;> simp_all

theorem completes_of_returnStmt (h : t.kind = .returnStmt) : t.completes = false := by
  obtain ⟨head, cs⟩ := t
  have hk : head.kind = .returnStmt := h
  simp [completes, hk]

theorem completes_of_conditional (h : t.kind = .conditional) {condition first : Tree}
    {rest : List Tree} (hcs : t.children = condition :: first :: rest) :
    t.completes = (first.completes || (rest.take 1).all completes) := by
  obtain ⟨head, cs⟩ := t
  have hk : head.kind = .conditional := h
  obtain rfl : cs = condition :: first :: rest := hcs
  rcases rest with - | ⟨second, rest⟩ <;> simp [completes, hk]

theorem completes_of_block (h : t.kind = .block) : t.completes = t.children.all completes := by
  obtain ⟨head, cs⟩ := t
  have hk : head.kind = .block := h
  unfold completes
  rw [hk]
  exact allComplete_eq cs

end Tree

namespace ThreeAddress

open Machine

/-! ### Where control goes -/

/-- Whether control can go on from a line to the one below it. -/
def Line.continues : Line → Bool
  | jump _ | ret .. => false
  | _ => true

/-- Control can go from one position to another: to the line below, or to the label
that is jumped to. -/
inductive Goes (code : List Line) (pc : Nat) : Nat → Prop
  | next {l} : code[pc]? = some l → l.continues → Goes code pc (pc + 1)
  | jump {l target pc'} : code[pc]? = some l → l.target? = some target →
      code[pc']? = some (.label target) → Goes code pc pc'

/-- A path leads from one position to another. -/
abbrev Leads (code : List Line) : Nat → Nat → Prop := Relation.ReflTransGen (Goes code)

variable {code ls ls' : List Line} {pc pc' o o' : Nat}

theorem leads_next {l : Line} (h : code[pc]? = some l) (hl : l.continues) :
    Leads code pc (pc + 1) :=
  .single (.next h hl)

theorem leads_jump {l : Line} {target : Label} (h : code[pc]? = some l)
    (hl : l.target? = some target) (htarget : code[pc']? = some (.label target)) :
    Leads code pc pc' :=
  .single (.jump h hl htarget)

/-- Lines that are passed straight lead to what stands behind them. -/
theorem leads_straight (hcode : CodeAt code o ls) (h : ∀ l ∈ ls, l.isStraight) :
    Leads code o (o + ls.length) := by
  induction ls generalizing o with
  | nil => exact .refl
  | cons l rest ih =>
    have hl : l.continues := by
      have hstraight := h l (List.mem_cons_self ..)
      cases l <;> first | rfl | cases hstraight
    have hrest := ih hcode.tail fun l' hl' => h l' (List.mem_cons_of_mem _ hl')
    rw [Nat.add_right_comm] at hrest
    exact (leads_next hcode.head hl).trans hrest

/-! ### Where control goes from a line -/

theorem position_unique (hunique : (labels code).Nodup) {l : Label}
    (h : code[pc]? = some (.label l)) (h' : code[pc']? = some (.label l)) : pc = pc' :=
  eq_of_nodup_filterMap hunique h h' rfl rfl

/-- What a line says about where control goes. -/
theorem Goes.below_or_jumps {l : Line} (h : Goes code pc pc') (hl : code[pc]? = some l) :
    l.continues ∧ pc' = pc + 1 ∨
      ∃ target, l.target? = some target ∧ code[pc']? = some (.label target) := by
  cases h with
  | next hline hcontinues =>
    rw [hl] at hline
    cases hline
    exact Or.inl ⟨hcontinues, rfl⟩
  | jump hline htarget hlabel =>
    rw [hl] at hline
    cases hline
    exact Or.inr ⟨_, htarget, hlabel⟩

/-- From a label control goes on below it. -/
theorem Leads.of_label {l : Label} (hlabel : code[o]? = some (.label l)) (h : Leads code o pc) :
    pc = o ∨ Leads code (o + 1) pc := by
  rcases h.cases_head with rfl | ⟨pc', hgoes, hrest⟩
  · exact Or.inl rfl
  · rcases hgoes.below_or_jumps hlabel with ⟨-, rfl⟩ | ⟨target, htarget, -⟩
    · exact Or.inr hrest
    · nomatch htarget

/-- From a branch control goes on below it, or at the label. -/
theorem Leads.of_branch (hunique : (labels code).Nodup) {x : Operand} {l : Label}
    (hbranch : code[o]? = some (.branch x l)) (hlabel : code[o']? = some (.label l))
    (h : Leads code o pc) : pc = o ∨ Leads code (o + 1) pc ∨ Leads code o' pc := by
  rcases h.cases_head with rfl | ⟨pc', hgoes, hrest⟩
  · exact Or.inl rfl
  · rcases hgoes.below_or_jumps hbranch with ⟨-, rfl⟩ | ⟨target, htarget, hplace⟩
    · exact Or.inr (Or.inl hrest)
    · cases htarget
      rw [position_unique hunique hplace hlabel] at hrest
      exact Or.inr (Or.inr hrest)

/-- From a return control does not go on. -/
theorem Leads.of_ret {tag : Tag} {x : Option Operand} (hret : code[o]? = some (.ret tag x))
    (h : Leads code o pc) : pc = o := by
  rcases h.cases_head with rfl | ⟨pc', hgoes, -⟩
  · rfl
  · rcases hgoes.below_or_jumps hret with ⟨hcontinues, -⟩ | ⟨target, htarget, -⟩
    · nomatch hcontinues
    · nomatch htarget

/-! ### Pieces of code that control does not leave -/

/-- The position lies in a piece of a length. -/
def Inside (o n pc : Nat) : Prop := o ≤ pc ∧ pc < o + n

theorem getElem?_of_inside (hcode : CodeAt code o ls) (h : Inside o ls.length pc) :
    code[pc]? = ls[pc - o]? := by
  obtain ⟨hle, hlt⟩ := h
  have hplace := hcode (pc - o) (by omega)
  rwa [Nat.add_sub_cancel' hle] at hplace

theorem exists_getElem?_of_mem_labels {l : Label} (h : l ∈ labels ls) :
    ∃ i < ls.length, ls[i]? = some (.label l) := by
  obtain ⟨line, hline, hlabel⟩ := List.mem_filterMap.mp h
  obtain ⟨i, hi, rfl⟩ := List.getElem_of_mem hline
  refine ⟨i, hi, ?_⟩
  rw [List.getElem?_eq_getElem hi]
  cases e : ls[i] <;> rw [e] at hlabel <;> cases hlabel
  rfl

section Closed

variable (hunique : (labels code).Nodup) (hcode : CodeAt code o ls)
  (htargets : targets ls ⊆ labels ls)
include hunique hcode htargets

/-- From a piece of code all of whose jumps lead to labels of its own, control goes
to the piece itself or to what stands right behind it. -/
theorem Goes.inside_or_behind (hpc : Inside o ls.length pc) (h : Goes code pc pc') :
    Inside o ls.length pc' ∨ pc' = o + ls.length := by
  have hpiece := getElem?_of_inside hcode hpc
  obtain ⟨hle, hlt⟩ := hpc
  cases h with
  | next =>
    rcases Nat.lt_or_ge (pc + 1) (o + ls.length) with hinside | hbehind
    · exact Or.inl ⟨by omega, hinside⟩
    · exact Or.inr (by omega)
  | @jump l target _ hl htarget hlabel =>
    rw [hl] at hpiece
    have hmem : target ∈ targets ls :=
      List.mem_filterMap.mpr ⟨l, List.mem_of_getElem? hpiece.symm, htarget⟩
    -- the label stands in the piece, and nowhere else in the code
    obtain ⟨i, hi, hlabel'⟩ := exists_getElem?_of_mem_labels (htargets hmem)
    have hplace : code[o + i]? = some (.label target) := by rw [hcode i hi, hlabel']
    rw [← position_unique hunique hplace hlabel]
    exact Or.inl ⟨by omega, by omega⟩

/-- A path from the beginning of such a piece stays in it, or comes to what stands
right behind it. -/
theorem Leads.inside_or_behind (h : Leads code o pc) :
    Inside o ls.length pc ∨ Leads code (o + ls.length) pc := by
  induction h with
  | refl =>
    -- an empty piece is behind itself
    rcases Nat.eq_zero_or_pos ls.length with hnone | hsome
    · rw [hnone]
      exact Or.inr .refl
    · exact Or.inl ⟨le_rfl, by omega⟩
  | tail _ hgoes ih =>
    rcases ih with hinside | hbehind
    · rcases hgoes.inside_or_behind hunique hcode htargets hinside with hinside | rfl
      · exact Or.inl hinside
      · exact Or.inr .refl
    · exact Or.inr (hbehind.tail hgoes)

end Closed

/-! ### Pieces of code that control passes -/

/-- Control can pass a piece of code just if the given truth value says so: a path
leads behind it, or none leaves it. -/
structure Passed (code : List Line) (o n : Nat) (passes : Bool) : Prop where
  through : passes = true → Leads code o (o + n)
  within : passes = false → ∀ pc, Leads code o pc → Inside o n pc

theorem Passed.of_leads {n : Nat} (h : Leads code o (o + n)) : Passed code o n true :=
  ⟨fun _ => h, nofun⟩

theorem conditionalLines_eq (n : Nat) (x : Value) (thenLines elseLines : List Line) :
    conditionalLines n x thenLines elseLines =
      x.code ++ .branch x.operand ⟨.thenBranch, n⟩ ::
        (elseLines ++ .jump ⟨.conditionalEnd, n⟩ :: .label ⟨.thenBranch, n⟩ ::
          (thenLines ++ [.label ⟨.conditionalEnd, n⟩])) := by
  simp [conditionalLines]

theorem loopLines_eq (n : Nat) (x : Value) (bodyLines : List Line) :
    loopLines n x bodyLines =
      .label ⟨.loopCondition, n⟩ :: (x.code ++
        .branch x.operand ⟨.loopBody, n⟩ :: .jump ⟨.loopEnd, n⟩ :: .label ⟨.loopBody, n⟩ ::
          (bodyLines ++ [.jump ⟨.loopCondition, n⟩, .label ⟨.loopEnd, n⟩])) := by
  simp [loopLines]

/-- Control passes a loop, since the condition may not hold. -/
theorem passed_loopLines {n : Nat} {x : Value} {bodyLines : List Line}
    (hx : ∀ l ∈ x.code, l.isStraight) (hcode : CodeAt code o (loopLines n x bodyLines)) :
    Passed code o (loopLines n x bodyLines).length true := by
  rw [loopLines_eq] at hcode ⊢
  have hbegin := leads_next hcode.head rfl
  have hcondition := leads_straight hcode.tail.left hx
  have hbranch := leads_next hcode.tail.right.head rfl
  have hend := hcode.tail.right.tail.tail.tail.right.tail.head
  have hjump := leads_jump hcode.tail.right.tail.head rfl hend
  have hbehind := hbegin.trans (hcondition.trans (hbranch.trans (hjump.tail (.next hend rfl))))
  apply Passed.of_leads
  convert hbehind using 1
  simp only [List.length_append, List.length_cons, List.length_nil]
  omega

theorem Passed.leads_iff {n : Nat} {passes : Bool} (h : Passed code o n passes) :
    Leads code o (o + n) ↔ passes = true := by
  refine ⟨fun hleads => ?_, h.through⟩
  rcases passes with - | -
  · obtain ⟨-, hlt⟩ := h.within rfl _ hleads
    omega
  · rfl

section Pieces

variable (hunique : (labels code).Nodup)
include hunique

theorem passed_ret {tag : Tag} {x : Option Operand} (hls : ∀ l ∈ ls, l.isStraight)
    (hcode : CodeAt code o (ls ++ [.ret tag x])) :
    Passed code o (ls ++ [Line.ret tag x]).length false := by
  refine ⟨nofun, fun _ pc h => ?_⟩
  rw [List.length_append, List.length_singleton]
  rcases h.inside_or_behind hunique hcode.left (targets_subset_of_straight hls)
    with ⟨hle, hlt⟩ | hret
  · exact ⟨hle, by omega⟩
  · rw [hret.of_ret hcode.right.head]
    exact ⟨by omega, by omega⟩

/-- Control passes two pieces of code if it passes the one and the other. -/
theorem Passed.append {a b : Bool} (hcode : CodeAt code o ls) (htargets : targets ls ⊆ labels ls)
    (h : Passed code o ls.length a) (h' : Passed code (o + ls.length) ls'.length b) :
    Passed code o (ls ++ ls').length (a && b) := by
  rw [List.length_append]
  constructor
  · intro hpasses
    obtain ⟨ha, hb⟩ := Bool.and_eq_true_iff.mp hpasses
    have hthrough := (h.through ha).trans (h'.through hb)
    rwa [Nat.add_assoc] at hthrough
  · intro hpasses pc hleads
    rcases Bool.and_eq_false_iff.mp hpasses with ha | hb
    · obtain ⟨hle, hlt⟩ := h.within ha pc hleads
      exact ⟨hle, by omega⟩
    · rcases hleads.inside_or_behind hunique hcode htargets with ⟨hle, hlt⟩ | hrest
      · exact ⟨hle, by omega⟩
      · obtain ⟨hle, hlt⟩ := h'.within hb pc hrest
        exact ⟨by omega, by omega⟩

/-- Control passes a branch if it passes one of the parts. -/
theorem passed_conditionalLines {n : Nat} {x : Value} {thenLines elseLines : List Line}
    {a b : Bool} (hx : ∀ l ∈ x.code, l.isStraight)
    (hcode : CodeAt code o (conditionalLines n x thenLines elseLines))
    (hthen : ∀ o, CodeAt code o thenLines → Passed code o thenLines.length a)
    (helse : ∀ o, CodeAt code o elseLines → Passed code o elseLines.length b) :
    Passed code o (conditionalLines n x thenLines elseLines).length (a || b) := by
  rw [conditionalLines_eq] at hcode ⊢
  have hcondition := hcode.left
  have hbranch := hcode.right.head
  have helseCode := hcode.right.tail.left
  have hjump := hcode.right.tail.right.head
  have hthenLabel := hcode.right.tail.right.tail.head
  have hthenCode := hcode.right.tail.right.tail.tail.left
  have hend := hcode.right.tail.right.tail.tail.right.head
  have hThen := hthen _ hthenCode
  have hElse := helse _ helseCode
  have hbegin := leads_straight hcondition hx
  have hlast := leads_next hend rfl
  constructor
  · intro hpasses
    have hbehind : Leads code o (o + x.code.length + 1 + elseLines.length + 1 + 1 +
        thenLines.length + 1) := by
      rcases Bool.or_eq_true_iff.mp hpasses with ha | hb
      · have htake := leads_jump hbranch rfl hthenLabel
        have henter := leads_next hthenLabel rfl
        exact hbegin.trans (htake.trans (henter.trans ((hThen.through ha).trans hlast)))
      · have htake := leads_next hbranch rfl
        have hleave := leads_jump hjump rfl hend
        exact hbegin.trans (htake.trans ((hElse.through hb).trans (hleave.trans hlast)))
    convert hbehind using 1
    simp only [List.length_append, List.length_cons, List.length_nil]
    omega
  · intro hpasses pc hleads
    obtain ⟨ha, hb⟩ := Bool.or_eq_false_iff.mp hpasses
    simp only [Inside, List.length_append, List.length_cons, List.length_nil]
    -- a path that leaves neither part has only the lines around them left
    rcases hleads.inside_or_behind hunique hcondition (targets_subset_of_straight hx)
      with hinside | hrest
    · obtain ⟨hle, hlt⟩ := hinside
      omega
    rcases hrest.of_branch hunique hbranch hthenLabel with rfl | helseLeads | hthenLeads
    · omega
    · obtain ⟨hle, hlt⟩ := hElse.within hb pc helseLeads
      omega
    rcases hthenLeads.of_label hthenLabel with rfl | hthenLeads
    · omega
    · obtain ⟨hle, hlt⟩ := hThen.within ha pc hthenLeads
      omega

end Pieces

/-! ### Statements that control passes -/

variable {d : Declarations} {scope : Option String} {result : Ty} {t : Tree} {ts : List Tree}
  {c c' : Counters}

theorem YieldsLines.targets_subset (h : YieldsLines d scope result t c ls c') :
    targets ls ⊆ labels ls := (lowersLandmarked d scope result t c ls c' h).targets.subset

/-- Control passes the lines of a statement, wherever they stand, if it can come to the
end of the statement. -/
def LowersPassed (d : Declarations) (scope : Option String) (result : Ty) (t : Tree) : Prop :=
  ∀ c ls c', YieldsLines d scope result t c ls c' → ∀ code, (labels code).Nodup →
    ∀ o, CodeAt code o ls → Passed code o ls.length t.completes

theorem YieldsBlock.passed_of_each (h : YieldsBlock d scope result ts c ls c')
    (hts : ∀ u ∈ ts, LowersPassed d scope result u) (hunique : (labels code).Nodup)
    (hcode : CodeAt code o ls) : Passed code o ls.length (ts.all Tree.completes) := by
  induction h generalizing o with
  | nil => exact .of_leads .refl
  | cons hls _ ih =>
    have hfirst := hts _ (List.mem_cons_self ..) _ _ _ hls code hunique _ hcode.left
    have hrest := ih (fun u hu => hts u (List.mem_cons_of_mem _ hu)) hcode.right
    rw [List.all_cons]
    exact hfirst.append hunique hcode.left hls.targets_subset hrest

theorem lowersPassed (d : Declarations) (scope : Option String) (result : Ty) (t : Tree) :
    LowersPassed d scope result t := by
  induction t using Tree.induction with
  | step t ih =>
    intro c ls c' h code hunique o hcode
    -- by the layout; the parts are pieces of the same code
    cases h.laidOut with
    | straight hk hstraight _ =>
      rw [Tree.completes_of_simple (List.mem_append_left [.loop] hk)]
      exact .of_leads (leads_straight hcode hstraight)
    | ret hk hstraight _ _ =>
      rw [Tree.completes_of_returnStmt hk]
      exact passed_ret hunique hstraight hcode
    | conditional hk hcs hx _ hthen helse =>
      rw [Tree.completes_of_conditional hk hcs]
      rw [hcs] at ih
      have hThen := ih _ (by simp) _ _ _ hthen code hunique
      refine passed_conditionalLines hunique hx hcode hThen fun o hcode => ?_
      refine helse.passed_of_each (fun u hu => ih u ?_) hunique hcode
      exact List.mem_cons_of_mem _ (List.mem_cons_of_mem _ (List.mem_of_mem_take hu))
    | loop hk _ hx _ _ =>
      rw [Tree.completes_of_simple (by simp [hk])]
      exact passed_loopLines hx hcode
    | block hk hls =>
      rw [Tree.completes_of_block hk]
      exact hls.passed_of_each ih hunique hcode

/-- Control passes the lines of statements just if it can come to the end of each. -/
theorem YieldsBlock.passed (h : YieldsBlock d scope result ts c ls c')
    (hunique : (labels code).Nodup) (hcode : CodeAt code o ls) :
    Passed code o ls.length (ts.all Tree.completes) :=
  h.passed_of_each (fun u _ => lowersPassed d scope result u) hunique hcode

/-! ### Returns -/

/-- A return of nothing stands in a statement. -/
def HasBareReturn (t : Tree) : Prop :=
  ∃ u ∈ t.preorder, u.kind = .returnStmt ∧ u.children = []

theorem HasBareReturn.of_child {u : Tree} (h : HasBareReturn u) (hu : u ∈ t.children) :
    HasBareReturn t := by
  obtain ⟨v, hv, hreturn⟩ := h
  exact ⟨v, Tree.mem_preorder_of_child hu hv, hreturn⟩

/-- The returns in the lines of a statement have the tag of the method, and a value if
the statement has none without. -/
def LowersReturns (d : Declarations) (scope : Option String) (result : Ty) (t : Tree) : Prop :=
  ∀ c ls c', YieldsLines d scope result t c ls c' → ∀ tag x, Line.ret tag x ∈ ls →
    tag = Tag.ofTy result ∧ (x = none → HasBareReturn t)

theorem not_mem_of_straight (h : ∀ l ∈ ls, l.isStraight) (tag : Tag) (x : Option Operand) :
    Line.ret tag x ∉ ls := fun hmem => nomatch h _ hmem

theorem YieldsBlock.returns_of_each (h : YieldsBlock d scope result ts c ls c')
    (hts : ∀ u ∈ ts, LowersReturns d scope result u) {tag : Tag} {x : Option Operand}
    (hmem : .ret tag x ∈ ls) : tag = Tag.ofTy result ∧ (x = none → ∃ u ∈ ts, HasBareReturn u) := by
  induction h with
  | nil => nomatch hmem
  | cons hls _ ih =>
    rcases List.mem_append.mp hmem with hfirst | hrest
    · obtain ⟨htag, hnone⟩ := hts _ (List.mem_cons_self ..) _ _ _ hls _ _ hfirst
      exact ⟨htag, fun hx => ⟨_, List.mem_cons_self .., hnone hx⟩⟩
    · obtain ⟨htag, hnone⟩ := ih (fun u hu => hts u (List.mem_cons_of_mem _ hu)) hrest
      refine ⟨htag, fun hx => ?_⟩
      obtain ⟨u, hu, hbare⟩ := hnone hx
      exact ⟨u, List.mem_cons_of_mem _ hu, hbare⟩

theorem lowersReturns (d : Declarations) (scope : Option String) (result : Ty) (t : Tree) :
    LowersReturns d scope result t := by
  induction t using Tree.induction with
  | step t ih =>
    intro c ls c' h tag x hmem
    have hpart : ∀ {u : Tree}, u ∈ t.children → (x = none → HasBareReturn u) →
        x = none → HasBareReturn t := fun hu hnone hx => (hnone hx).of_child hu
    cases h.laidOut with
    | straight _ hstraight _ => exact (not_mem_of_straight hstraight tag x hmem).elim
    | ret hk hcode hnone _ =>
      rcases List.mem_append.mp hmem with hcodeMem | hlast
      · exact (not_mem_of_straight hcode tag x hcodeMem).elim
      · cases List.mem_singleton.mp hlast
        exact ⟨rfl, fun hx => ⟨t, t.mem_preorder_self, hk, hnone.mp hx⟩⟩
    | @conditional condition first rest _ _ _ _ _ _ _ hcs hx _ hthen helse =>
      rw [hcs] at ih
      have hfirst : first ∈ t.children := by simp [hcs]
      have hrest : ∀ u ∈ rest.take 1, u ∈ condition :: first :: rest := fun u hu =>
        List.mem_cons_of_mem _ (List.mem_cons_of_mem _ (List.mem_of_mem_take hu))
      -- a return is not among the lines around the parts
      simp only [conditionalLines, List.mem_append, List.mem_cons, List.not_mem_nil, or_false,
        reduceCtorEq, not_mem_of_straight hx tag x, false_or] at hmem
      rcases hmem with hmem | hmem
      · obtain ⟨htag, hnone⟩ := helse.returns_of_each (fun u hu => ih u (hrest u hu)) hmem
        refine ⟨htag, fun hx => ?_⟩
        obtain ⟨u, hu, hbare⟩ := hnone hx
        exact hbare.of_child (by rw [hcs]; exact hrest u hu)
      · obtain ⟨htag, hnone⟩ := ih first (by simp) _ _ _ hthen _ _ hmem
        exact ⟨htag, hpart hfirst hnone⟩
    | @loop condition body _ _ _ _ _ _ hcs hx _ hbody =>
      have hchild : body ∈ t.children := by simp [hcs]
      simp only [loopLines, List.mem_append, List.mem_cons, List.not_mem_nil, or_false,
        reduceCtorEq, not_mem_of_straight hx tag x, false_or] at hmem
      obtain ⟨htag, hnone⟩ := ih body hchild _ _ _ hbody _ _ hmem
      exact ⟨htag, hpart hchild hnone⟩
    | block _ hls =>
      obtain ⟨htag, hnone⟩ := hls.returns_of_each ih hmem
      refine ⟨htag, fun hx => ?_⟩
      obtain ⟨u, hu, hbare⟩ := hnone hx
      exact hbare.of_child hu

/-- A return of nothing is written only in methods that return nothing. -/
theorem returnType_of_hasBareReturn {root s : Tree} {method : String}
    (hgrammar : root.isGrammatical) (hclean : d.analyze (.top root) = .ok .empty)
    (ht : t ∈ root.methodTrees) (hname : t.get? "name" = some method) (hs : s ∈ statements t)
    (hbare : HasBareReturn s) : (d.returnType? method).getD .void = .void := by
  obtain ⟨u, hu, hk, hcs⟩ := hbare
  obtain ⟨q, hq, rfl, hmethod⟩ := Place.exists_of_statement hgrammar ht hs hu
  have hcheck := Declarations.check_eq_pure hclean q hq
  rw [Place.check_eq, hk] at hcheck
  simp only [Place.checkReturn_eq, hmethod, hname, Place.child?_eq, hcs] at hcheck
  exact bne_eq_false_iff_eq.mp (Review.reportIf_eq_pure hcheck)

/-! ### Methods -/

/-- A return is added behind statements that return nothing, unless a return is their
last. -/
theorem addedReturn_cases (result : Ty) (ts : List Tree) :
    result = .void ∧ addedReturn result ts = [.ret .void none] ∨
      addedReturn result ts = [] ∧ (result = .void → ∃ t ∈ ts, t.kind = .returnStmt) := by
  rw [addedReturn]
  split
  · next h => exact Or.inl ⟨eq_of_beq (Bool.and_eq_true_iff.mp h).1, rfl⟩
  · next h =>
    refine Or.inr ⟨rfl, ?_⟩
    rintro rfl
    rw [beq_self_eq_true, Bool.true_and, Bool.not_eq_true', Bool.not_eq_false,
      Option.any_eq_true] at h
    obtain ⟨t, hlast, hk⟩ := h
    exact ⟨t, List.mem_of_getLast? hlast, eq_of_beq hk⟩

/-- Where the paths through a method come to an end: at a return, which has the tag of
the method and a value unless it is `void`, or behind the last line.  A path leads
there just if the method returns something and control can come to the end of each of
its statements. -/
structure PathsEnd (t : Tree) (m : Method) : Prop where
  stop : ∀ pc, Leads m.body 0 pc → (∀ pc', ¬ Goes m.body pc pc') →
    pc = m.body.length ∨
      ∃ x, m.body[pc]? = some (.ret m.result x) ∧ (m.result ≠ .void → x.isSome)
  fall : Leads m.body 0 m.body.length ↔
    m.result ≠ .void ∧ ∀ s ∈ statements t, s.completes

section Body

variable (hls : YieldsBlock d scope result ts c ls c')
include hls

/-- Behind the lines of its statements, a method has no labels and no jumps. -/
theorem landmarked_body :
    Landmarked c.labels c'.labels (ls ++ addedReturn result ts) := by
  refine hls.landmarked.append ?_
  rcases addedReturn_cases result ts with ⟨-, hadded⟩ | ⟨hadded, -⟩
  · rw [hadded]
    exact landmarked_of_eq_nil _ rfl rfl
  · rw [hadded]
    exact landmarked_of_eq_nil _ rfl rfl

/-- Control passes the body of a method if it passes the statements, and no return is
added to them. -/
theorem passed_body :
    Passed (ls ++ addedReturn result ts) 0 (ls ++ addedReturn result ts).length
      (ts.all Tree.completes && (addedReturn result ts).isEmpty) := by
  have hunique := (landmarked_body hls).between.nodup
  have hcode := codeAt_self (ls ++ addedReturn result ts)
  refine (hls.passed hunique hcode.left).append hunique hcode.left
    hls.landmarked.targets.subset ?_
  have hright := hcode.right
  rcases addedReturn_cases result ts with ⟨-, hadded⟩ | ⟨hadded, -⟩
  · rw [hadded] at hright hunique ⊢
    exact passed_ret hunique (List.forall_mem_nil _) hright
  · rw [hadded]
    exact .of_leads .refl

/-- A path leads behind the last line just if nothing is added there and control can
come to the end of each statement. -/
theorem leads_behind_iff :
    Leads (ls ++ addedReturn result ts) 0 (ls ++ addedReturn result ts).length ↔
      result ≠ .void ∧ ∀ u ∈ ts, u.completes := by
  have hbehind := (passed_body hls).leads_iff
  rw [Nat.zero_add, Bool.and_eq_true, List.all_eq_true] at hbehind
  rw [hbehind]
  rcases addedReturn_cases result ts with ⟨hvoid, hadded⟩ | ⟨hadded, hreturn⟩
  · rw [hadded]
    simp [hvoid]
  · rw [hadded]
    constructor
    · rintro ⟨hall, -⟩
      refine ⟨fun hvoid => ?_, hall⟩
      -- nothing is added to a `void` method only where a return stands already
      obtain ⟨u, hu, hk⟩ := hreturn hvoid
      have hcompletes := hall u hu
      rw [Tree.completes_of_returnStmt hk] at hcompletes
      nomatch hcompletes
    · rintro ⟨-, hall⟩
      exact ⟨hall, rfl⟩

/-- A path that comes to an end does so at a return or behind the last line. -/
theorem eq_length_or_ret_of_stop {code : List Line} (hbody : code = ls ++ addedReturn result ts)
    (hleads : Leads code 0 pc) (hstop : ∀ pc', ¬ Goes code pc pc') :
    pc = code.length ∨ ∃ tag x, code[pc]? = some (.ret tag x) := by
  have hmarked := landmarked_body hls
  rw [← hbody] at hmarked
  rcases hleads.inside_or_behind hmarked.between.nodup (codeAt_self code) hmarked.targets.subset
    with ⟨-, hlt⟩ | hbehind
  · right
    rw [Nat.zero_add] at hlt
    -- every line but a return has a line to go on with
    obtain ⟨l, hl⟩ : ∃ l, code[pc]? = some l := ⟨_, List.getElem?_eq_getElem hlt⟩
    have hcontinues : l.continues = false := by
      by_contra hcontinues
      exact hstop _ (.next hl (by simpa using hcontinues))
    cases l with
    | ret tag x => exact ⟨tag, x, hl⟩
    | jump target =>
      have hmem : target ∈ targets code :=
        List.mem_filterMap.mpr ⟨_, List.mem_of_getElem? hl, rfl⟩
      obtain ⟨i, -, hi⟩ := exists_getElem?_of_mem_labels (hmarked.targets.subset hmem)
      exact (hstop i (.jump hl rfl hi)).elim
    | label | assign | store | fieldWrite | call | construct | branch => nomatch hcontinues
  · left
    rw [Nat.zero_add] at hbehind
    rcases hbehind.cases_head with rfl | ⟨pc', hgoes, -⟩
    · rfl
    · cases hgoes with
      | next hline => simp at hline
      | jump hline => simp at hline

end Body

section Program

variable {root : Tree} {m : Method}

/-- A return in a method has the tag of the method, and a value unless it is `void`. -/
theorem ret_of_lowerMethod (hgrammar : root.isGrammatical)
    (hclean : d.analyze (.top root) = .ok .empty) (ht : t ∈ root.methodTrees)
    (hrun : (lowerMethod d t).run c = .ok (m, c')) {tag : Tag} {x : Option Operand}
    (hmem : .ret tag x ∈ m.body) : tag = m.result ∧ (m.result ≠ .void → x.isSome) := by
  obtain ⟨-, hresult, ls, hls, hbody⟩ := lowerMethod_eq_ok hrun
  rw [hbody] at hmem
  rcases List.mem_append.mp hmem with hstatements | hadded
  · obtain ⟨htag, hnone⟩ := hls.returns_of_each (fun u _ => lowersReturns _ _ _ u) hstatements
    refine ⟨htag.trans hresult.symm, fun hvalue => ?_⟩
    rcases x with - | x
    -- the checks let a return of nothing pass only where the method is `void`
    · obtain ⟨s, hs, hbare⟩ := hnone rfl
      have hvoid := returnType_of_hasBareReturn hgrammar hclean ht
        (Tree.get?_name_of_mem_methodTrees hgrammar ht) hs hbare
      rw [hresult, hvoid] at hvalue
      exact absurd rfl hvalue
    · rfl
  · rcases addedReturn_cases ((d.returnType? t.name).getD .void) (statements t) with
      ⟨hvoid, heq⟩ | ⟨heq, -⟩
    · rw [heq] at hadded
      cases List.mem_singleton.mp hadded
      rw [hvoid] at hresult
      exact ⟨hresult.symm, fun hvalue => absurd hresult hvalue⟩
    · rw [heq] at hadded
      nomatch hadded

theorem pathsEnd_of_lowerMethod (hgrammar : root.isGrammatical)
    (hclean : d.analyze (.top root) = .ok .empty) (ht : t ∈ root.methodTrees)
    (hrun : (lowerMethod d t).run c = .ok (m, c')) : PathsEnd t m := by
  obtain ⟨-, hresult, ls, hls, hbody⟩ := lowerMethod_eq_ok hrun
  constructor
  · intro pc hleads hstop
    rcases eq_length_or_ret_of_stop hls hbody hleads hstop with hbehind | ⟨tag, x, hret⟩
    · exact Or.inl hbehind
    · obtain ⟨rfl, hvalue⟩ :=
        ret_of_lowerMethod hgrammar hclean ht hrun (List.mem_of_getElem? hret)
      exact Or.inr ⟨x, hret, hvalue⟩
  · have hvoid : m.result ≠ .void ↔ (d.returnType? t.name).getD .void ≠ .void := by
      rw [hresult, Ne, Ne, not_iff_not]
      exact ⟨ofTy_eq_void, fun h => by rw [h]; rfl⟩
    rw [hvoid, hbody]
    exact leads_behind_iff hls

/-- **Ends of paths.**  In a program without findings a path through a method comes to
an end only at a return with the tag of the method, and with a value unless that is
`void`, or behind the last line.  The latter happens just if the method returns
something and control can come to the end of each of its statements. -/
theorem paths_end (hgrammar : root.isGrammatical) (hclean : d.analyze (.top root) = .ok .empty) :
    ∃ p, Program.ofTree d root = .ok p ∧
      List.Forall₂ (fun t m => m.name = t.name ∧ PathsEnd t m) root.methodTrees p.methods := by
  obtain ⟨p, hp⟩ := exists_ofTree_of_clean hgrammar hclean
  refine ⟨p, hp, ?_⟩
  have hmethods := (List.forall₂_and_left _ _).mpr ⟨fun _ ht => ht, forall₂_methods hp⟩
  refine hmethods.imp ?_
  rintro t m ⟨ht, c, c', hrun⟩
  exact ⟨(lowerMethod_eq_ok hrun).1, pathsEnd_of_lowerMethod hgrammar hclean ht hrun⟩

end Program

/-! ### A branch that returns on one side

    class Pick {
      int pick(boolean up) { if (up) return 1; else return 2; }
    }

    class Pick {
      int pick(boolean up) { if (up) return 1; else { } }
    }
-/

def oneOrElse (elsePart : Tree) : Tree :=
  (Form.conditional (Form.identifier "up").tree
    (Form.returnStmt (some (Form.integer 1).tree)).tree elsePart).tree

/-- A class with one method, which returns a number on one side of a branch. -/
def pick (elsePart : Tree) : Tree :=
  let method := (Form.methodDecl "pick" (Form.typeName "int" false false).tree false
    [(Form.parameter "up" (Form.typeName "boolean" false false).tree).tree,
      oneOrElse elsePart]).tree
  (Form.program [(Form.classDecl "Pick" none [method]).tree]).tree

def pickDeclarations : Declarations :=
  ⟨"Pick", none, [], [], [⟨"pick", .int, [⟨"up", .boolean⟩], [], false⟩]⟩

def returnTwo : Tree := (Form.returnStmt (some (Form.integer 2).tree)).tree

def nothing : Tree := (Form.block []).tree

theorem paths_end_pick :
    ∃ p, Program.ofTree pickDeclarations (pick returnTwo) = .ok p ∧
      ∃ m ∈ p.methods, m.name = "pick" ∧ ¬ Leads m.body 0 m.body.length := by
  have hgrammar : (pick returnTwo).isGrammatical := by decide
  obtain ⟨p, hp, hmethods⟩ := paths_end (d := pickDeclarations) hgrammar rfl
  obtain ⟨t, ht, hname, hfalse⟩ : ∃ t ∈ (pick returnTwo).methodTrees,
      t.name = "pick" ∧ ¬ ∀ s ∈ statements t, s.completes := by decide
  obtain ⟨m, hm, heq, hends⟩ := exists_of_forall₂ hmethods ht
  exact ⟨p, hp, m, hm, heq.trans hname, fun hleads => hfalse (hends.fall.mp hleads).2⟩

def pickBody : List Line :=
  [.branch (.cell (.named "up") .bool) ⟨.thenBranch, 0⟩, .jump ⟨.conditionalEnd, 0⟩,
    .label ⟨.thenBranch, 0⟩, .ret .i32 (some (.number "1")), .label ⟨.conditionalEnd, 0⟩]

/-- In a program without findings a method that returns a number has a path that comes
to an end behind its last line. -/
theorem pick_falls_off :
    ¬ ∀ (root : Tree) (d : Declarations) (p : Program), root.isGrammatical →
      Declarations.ofTree root = .ok d → d.analyze (.top root) = .ok .empty →
      Program.ofTree d root = .ok p → ∀ m ∈ p.methods, ∀ pc, Leads m.body 0 pc →
      (∀ pc', ¬ Goes m.body pc pc') → ∃ tag x, m.body[pc]? = some (.ret tag x) := by
  intro h
  have hgrammar : (pick nothing).isGrammatical := by decide
  obtain ⟨p, m, hp, hm, hbody⟩ : ∃ p m,
      Program.ofTree pickDeclarations (pick nothing) = .ok p ∧ m ∈ p.methods ∧
        m.body = pickBody := ⟨_, _, rfl, List.mem_singleton_self _, rfl⟩
  have hbranch : Leads pickBody 0 1 := leads_next rfl rfl
  have hjump : Leads pickBody 1 4 := leads_jump rfl rfl rfl
  have hlabel : Leads pickBody 4 5 := leads_next rfl rfl
  have hleads : Leads pickBody 0 5 := hbranch.trans (hjump.trans hlabel)
  have hstop : ∀ pc', ¬ Goes pickBody 5 pc' := by
    intro pc' hgoes
    cases hgoes with
    | next hline => nomatch hline
    | jump hline => nomatch hline
  rw [← hbody] at hleads hstop
  obtain ⟨tag, x, hret⟩ := h _ _ p hgrammar rfl rfl hp m hm 5 hleads hstop
  rw [hbody] at hret
  nomatch hret

end ThreeAddress

end JavaMinus
