/-
JavaMinus/Proofs/ThreeAddress/Labels.lean

The labels of lowered statements.

Only branches and loops write labels and jump to them.  Each takes a number of its
own, while the lowering of expressions leaves the numbers of labels alone
(`Yields.labels_eq`); so the labels in the lines of a statement have the numbers
that the statement took, and none stands twice.  A branch jumps to each of its
labels once, and so does a loop.  Both is said by `Landmarked`, which the lines of
all statements are (`YieldsBlock.landmarked`): what they jump to is, up to the
order, what they label.

`LaidOut` says what a statement was lowered to as far as this is concerned: which
lines are passed straight, and where the lines of its parts stand.
-/
import JavaMinus.Proofs.ThreeAddress.Statements
import JavaMinus.Proofs.ThreeAddress.Temporaries

namespace JavaMinus.ThreeAddress

variable {d : Declarations} {scope : Option String} {result : Ty} {t : Tree} {ts : List Tree}
  {c c' : Counters}

/-! ### Expressions take no labels -/

/-- Whatever an expression is lowered to, the next label keeps its number. -/
def KeepsLabels (d : Declarations) (scope : Option String) (t : Tree) : Prop :=
  ∀ wanted c v c', Yields d scope t wanted c v c' → c'.labels = c.labels

theorem YieldsIndex.labels_eq {v : Value} (h : YieldsIndex d scope t c v c')
    (ht : KeepsLabels d scope t) : c'.labels = c.labels := by
  cases h with
  | literal _ hx =>
    have hX := ht _ _ _ _ hx
    exact hX
  | other _ hx => exact ht _ _ _ _ hx

theorem YieldsStores.labels_eq {array i : Nat} {element : Ty} {stores : List Line}
    (h : YieldsStores d scope array element i ts c stores c')
    (hts : ∀ u ∈ ts, KeepsLabels d scope u) : c'.labels = c.labels := by
  induction h with
  | nil => rfl
  | cons hx _ ih =>
    have hfirst := hts _ (List.mem_cons_self ..) _ _ _ _ hx
    exact (ih fun u hu => hts u (List.mem_cons_of_mem _ hu)).trans hfirst

theorem YieldsArray.labels_eq {element : Ty} {v : Value}
    (h : YieldsArray d scope element ts c v c') (hts : ∀ u ∈ ts, KeepsLabels d scope u) :
    c'.labels = c.labels := by
  obtain ⟨hstores⟩ := h
  exact hstores.labels_eq hts

theorem YieldsReceiver.labels_eq {code : List Line} {receiver : Receiver}
    (h : YieldsReceiver d scope t c code receiver c') (ht : KeepsLabels d scope t) :
    c'.labels = c.labels := by
  cases h with
  | self | classRef => rfl
  | object _ hx => exact ht _ _ _ _ hx

theorem YieldsEach.labels_eq {parameters : List Variable} {xs : List Value}
    (h : YieldsEach d scope parameters ts c xs c') (hts : ∀ u ∈ ts, KeepsLabels d scope u) :
    c'.labels = c.labels := by
  induction h with
  | nil => rfl
  | cons hx _ ih =>
    have hfirst := hts _ (List.mem_cons_self ..) _ _ _ _ hx
    exact (ih fun u hu => hts u (List.mem_cons_of_mem _ hu)).trans hfirst

theorem YieldsTail.labels_eq {v : Value} (h : YieldsTail d scope ts c v c')
    (hts : ∀ u ∈ ts, KeepsLabels d scope u) : c'.labels = c.labels := by
  cases h with
  | single hsingle _ _ hx =>
    subst hsingle
    exact hts _ (List.mem_singleton_self _) _ _ _ _ hx
  | packed _ hx => exact hx.labels_eq hts

theorem YieldsArguments.labels_eq {parameters : List Variable} {xs : List Value}
    (h : YieldsArguments d scope parameters ts c xs c') (hts : ∀ u ∈ ts, KeepsLabels d scope u) :
    c'.labels = c.labels := by
  cases h with
  | each _ hxs => exact hxs.labels_eq hts
  | tail _ hxs hx =>
    have hfixed := hxs.labels_eq fun u hu => hts u (List.mem_of_mem_take hu)
    exact (hx.labels_eq fun u hu => hts u (List.mem_of_mem_drop hu)).trans hfixed

theorem YieldsCall.labels_eq {wanted : Option Ty} {call : Call}
    (h : YieldsCall d scope t wanted c call c') (hts : ∀ u ∈ t.children, KeepsLabels d scope u) :
    c'.labels = c.labels := by
  obtain ⟨hcs, -, hreceiver, harguments⟩ := h
  rw [hcs] at hts
  have hfirst := hreceiver.labels_eq (hts _ (List.mem_cons_self ..))
  exact (harguments.labels_eq fun u hu => hts u (List.mem_cons_of_mem _ hu)).trans hfirst

theorem keepsLabels (d : Declarations) (scope : Option String) (t : Tree) :
    KeepsLabels d scope t := by
  induction t using Tree.induction with
  | step t ih =>
    intro wanted c v c' h
    have hpart : ∀ {i : Nat} {u : Tree}, t.children[i]? = some u → KeepsLabels d scope u :=
      fun hu => ih _ (List.mem_of_getElem? hu)
    -- by form; the parts are lowered one after the other and take no label
    cases h.expands with
    | integer | boolean | self | unbound | variable_ | field | classRef | newObject => rfl
    | arithmetic _ _ hleft hright hx hy =>
      have hX := hpart hleft _ _ _ _ hx
      have hY := hpart hright _ _ _ _ hy
      exact hY.trans hX
    | logical _ _ hleft hright hx hy =>
      have hX := hpart hleft _ _ _ _ hx
      have hY := hpart hright _ _ _ _ hy
      exact hY.trans hX
    | call _ hcall => exact hcall.labels_eq ih
    | elementRead _ harray hindex _ _ hx hi =>
      exact (hi.labels_eq (hpart hindex)).trans (hpart harray _ _ _ _ hx)
    | emptyLiteral _ _ hx => exact hx.labels_eq nofun
    | arrayLiteral _ _ _ hx => exact hx.labels_eq ih
    | newArray _ hsize hx =>
      have hX := hpart hsize _ _ _ _ hx
      exact hX
    | length _ harray hx =>
      have hX := hpart harray _ _ _ _ hx
      exact hX

/-- Lowering an expression leaves the number of the next label alone. -/
theorem Yields.labels_eq {wanted : Option Ty} {v : Value} (h : Yields d scope t wanted c v c') :
    c'.labels = c.labels :=
  keepsLabels d scope t wanted c v c' h

theorem Yields.straight {wanted : Option Ty} {v : Value} (h : Yields d scope t wanted c v c') :
    ∀ l ∈ v.code, l.isStraight :=
  h.isFlat.flat.straight

/-! ### The layout of statements -/

/-- What the lowering of a statement comes to, as far as control is concerned. -/
inductive LaidOut (d : Declarations) (scope : Option String) (result : Ty) (t : Tree)
    (c : Counters) : List Line → Counters → Prop
  | straight {ls c'} : t.kind ∈ [.assignment, .elementAssignment, .expressionStmt] →
      (∀ l ∈ ls, l.isStraight) → c'.labels = c.labels → LaidOut d scope result t c ls c'
  | ret {code x c'} : t.kind = .returnStmt → (∀ l ∈ code, l.isStraight) →
      (x = none ↔ t.children = []) → c'.labels = c.labels →
      LaidOut d scope result t c (code ++ [.ret (Tag.ofTy result) x]) c'
  | conditional {condition thenPart rest x thenLines elseLines c₁ c₂ c'} :
      t.kind = .conditional → t.children = condition :: thenPart :: rest →
      (∀ l ∈ x.code, l.isStraight) → c₁.labels = c.labels + 1 →
      YieldsLines d scope result thenPart c₁ thenLines c₂ →
      YieldsBlock d scope result (rest.take 1) c₂ elseLines c' →
      LaidOut d scope result t c (conditionalLines c.labels x thenLines elseLines) c'
  | loop {condition body rest x bodyLines c₁ c'} : t.kind = .loop →
      t.children = condition :: body :: rest → (∀ l ∈ x.code, l.isStraight) →
      c₁.labels = c.labels + 1 → YieldsLines d scope result body c₁ bodyLines c' →
      LaidOut d scope result t c (loopLines c.labels x bodyLines) c'
  | block {ls c'} : t.kind = .block → YieldsBlock d scope result t.children c ls c' →
      LaidOut d scope result t c ls c'

theorem straight_concat {ls : List Line} {l : Line} (h : ∀ l ∈ ls, l.isStraight)
    (hl : l.isStraight) : ∀ l' ∈ ls ++ [l], l'.isStraight :=
  List.forall_mem_append.mpr ⟨h, List.forall_mem_singleton.mpr hl⟩

/-- Statements are laid out by their form. -/
theorem YieldsLines.laidOut {ls : List Line} (h : YieldsLines d scope result t c ls c') :
    LaidOut d scope result t c ls c' := by
  cases h.expands with
  | assignment hk _ _ _ hx =>
    exact .straight (by simp [hk]) (straight_concat hx.straight rfl) hx.labels_eq
  | fieldAssignment hk _ _ _ hx =>
    exact .straight (by simp [hk]) (straight_concat hx.straight rfl) hx.labels_eq
  | elementAssignment hk _ _ _ _ hi hx =>
    have hindex := (hi.isFlat (lowersFlat _ _ _)).flat.straight
    refine .straight (by simp [hk]) (straight_concat ?_ rfl)
      (hx.labels_eq.trans (hi.labels_eq (keepsLabels _ _ _)))
    exact List.forall_mem_append.mpr ⟨hindex, hx.straight⟩
  | fieldElementAssignment hk _ _ _ _ _ hi hx =>
    have hindex := (hi.isFlat (lowersFlat _ _ _)).flat.straight
    refine .straight (by simp [hk]) (straight_concat ?_ rfl)
      (hx.labels_eq.trans (hi.labels_eq (keepsLabels _ _ _)))
    refine List.forall_mem_append.mpr ⟨List.forall_mem_append.mpr ⟨?_, hindex⟩, hx.straight⟩
    exact List.forall_mem_singleton.mpr rfl
  | callStmt hk _ _ hcall =>
    have hcode := (hcall.flat fun u _ => lowersFlat d scope u).1.straight
    exact .straight (by simp [hk]) (straight_concat hcode rfl)
      (hcall.labels_eq fun u _ => keepsLabels d scope u)
  | expressionStmt hk _ _ hx => exact .straight (by simp [hk]) hx.straight hx.labels_eq
  | returnNothing hk hcs =>
    have hlines : LaidOut d scope result t c ([] ++ [.ret (Tag.ofTy result) none]) c :=
      .ret hk (List.forall_mem_nil _) (iff_of_true rfl hcs) rfl
    exact hlines
  | returnValue hk hvalue hx =>
    refine .ret hk hx.straight (iff_of_false nofun fun hcs => ?_) hx.labels_eq
    rw [hcs] at hvalue
    nomatch hvalue
  | conditional hk hcs hx hthen helse =>
    exact .conditional hk hcs hx.straight hx.labels_eq hthen helse
  | loop hk hcs hx hbody => exact .loop hk hcs hx.straight hx.labels_eq hbody
  | block hk hls => exact .block hk hls

/-! ### Jumps and labels -/

/-- The label that control can go to from a line. -/
def Line.target? : Line → Option Label
  | branch _ l | jump l => some l
  | _ => none

/-- The labels that lines jump to, from top to bottom. -/
def targets (ls : List Line) : List Label := ls.filterMap Line.target?

@[simp] theorem targets_append (ls ls' : List Line) :
    targets (ls ++ ls') = targets ls ++ targets ls' := List.filterMap_append

@[simp] theorem targets_nil : targets [] = [] := rfl

@[simp] theorem targets_cons_label (l : Label) (ls : List Line) :
    targets (.label l :: ls) = targets ls := rfl

@[simp] theorem targets_cons_branch (x : Operand) (l : Label) (ls : List Line) :
    targets (.branch x l :: ls) = l :: targets ls := rfl

@[simp] theorem targets_cons_jump (l : Label) (ls : List Line) :
    targets (.jump l :: ls) = l :: targets ls := rfl

theorem labels_of_straight {ls : List Line} (h : ∀ l ∈ ls, l.isStraight) : labels ls = [] := by
  apply List.filterMap_eq_nil_iff.mpr
  intro l hl
  have hstraight := h l hl
  cases l <;> first | rfl | cases hstraight

theorem targets_of_straight {ls : List Line} (h : ∀ l ∈ ls, l.isStraight) : targets ls = [] := by
  apply List.filterMap_eq_nil_iff.mpr
  intro l hl
  have hstraight := h l hl
  cases l <;> first | rfl | cases hstraight

theorem targets_subset_of_straight {ls : List Line} (h : ∀ l ∈ ls, l.isStraight) :
    targets ls ⊆ labels ls := by
  rw [targets_of_straight h]
  exact List.nil_subset _

/-- The labels in the lines are different from one another and have numbers from the
first one up to the second, and the lines jump to each of them once and to no
other. -/
structure Landmarked (lo hi : Nat) (ls : List Line) : Prop where
  le : lo ≤ hi
  between : LabelsBetween lo hi (labels ls)
  targets : (targets ls).Perm (labels ls)

/-- Lines without labels and jumps. -/
theorem landmarked_of_eq_nil {ls : List Line} (n : Nat) (hlabels : labels ls = [])
    (htargets : targets ls = []) : Landmarked n n ls where
  le := le_rfl
  between := by
    rw [hlabels]
    exact labelsBetween_nil n n
  targets := by rw [hlabels, htargets]

theorem landmarked_of_straight {ls : List Line} (n : Nat) (h : ∀ l ∈ ls, l.isStraight) :
    Landmarked n n ls :=
  landmarked_of_eq_nil n (labels_of_straight h) (targets_of_straight h)

theorem Landmarked.append {lo mid hi : Nat} {ls ls' : List Line} (h : Landmarked lo mid ls)
    (h' : Landmarked mid hi ls') : Landmarked lo hi (ls ++ ls') where
  le := h.le.trans h'.le
  between := by
    rw [labels_append]
    exact h.between.append h'.between h.le h'.le
  targets := by
    rw [labels_append, targets_append]
    exact h.targets.append h'.targets

section Layout

variable {n mid hi : Nat} {x : Value} {thenLines elseLines bodyLines : List Line}
  (hx : ∀ l ∈ x.code, l.isStraight)
include hx

theorem landmarked_conditionalLines (hthen : Landmarked (n + 1) mid thenLines)
    (helse : Landmarked mid hi elseLines) :
    Landmarked n hi (conditionalLines n x thenLines elseLines) where
  le := ((Nat.le_succ n).trans hthen.le).trans helse.le
  between := .conditional (labels_of_straight hx) hthen.between helse.between hthen.le helse.le
  targets := by
    rw [labels_conditionalLines (labels_of_straight hx)]
    simp only [conditionalLines, targets_append, targets_of_straight hx, List.nil_append,
      targets_cons_branch, targets_cons_jump, targets_cons_label, targets_nil, List.append_nil]
    refine List.perm_iff_count.mpr fun l => ?_
    have hthenCount := hthen.targets.count_eq l
    have helseCount := helse.targets.count_eq l
    simp only [List.count_append, List.count_cons, List.count_nil]
    omega

theorem landmarked_loopLines (hbody : Landmarked (n + 1) hi bodyLines) :
    Landmarked n hi (loopLines n x bodyLines) where
  le := (Nat.le_succ n).trans hbody.le
  between := .loop (labels_of_straight hx) hbody.between hbody.le
  targets := by
    rw [labels_loopLines (labels_of_straight hx)]
    simp only [loopLines, targets_append, targets_of_straight hx, List.nil_append,
      targets_cons_branch, targets_cons_jump, targets_cons_label, targets_nil, List.append_nil]
    refine List.perm_iff_count.mpr fun l => ?_
    have hcount := hbody.targets.count_eq l
    simp only [List.count_append, List.count_cons, List.count_nil]
    omega

end Layout

/-- Whatever a statement is lowered to, its lines are landmarked by the labels that
it took. -/
def LowersLandmarked (d : Declarations) (scope : Option String) (result : Ty) (t : Tree) : Prop :=
  ∀ c ls c', YieldsLines d scope result t c ls c' → Landmarked c.labels c'.labels ls

theorem YieldsBlock.landmarked_of_each {ls : List Line} (h : YieldsBlock d scope result ts c ls c')
    (hts : ∀ u ∈ ts, LowersLandmarked d scope result u) : Landmarked c.labels c'.labels ls := by
  induction h with
  | nil => exact landmarked_of_eq_nil _ rfl rfl
  | cons hls _ ih =>
    have hfirst := hts _ (List.mem_cons_self ..) _ _ _ hls
    exact hfirst.append (ih fun u hu => hts u (List.mem_cons_of_mem _ hu))

theorem lowersLandmarked (d : Declarations) (scope : Option String) (result : Ty) (t : Tree) :
    LowersLandmarked d scope result t := by
  induction t using Tree.induction with
  | step t ih =>
    intro c ls c' h
    -- by the layout, since the labels depend on nothing else
    cases h.laidOut with
    | straight _ hstraight hlabels =>
      rw [hlabels]
      exact landmarked_of_straight _ hstraight
    | ret _ hcode _ hlabels =>
      rw [hlabels]
      exact (landmarked_of_straight _ hcode).append (landmarked_of_eq_nil _ rfl rfl)
    | conditional _ hcs hx hlabels hthen helse =>
      rw [hcs] at ih
      have hThen := ih _ (by simp) _ _ _ hthen
      rw [hlabels] at hThen
      refine landmarked_conditionalLines hx hThen (helse.landmarked_of_each fun u hu => ih u ?_)
      exact List.mem_cons_of_mem _ (List.mem_cons_of_mem _ (List.mem_of_mem_take hu))
    | loop _ hcs hx hlabels hbody =>
      rw [hcs] at ih
      have hBody := ih _ (by simp) _ _ _ hbody
      rw [hlabels] at hBody
      exact landmarked_loopLines hx hBody
    | block _ hls => exact hls.landmarked_of_each ih

/-- The lines of statements are landmarked by the labels that they took. -/
theorem YieldsBlock.landmarked {ls : List Line} (h : YieldsBlock d scope result ts c ls c') :
    Landmarked c.labels c'.labels ls :=
  h.landmarked_of_each fun u _ => lowersLandmarked d scope result u

end JavaMinus.ThreeAddress
