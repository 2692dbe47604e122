/-
JavaMinus/Proofs/ThreeAddress/Temporaries.lean

How temporaries are used.

The lines that a program is lowered to define each temporary that was taken just
once, and a line uses a temporary only behind the line that defines it, with no
label and no jump between the two
(`temporaries_are_defined_once_before_use`).

The numbers do not stand in order: of a branch the part that is written last
takes its numbers first.  So what is carried through the lowering is that lines
define the numbers between two counters in some order (`Defines`).  What a line
may use is followed from line to line: a definition adds to it, a label or a
jump takes everything away (`Ready`).
-/
import JavaMinus.Proofs.Grammar
import JavaMinus.Proofs.ThreeAddress.Expansion
import JavaMinus.ThreeAddress.Program

namespace JavaMinus.ThreeAddress

/-! ### Definitions and uses -/

def Cell.temporary? : Cell → Option Nat
  | temporary number => some number
  | named _ => none

/-- The temporary that an operand is, if it is one. -/
def Operand.temporary? : Operand → Option Nat
  | cell c _ => c.temporary?
  | number _ | truth _ | self _ | classRef _ => none

def Receiver.used : Receiver → List Nat
  | object x => x.temporary?.toList
  | classRef _ | self => []

def Invocation.used (i : Invocation) : List Nat :=
  i.receiver.used ++ i.arguments.filterMap (·.temporary?)

/-- The temporaries that a source computes something from. -/
def Source.used : Source → List Nat
  | operand x | newArray x _ | length x => x.temporary?.toList
  | arithmetic _ x y | logical _ x y | element x y _ =>
    x.temporary?.toList ++ y.temporary?.toList
  | call i => i.used
  | fieldRead .. | newObject _ => []

namespace Line

/-- The temporary that a line defines, if it defines one. -/
def defined? : Line → Option Nat
  | assign c _ _ => c.temporary?
  | _ => none

/-- The temporaries that a line uses.  To store into the array that a temporary
holds is to use it. -/
def used : Line → List Nat
  | assign _ _ source => source.used
  | store array i _ x => array.temporary?.toList ++ i.temporary?.toList ++ x.temporary?.toList
  | fieldWrite _ _ x | construct x | branch x _ => x.temporary?.toList
  | call i => i.used
  | ret _ x => (x.bind (·.temporary?)).toList
  | label _ | jump _ => []

/-- Whether a line is passed from above to below only. -/
def isStraight : Line → Bool
  | label _ | branch .. | jump _ | ret .. => false
  | assign .. | store .. | fieldWrite .. | call _ | construct _ => true

end Line

/-- The temporaries that lines define, from top to bottom. -/
def definitions (ls : List Line) : List Nat := ls.filterMap (·.defined?)

@[simp] theorem definitions_nil : definitions [] = [] := rfl

@[simp] theorem definitions_append (ls ls' : List Line) :
    definitions (ls ++ ls') = definitions ls ++ definitions ls' := List.filterMap_append

@[simp] theorem definitions_cons (l : Line) (ls : List Line) :
    definitions (l :: ls) = l.defined?.toList ++ definitions ls := by
  rcases e : l.defined? with - | n <;> simp [definitions, e]

theorem append_subset_definitions {ks ks' : List Nat} {ls ls' : List Line}
    (h : ks ⊆ definitions ls) (h' : ks' ⊆ definitions ls') :
    ks ++ ks' ⊆ definitions (ls ++ ls') := by
  rw [definitions_append]
  exact List.append_subset.mpr
    ⟨List.subset_append_of_subset_left _ h, List.subset_append_of_subset_right _ h'⟩

/-! ### Numbers between two counters -/

/-- The lines define the temporaries from one number up to another, in some
order and each once. -/
structure Defines (lo hi : Nat) (ls : List Line) : Prop where
  le : lo ≤ hi
  perm : (definitions ls).Perm (List.range' lo (hi - lo))

theorem defines_nil (n : Nat) : Defines n n [] := ⟨le_rfl, by simp⟩

theorem Defines.append {lo mid hi : Nat} {ls ls' : List Line} (h : Defines lo mid ls)
    (h' : Defines mid hi ls') : Defines lo hi (ls ++ ls') where
  le := h.le.trans h'.le
  perm := by
    have hle := h.le
    have hle' := h'.le
    have hsplit : List.range' lo (hi - lo) =
        List.range' lo (mid - lo) ++ List.range' mid (hi - mid) := by
      have hmid : mid = lo + 1 * (mid - lo) := by omega
      have hlength : hi - lo = (mid - lo) + (hi - mid) := by omega
      conv_rhs => rw [hmid]
      rw [hlength, ← List.range'_append]
      simp only [Nat.one_mul, Nat.add_sub_cancel_left]
      rw [Nat.add_sub_of_le hle]
    rw [definitions_append, hsplit]
    exact h.perm.append h'.perm

/-- Lines that are told apart only by their order define the same. -/
theorem Defines.of_perm {lo hi : Nat} {ls ls' : List Line} (h : Defines lo hi ls)
    (hperm : (definitions ls').Perm (definitions ls)) : Defines lo hi ls' :=
  ⟨h.le, hperm.trans h.perm⟩

/-- Lines that define nothing. -/
theorem defines_of_definitions_eq_nil {ls : List Line} (h : definitions ls = []) (n : Nat) :
    Defines n n ls := ⟨le_rfl, by simp [h]⟩

theorem defines_single {l : Line} {n : Nat} (h : l.defined? = some n) :
    Defines n (n + 1) [l] := ⟨Nat.le_succ n, by simp [h]⟩

/-! ### What lines may use -/

/-- What may be used behind a line. -/
def Line.readyAfter (l : Line) (ready : List Nat) : List Nat :=
  if l.isStraight then l.defined?.toList ++ ready else []

/-- Each line uses what is ready in front of the lines, or was defined since by
lines that are passed straight. -/
def Ready : List Nat → List Line → Prop
  | _, [] => True
  | ready, l :: rest => l.used ⊆ ready ∧ Ready (l.readyAfter ready) rest

theorem Line.readyAfter_mono (l : Line) {ready ready' : List Nat} (h : ready ⊆ ready') :
    l.readyAfter ready ⊆ l.readyAfter ready' := by
  rw [readyAfter, readyAfter]
  split
  · exact List.append_subset.mpr
      ⟨List.subset_append_left .., List.subset_append_of_subset_right _ h⟩
  · exact List.Subset.refl _

/-- Nothing is lost where more is ready. -/
theorem Ready.mono {ready ready' : List Nat} {ls : List Line} (h : Ready ready ls)
    (hready : ready ⊆ ready') : Ready ready' ls := by
  induction ls generalizing ready ready' with
  | nil => trivial
  | cons l rest ih => exact ⟨List.Subset.trans h.1 hready, ih h.2 (l.readyAfter_mono hready)⟩

/-- Lines that use nothing from above may stand below any others. -/
theorem Ready.append {ready : List Nat} {ls ls' : List Line} (h : Ready ready ls)
    (h' : Ready [] ls') : Ready ready (ls ++ ls') := by
  induction ls generalizing ready with
  | nil => exact h'.mono (List.nil_subset _)
  | cons l rest ih => exact ⟨h.1, ih h.2⟩

/-- Behind lines that are passed straight, all that they define is ready. -/
theorem Ready.append_straight {ready : List Nat} {ls ls' : List Line} (h : Ready ready ls)
    (hstraight : ∀ l ∈ ls, l.isStraight) (h' : Ready (definitions ls ++ ready) ls') :
    Ready ready (ls ++ ls') := by
  induction ls generalizing ready with
  | nil => exact h'
  | cons l rest ih =>
    refine ⟨h.1, ih h.2 (fun l' hl' => hstraight l' (List.mem_cons_of_mem _ hl')) (h'.mono ?_)⟩
    rw [Line.readyAfter, if_pos (hstraight l (List.mem_cons_self ..))]
    intro k hk
    simp only [definitions_cons, List.mem_append] at hk ⊢
    tauto

/-- A line uses only what was defined above it, with nothing but straight lines
between, or what is ready in front of all lines, if nothing but straight lines
stands above it. -/
theorem Ready.defined_before {ready : List Nat} {before after : List Line} {l : Line}
    (h : Ready ready (before ++ l :: after)) {k : Nat} (hk : k ∈ l.used) :
    (k ∈ ready ∧ ∀ m ∈ before, m.isStraight) ∨
      ∃ early l' between, before = early ++ l' :: between ∧ l'.defined? = some k ∧
        ∀ m ∈ between, m.isStraight := by
  induction before generalizing ready with
  | nil => exact Or.inl ⟨h.1 hk, List.forall_mem_nil _⟩
  | cons first rest ih =>
    -- what is ready behind the first line was defined by it or was ready in front of it
    rcases ih h.2 with ⟨hready, hstraight⟩ | ⟨early, l', between, hrest, hdefined, hstraight⟩
    · rw [Line.readyAfter] at hready
      split at hready
      · next hfirst =>
        rcases List.mem_append.mp hready with hnew | hold
        · exact Or.inr ⟨[], first, rest, rfl, Option.mem_toList.mp hnew, hstraight⟩
        · exact Or.inl ⟨hold, List.forall_mem_cons.mpr ⟨hfirst, hstraight⟩⟩
      · nomatch hready
    · exact Or.inr ⟨first :: early, l', between, by rw [hrest]; rfl, hdefined, hstraight⟩

/-! ### Lines of expressions -/

/-- Lines that are passed from the first to the last, define the temporaries
between two numbers, and use nothing but these and what is ready in front of
them. -/
structure Flat (lo hi : Nat) (ready : List Nat) (ls : List Line) : Prop where
  defines : Defines lo hi ls
  straight : ∀ l ∈ ls, l.isStraight
  ready : Ready ready ls

theorem flat_nil (n : Nat) (ready : List Nat) : Flat n n ready [] :=
  ⟨defines_nil n, List.forall_mem_nil _, trivial⟩

theorem Flat.mono {lo hi : Nat} {ready ready' : List Nat} {ls : List Line}
    (h : Flat lo hi ready ls) (hready : ready ⊆ ready') : Flat lo hi ready' ls :=
  ⟨h.defines, h.straight, h.ready.mono hready⟩

/-- Lines in front of others make ready what they define. -/
theorem Flat.append {lo mid hi : Nat} {ready : List Nat} {ls ls' : List Line}
    (h : Flat lo mid ready ls) (h' : Flat mid hi (definitions ls ++ ready) ls') :
    Flat lo hi ready (ls ++ ls') where
  defines := h.defines.append h'.defines
  straight := List.forall_mem_append.mpr ⟨h.straight, h'.straight⟩
  ready := h.ready.append_straight h.straight h'.ready

/-- A line that sets a temporary. -/
theorem flat_assign {n : Nat} {tag : Tag} {source : Source} {ready : List Nat}
    (h : source.used ⊆ ready) : Flat n (n + 1) ready [.assign (.temporary n) tag source] :=
  ⟨defines_single rfl, by simp [Line.isStraight], h, trivial⟩

/-- A line that is passed and defines nothing. -/
theorem flat_effect {l : Line} {ready : List Nat} (n : Nat) (hdefined : l.defined? = none)
    (hstraight : l.isStraight) (h : l.used ⊆ ready) : Flat n n ready [l] :=
  ⟨defines_of_definitions_eq_nil (by simp [hdefined]) n, by simp [hstraight], h, trivial⟩

/-- A value whose lines are flat, and which is no temporary that they do not
define. -/
structure Value.IsFlat (lo hi : Nat) (v : Value) : Prop where
  flat : Flat lo hi [] v.code
  operand : v.operand.temporary?.toList ⊆ definitions v.code

theorem isFlat_plain (n : Nat) {x : Operand} (h : x.temporary? = none) :
    (Value.plain x).IsFlat n n := ⟨flat_nil n [], by simp [Value.plain, h]⟩

theorem isFlat_computed {lo n : Nat} {before : List Line} {tag : Tag} {source : Source}
    (h : Flat lo n [] before) (hused : source.used ⊆ definitions before) :
    (Value.computed before n tag source).IsFlat lo (n + 1) where
  flat := h.append (flat_assign (List.subset_append_of_subset_left _ hused))
  operand := by simp [Value.computed, Operand.temporary?, Cell.temporary?, Line.defined?]

/-- The lines of two values, one behind the other. -/
theorem Value.IsFlat.append {lo mid hi : Nat} {x y : Value} (hx : x.IsFlat lo mid)
    (hy : y.IsFlat mid hi) : Flat lo hi [] (x.code ++ y.code) :=
  hx.flat.append (hy.flat.mono (List.nil_subset _))

/-- What two values are is defined by their lines. -/
theorem Value.IsFlat.operands_subset {lo mid hi : Nat} {x y : Value} (hx : x.IsFlat lo mid)
    (hy : y.IsFlat mid hi) :
    x.operand.temporary?.toList ++ y.operand.temporary?.toList ⊆ definitions (x.code ++ y.code) :=
  append_subset_definitions hx.operand hy.operand

section Lowered

variable {d : Declarations} {scope : Option String} {t : Tree} {ts : List Tree}

/-- Whatever an expression is lowered to, its lines are flat. -/
def LowersFlat (d : Declarations) (scope : Option String) (t : Tree) : Prop :=
  ∀ wanted c v c', Yields d scope t wanted c v c' → v.IsFlat c.temporaries c'.temporaries

theorem YieldsIndex.isFlat {c c' : Counters} {v : Value} (h : YieldsIndex d scope t c v c')
    (ht : LowersFlat d scope t) : v.IsFlat c.temporaries c'.temporaries := by
  cases h with
  | literal _ hx =>
    have hX := ht _ _ _ _ hx
    exact isFlat_computed hX.flat hX.operand
  | other _ hx => exact ht _ _ _ _ hx

theorem YieldsStores.flat {array i : Nat} {element : Ty} {c c' : Counters} {stores : List Line}
    (h : YieldsStores d scope array element i ts c stores c')
    (hts : ∀ u ∈ ts, LowersFlat d scope u) :
    Flat c.temporaries c'.temporaries [array] stores := by
  induction h with
  | nil => exact flat_nil _ _
  | @cons i u rest c x c₁ more c₂ hx _ ih =>
    have hX := hts u (List.mem_cons_self ..) _ _ _ _ hx
    have hMore := ih fun u hu => hts u (List.mem_cons_of_mem _ hu)
    have hposition : Flat c₁.temporaries c₁.next.temporaries (definitions x.code ++ [array])
        [.assign (.temporary c₁.temporaries) .i32 (.operand (.number (toString i)))] :=
      flat_assign (List.nil_subset _)
    refine Flat.append ?_ (hMore.mono (List.subset_append_right ..))
    refine (hX.flat.mono (List.nil_subset _)).append (hposition.append (flat_effect _ rfl rfl ?_))
    intro k hk
    have hoperand := @hX.operand k
    simp only [Line.used, Cell.temporary?, Operand.temporary?, Line.defined?, Option.toList_some,
      definitions_cons, definitions_nil, List.mem_append, List.mem_singleton] at hk ⊢
    tauto

theorem YieldsArray.isFlat {element : Ty} {c c' : Counters} {v : Value}
    (h : YieldsArray d scope element ts c v c') (hts : ∀ u ∈ ts, LowersFlat d scope u) :
    v.IsFlat c.temporaries c'.temporaries := by
  obtain ⟨hstores⟩ := h
  constructor
  · exact Flat.append (flat_assign (List.nil_subset _)) (hstores.flat hts)
  · simp [Operand.temporary?, Cell.temporary?, Line.defined?]

theorem YieldsReceiver.flat {c c' : Counters} {code : List Line} {receiver : Receiver}
    (h : YieldsReceiver d scope t c code receiver c') (ht : LowersFlat d scope t) :
    Flat c.temporaries c'.temporaries [] code ∧ receiver.used ⊆ definitions code := by
  cases h with
  | self => exact ⟨flat_nil _ _, List.nil_subset _⟩
  | classRef => exact ⟨flat_nil _ _, List.nil_subset _⟩
  | object _ hx =>
    have hX := ht _ _ _ _ hx
    exact ⟨hX.flat, hX.operand⟩

/-- The lines of some values, one behind the other, are flat and define what
the values are. -/
structure AreFlat (lo hi : Nat) (xs : List Value) : Prop where
  flat : Flat lo hi [] (xs.flatMap (·.code))
  operands : xs.filterMap (·.operand.temporary?) ⊆ definitions (xs.flatMap (·.code))

theorem areFlat_nil (n : Nat) : AreFlat n n [] := ⟨flat_nil n [], List.nil_subset _⟩

theorem Value.IsFlat.areFlat {lo hi : Nat} {x : Value} (h : x.IsFlat lo hi) :
    AreFlat lo hi [x] where
  flat := by simpa using h.flat
  operands := by
    rcases e : x.operand.temporary? with - | k
    · simp [e]
    · simpa [e] using h.operand

theorem AreFlat.append {lo mid hi : Nat} {xs ys : List Value} (hx : AreFlat lo mid xs)
    (hy : AreFlat mid hi ys) : AreFlat lo hi (xs ++ ys) where
  flat := by
    rw [List.flatMap_append]
    exact hx.flat.append (hy.flat.mono (List.nil_subset _))
  operands := by
    rw [List.filterMap_append, List.flatMap_append]
    exact append_subset_definitions hx.operands hy.operands

theorem YieldsEach.areFlat {parameters : List Variable} {c c' : Counters} {xs : List Value}
    (h : YieldsEach d scope parameters ts c xs c') (hts : ∀ u ∈ ts, LowersFlat d scope u) :
    AreFlat c.temporaries c'.temporaries xs := by
  induction h with
  | nil => exact areFlat_nil _
  | cons hx _ ih =>
    have hX := hts _ (List.mem_cons_self ..) _ _ _ _ hx
    exact hX.areFlat.append (ih fun u hu => hts u (List.mem_cons_of_mem _ hu))

theorem YieldsTail.isFlat {c c' : Counters} {v : Value} (h : YieldsTail d scope ts c v c')
    (hts : ∀ u ∈ ts, LowersFlat d scope u) : v.IsFlat c.temporaries c'.temporaries := by
  cases h with
  | single hone _ _ hx =>
    subst hone
    exact hts _ (List.mem_singleton_self _) _ _ _ _ hx
  | packed _ hx => exact hx.isFlat hts

theorem YieldsArguments.areFlat {parameters : List Variable} {c c' : Counters} {xs : List Value}
    (h : YieldsArguments d scope parameters ts c xs c') (hts : ∀ u ∈ ts, LowersFlat d scope u) :
    AreFlat c.temporaries c'.temporaries xs := by
  cases h with
  | each _ hxs => exact hxs.areFlat hts
  | tail _ hxs hx =>
    have hXs := hxs.areFlat fun u hu => hts u (List.mem_of_mem_take hu)
    have hX := hx.isFlat fun u hu => hts u (List.mem_of_mem_drop hu)
    exact hXs.append hX.areFlat

theorem YieldsCall.flat {wanted : Option Ty} {c c' : Counters} {call : Call}
    (h : YieldsCall d scope t wanted c call c') (ht : ∀ u ∈ t.children, LowersFlat d scope u) :
    Flat c.temporaries c'.temporaries [] call.code ∧
      call.invocation.used ⊆ definitions call.code := by
  obtain ⟨hcs, -, hreceiver, hxs⟩ := h
  rw [hcs] at ht
  obtain ⟨hcode, hused⟩ := hreceiver.flat (ht _ (List.mem_cons_self ..))
  have hXs := hxs.areFlat fun u hu => ht u (List.mem_cons_of_mem _ hu)
  refine ⟨hcode.append (hXs.flat.mono (List.nil_subset _)), ?_⟩
  rw [Invocation.used, List.filterMap_map]
  exact append_subset_definitions hused hXs.operands

/-- **Expressions.**  The lines of an expression define the temporaries that it
took, each before it is used. -/
theorem lowersFlat (d : Declarations) (scope : Option String) (t : Tree) :
    LowersFlat d scope t := by
  induction t using Tree.induction with
  | step t ih =>
    intro wanted c v c' h
    have hpart : ∀ {i : Nat} {u : Tree}, t.children[i]? = some u → LowersFlat d scope u :=
      fun hu => ih _ (List.mem_of_getElem? hu)
    -- by form; what a part defines is used behind it, and the last line defines the result
    cases h.expands with
    | integer => exact isFlat_plain _ rfl
    | boolean => exact isFlat_plain _ rfl
    | self => exact isFlat_plain _ rfl
    | unbound => exact isFlat_plain _ rfl
    | variable_ => exact isFlat_plain _ rfl
    | classRef => exact isFlat_plain _ rfl
    | field => exact isFlat_computed (flat_nil _ _) (List.nil_subset _)
    | arithmetic _ _ hleft hright hx hy =>
      have hX := hpart hleft _ _ _ _ hx
      have hY := hpart hright _ _ _ _ hy
      exact isFlat_computed (hX.append hY) (hX.operands_subset hY)
    | logical _ _ hleft hright hx hy =>
      have hX := hpart hleft _ _ _ _ hx
      have hY := hpart hright _ _ _ _ hy
      exact isFlat_computed (hX.append hY) (hX.operands_subset hY)
    | call _ hcall =>
      obtain ⟨hcode, hused⟩ := hcall.flat ih
      exact isFlat_computed hcode hused
    | elementRead _ harray hindex _ _ hx hi =>
      have hX := hpart harray _ _ _ _ hx
      have hI := hi.isFlat (hpart hindex)
      exact isFlat_computed (hX.append hI) (hX.operands_subset hI)
    | emptyLiteral _ _ hx => exact hx.isFlat nofun
    | arrayLiteral _ _ _ hx => exact hx.isFlat ih
    | newObject =>
      constructor
      · exact (flat_assign (List.nil_subset _)).append
          (flat_effect _ rfl rfl (List.subset_append_left ..))
      · simp [Operand.temporary?, Cell.temporary?, Line.defined?]
    | newArray _ hsize hx =>
      have hX := hpart hsize _ _ _ _ hx
      exact isFlat_computed hX.flat hX.operand
    | length _ harray hx =>
      have hX := hpart harray _ _ _ _ hx
      exact isFlat_computed hX.flat hX.operand

theorem Yields.isFlat {wanted : Option Ty} {c c' : Counters} {v : Value}
    (h : Yields d scope t wanted c v c') : v.IsFlat c.temporaries c'.temporaries :=
  lowersFlat d scope t wanted c v c' h

/-! ### Lines of statements -/

/-- Lines that define the temporaries between two numbers, and use nothing that
they do not define themselves. -/
structure Settled (lo hi : Nat) (ls : List Line) : Prop where
  defines : Defines lo hi ls
  ready : Ready [] ls

theorem Flat.settled {lo hi : Nat} {ls : List Line} (h : Flat lo hi [] ls) : Settled lo hi ls :=
  ⟨h.defines, h.ready⟩

theorem settled_nil (n : Nat) : Settled n n [] := (flat_nil n []).settled

theorem Settled.append {lo mid hi : Nat} {ls ls' : List Line} (h : Settled lo mid ls)
    (h' : Settled mid hi ls') : Settled lo hi (ls ++ ls') :=
  ⟨h.defines.append h'.defines, h.ready.append h'.ready⟩

/-- Lines that neither define nor use a temporary. -/
theorem settled_of_forall {ls : List Line} (n : Nat)
    (h : ∀ l ∈ ls, l.defined? = none ∧ l.used = []) : Settled n n ls := by
  refine ⟨defines_of_definitions_eq_nil ?_ n, ?_⟩
  · exact List.filterMap_eq_nil_iff.mpr fun l hl => (h l hl).1
  · induction ls with
    | nil => trivial
    | cons l rest ih =>
      refine ⟨by rw [(h l (List.mem_cons_self ..)).2]; exact List.nil_subset _, ?_⟩
      exact (ih fun l' hl' => h l' (List.mem_cons_of_mem _ hl')).mono (List.nil_subset _)

/-- A line behind flat lines, which defines nothing and uses what they
define. -/
theorem Flat.concat {lo hi : Nat} {ls : List Line} {l : Line} (h : Flat lo hi [] ls)
    (hdefined : l.defined? = none) (hused : l.used ⊆ definitions ls) :
    Settled lo hi (ls ++ [l]) where
  defines := h.defines.append (defines_of_definitions_eq_nil (by simp [hdefined]) hi)
  ready := h.ready.append_straight h.straight
    ⟨List.subset_append_of_subset_left _ hused, trivial⟩

theorem settled_conditionalLines {lo mid mid' hi n : Nat} {x : Value}
    {thenLines elseLines : List Line} (hx : x.IsFlat lo mid) (hthen : Settled mid mid' thenLines)
    (helse : Settled mid' hi elseLines) :
    Settled lo hi (conditionalLines n x thenLines elseLines) := by
  have hbranch : Settled lo mid (x.code ++ [.branch x.operand ⟨.thenBranch, n⟩]) :=
    hx.flat.concat rfl hx.operand
  have hbetween : Settled hi hi [.jump ⟨.conditionalEnd, n⟩, .label ⟨.thenBranch, n⟩] :=
    settled_of_forall hi (by simp [Line.defined?, Line.used])
  have hend : Settled hi hi [.label ⟨.conditionalEnd, n⟩] :=
    settled_of_forall hi (by simp [Line.defined?, Line.used])
  constructor
  · -- the then-part has the smaller numbers, but stands behind the else-part
    refine ((hbranch.append hthen).append helse).defines.of_perm ?_
    simp only [conditionalLines, definitions_append, List.append_assoc]
    simp only [definitions_cons, definitions_nil, Line.defined?, Option.toList_none,
      List.nil_append, List.append_nil]
    exact List.perm_append_comm.append_left _
  · exact ((((hbranch.ready.append helse.ready).append hbetween.ready).append hthen.ready).append
      hend.ready)

theorem settled_loopLines {lo mid hi n : Nat} {x : Value} {bodyLines : List Line}
    (hx : x.IsFlat lo mid) (hbody : Settled mid hi bodyLines) :
    Settled lo hi (loopLines n x bodyLines) := by
  have hhead : Settled lo lo [.label ⟨.loopCondition, n⟩] :=
    settled_of_forall lo (by simp [Line.defined?, Line.used])
  have hbranch : Settled lo mid (x.code ++ [.branch x.operand ⟨.loopBody, n⟩]) :=
    hx.flat.concat rfl hx.operand
  have hbetween : Settled mid mid [.jump ⟨.loopEnd, n⟩, .label ⟨.loopBody, n⟩] :=
    settled_of_forall mid (by simp [Line.defined?, Line.used])
  have hend : Settled hi hi [.jump ⟨.loopCondition, n⟩, .label ⟨.loopEnd, n⟩] :=
    settled_of_forall hi (by simp [Line.defined?, Line.used])
  simpa [loopLines] using (((hhead.append hbranch).append hbetween).append hbody).append hend

variable {result : Ty}

/-- Whatever a statement is lowered to, its lines are settled. -/
def LowersSettled (d : Declarations) (scope : Option String) (result : Ty) (t : Tree) : Prop :=
  ∀ c ls c', YieldsLines d scope result t c ls c' → Settled c.temporaries c'.temporaries ls

theorem YieldsBlock.settled {c c' : Counters} {ls : List Line}
    (h : YieldsBlock d scope result ts c ls c') (hts : ∀ u ∈ ts, LowersSettled d scope result u) :
    Settled c.temporaries c'.temporaries ls := by
  induction h with
  | nil => exact settled_nil _
  | cons hls _ ih =>
    have hLs := hts _ (List.mem_cons_self ..) _ _ _ hls
    exact hLs.append (ih fun u hu => hts u (List.mem_cons_of_mem _ hu))

/-- **Statements.**  The lines of a statement define the temporaries that it
took, each before it is used. -/
theorem lowersSettled (d : Declarations) (scope : Option String) (result : Ty) (t : Tree) :
    LowersSettled d scope result t := by
  induction t using Tree.induction with
  | step t ih =>
    intro c ls c' h
    cases h.expands with
    | assignment _ _ _ _ hx => exact hx.isFlat.flat.concat rfl hx.isFlat.operand
    | fieldAssignment _ _ _ _ hx => exact hx.isFlat.flat.concat rfl hx.isFlat.operand
    | elementAssignment _ _ _ _ _ hi hx =>
      have hI := hi.isFlat (lowersFlat _ _ _)
      have hX := hx.isFlat
      exact (hI.append hX).concat rfl (hI.operands_subset hX)
    | fieldElementAssignment _ _ _ _ _ _ hi hx =>
      have hI := hi.isFlat (lowersFlat _ _ _)
      have hX := hx.isFlat
      -- the array is fetched in front of the index and stays ready up to the store
      rw [List.append_assoc [_]]
      refine Flat.concat (.append (flat_assign (by simp [Source.used]))
        ((hI.append hX).mono (List.nil_subset _))) rfl ?_
      rw [Line.used, List.append_assoc]
      refine append_subset_definitions ?_ (hI.operands_subset hX)
      simp [Cell.temporary?, Line.defined?]
    | callStmt _ _ _ hcall =>
      obtain ⟨hcode, hused⟩ := hcall.flat fun u _ => lowersFlat d scope u
      exact hcode.concat rfl hused
    | expressionStmt _ _ _ hx => exact hx.isFlat.flat.settled
    | returnNothing => exact settled_of_forall _ (by simp [Line.defined?, Line.used])
    | returnValue _ _ hx => exact hx.isFlat.flat.concat rfl hx.isFlat.operand
    | conditional _ hcs hx hthen helse =>
      rw [hcs] at ih
      refine settled_conditionalLines hx.isFlat (ih _ (by simp) _ _ _ hthen)
        (helse.settled fun u hu => ih u ?_)
      exact List.mem_cons_of_mem _ (List.mem_cons_of_mem _ (List.mem_of_mem_take hu))
    | loop _ hcs hx hbody =>
      rw [hcs] at ih
      exact settled_loopLines hx.isFlat (ih _ (by simp) _ _ _ hbody)
    | block _ hls => exact hls.settled ih

end Lowered

/-! ### Methods and programs -/

section Program

variable {d : Declarations} {t : Tree} {c c' : Counters}

theorem settled_addedReturn (n : Nat) (result : Ty) (body : List Tree) :
    Settled n n (addedReturn result body) := by
  refine settled_of_forall n fun l hl => ?_
  rw [addedReturn] at hl
  split at hl
  · rw [List.mem_singleton.mp hl]
    exact ⟨rfl, rfl⟩
  · nomatch hl

theorem settled_of_lowerMethod {m : Method} (h : (lowerMethod d t).run c = .ok (m, c')) :
    Settled c.temporaries c'.temporaries m.body := by
  obtain ⟨ls, c₁, hls, h⟩ := run_bind_eq_ok h
  obtain ⟨rfl, rfl⟩ := run_pure_eq_ok h
  have hLs := (yieldsBlock_of_run hls).settled fun u _ => lowersSettled _ _ _ u
  exact hLs.append (settled_addedReturn _ _ _)

/-- The lines of some methods, one after another. -/
def bodies (ms : List Method) : List Line := ms.flatMap (·.body)

/-- The methods of a program, class after class. -/
def Program.methods (p : Program) : List Method := p.classes.flatMap (·.methods)

/-- Methods whose temporaries are numbered on from method to method, between
two numbers. -/
inductive Numbered : Nat → List Method → Nat → Prop
  | nil {n} : Numbered n [] n
  | cons {lo mid hi m ms} : Settled lo mid m.body → Numbered mid ms hi → Numbered lo (m :: ms) hi

theorem Numbered.append {lo mid hi : Nat} {ms ms' : List Method} (h : Numbered lo ms mid)
    (h' : Numbered mid ms' hi) : Numbered lo (ms ++ ms') hi := by
  induction h with
  | nil => exact h'
  | cons hm _ ih => exact .cons hm (ih h')

theorem Numbered.defines {lo hi : Nat} {ms : List Method} (h : Numbered lo ms hi) :
    Defines lo hi (bodies ms) := by
  induction h with
  | nil => exact defines_nil _
  | cons hm _ ih => exact hm.defines.append ih

/-- A method among others has numbers between those in front of it and those
behind it. -/
theorem Numbered.split {lo hi : Nat} {before after : List Method} {m : Method}
    (h : Numbered lo (before ++ m :: after) hi) :
    ∃ mid mid', Numbered lo before mid ∧ Settled mid mid' m.body ∧ Numbered mid' after hi := by
  induction before generalizing lo with
  | nil =>
    obtain - | ⟨hm, hafter⟩ := h
    exact ⟨_, _, .nil, hm, hafter⟩
  | cons m' rest ih =>
    obtain - | ⟨hm', hrest⟩ := h
    obtain ⟨mid, mid', hbefore, hm, hafter⟩ := ih hrest
    exact ⟨mid, mid', .cons hm' hbefore, hm, hafter⟩

theorem numbered_of_lowerClass {code : ClassCode} (h : (lowerClass d t).run c = .ok (code, c')) :
    Numbered c.temporaries code.methods c'.temporaries := by
  obtain ⟨ms, c₁, hms, h⟩ := run_bind_eq_ok h
  obtain ⟨rfl, rfl⟩ := run_pure_eq_ok h
  refine run_mapM_induction (P := fun c ms c' => Numbered c.temporaries ms c'.temporaries)
    (fun c => .nil) ?_ hms
  exact fun u _ c c₁ c₂ m ms hm hrest => .cons (settled_of_lowerMethod hm) hrest

theorem numbered_of_lowerProgram {root : Tree} {p : Program}
    (h : (lowerProgram d root).run c = .ok (p, c')) :
    Numbered c.temporaries p.methods c'.temporaries := by
  obtain ⟨classes, c₁, hclasses, h⟩ := run_bind_eq_ok h
  obtain ⟨rfl, rfl⟩ := run_pure_eq_ok h
  refine run_mapM_induction (P := fun c classes c' =>
    Numbered c.temporaries (classes.flatMap (·.methods)) c'.temporaries) (fun c => .nil) ?_ hclasses
  exact fun u _ c c₁ c₂ code classes hcode hrest => (numbered_of_lowerClass hcode).append hrest

theorem exists_run_of_ofTree {root : Tree} {p : Program} (h : Program.ofTree d root = .ok p) :
    ∃ c, (lowerProgram d root).run ⟨0, 0⟩ = .ok (p, c) := run'_eq_ok h

/-- The temporaries of a program are numbered from zero. -/
theorem numbered_of_ofTree {root : Tree} {p : Program} (h : Program.ofTree d root = .ok p) :
    ∃ n labels, (lowerProgram d root).run ⟨0, 0⟩ = .ok (p, ⟨n, labels⟩) ∧
      Numbered 0 p.methods n := by
  obtain ⟨⟨n, labels⟩, hrun⟩ := exists_run_of_ofTree h
  exact ⟨n, labels, hrun, numbered_of_lowerProgram hrun⟩

/-! ### Expressions that need no lines -/

/-- Whether an expression is an operand as it stands: a literal, the object
itself, or a name that does not denote a field. -/
def IsImmediate (d : Declarations) (scope : Option String) (t : Tree) : Prop :=
  t.kind.isLiteral ∨ t.kind = .self ∨
    (t.kind = .identifier ∧ ∀ b, d.identifier? scope t = some b → b.origin ≠ .field)

/-- An expression that is an operand as it stands has no lines, and any other
has some and is a temporary. -/
theorem isImmediate_or_temporary {scope : Option String} {wanted : Option Ty} {v : Value}
    (h : Yields d scope t wanted c v c') :
    (v.code = [] ∧ v.operand.temporary? = none ∧ IsImmediate d scope t) ∨
      (v.code ≠ [] ∧ v.operand.temporary? ≠ none ∧ ¬ IsImmediate d scope t) := by
  -- only literals, the object and names can be operands as they stand
  have hother : t.kind.isLiteral = false → t.kind ≠ .self → t.kind ≠ .identifier →
      ¬ IsImmediate d scope t := by
    intro hliteral hself hidentifier
    simp [IsImmediate, hliteral, hself, hidentifier]
  cases h.expands with
  | integer hk => exact Or.inl ⟨rfl, rfl, Or.inl (by rw [hk]; rfl)⟩
  | boolean hk => exact Or.inl ⟨rfl, rfl, Or.inl (by rw [hk]; rfl)⟩
  | self hk => exact Or.inl ⟨rfl, rfl, Or.inr (Or.inl hk)⟩
  | unbound hk hb => exact Or.inl ⟨rfl, rfl, Or.inr (Or.inr ⟨hk, by simp [hb]⟩)⟩
  | variable_ hk hb _ hfield =>
    exact Or.inl ⟨rfl, rfl, Or.inr (Or.inr ⟨hk, by simpa [hb] using hfield⟩)⟩
  | classRef hk hb hclass =>
    refine Or.inl ⟨rfl, rfl, Or.inr (Or.inr ⟨hk, ?_⟩)⟩
    simp only [hb, Option.some.injEq]
    rintro _ rfl hfield
    rw [hfield] at hclass
    nomatch hclass
  | field hk hb hfield =>
    refine Or.inr ⟨nofun, nofun, ?_⟩
    simp [IsImmediate, hk, hb, hfield, Kind.isLiteral]
  | emptyLiteral hk _ hx | arrayLiteral hk _ _ hx =>
    obtain ⟨hstores⟩ := hx
    exact Or.inr ⟨nofun, nofun, hother (by rw [hk]; rfl) (by simp [hk]) (by simp [hk])⟩
  | newObject hk =>
    exact Or.inr ⟨nofun, nofun, hother (by rw [hk]; rfl) (by simp [hk]) (by simp [hk])⟩
  | arithmetic hk | logical hk | call hk | elementRead hk | newArray hk | length hk =>
    refine Or.inr ⟨?_, nofun, hother (by rw [hk]; rfl) (by simp [hk]) (by simp [hk])⟩
    exact List.append_ne_nil_of_right_ne_nil _ nofun

/-- **Temporaries.**  The lines of a program define each temporary that was
taken once, and no other.  A line uses only temporaries that are defined above
it in its method, with nothing but straight lines between.  And just those
expressions have no lines that are operands as they stand, and so are no
temporaries. -/
theorem temporaries_are_defined_once_before_use {root : Tree} {p : Program}
    (h : Program.ofTree d root = .ok p) :
    (∃ n labels, (lowerProgram d root).run ⟨0, 0⟩ = .ok (p, ⟨n, labels⟩) ∧
      (definitions (bodies p.methods)).Perm (List.range n)) ∧
    (∀ m ∈ p.methods, ∀ before l after, m.body = before ++ l :: after →
      ∀ k ∈ l.used, ∃ early l' between, before = early ++ l' :: between ∧
        l'.defined? = some k ∧ ∀ l'' ∈ between, l''.isStraight) ∧
    ∀ (scope : Option String) (t : Tree) (wanted : Option Ty) (c : Counters) (v : Value)
      (c' : Counters), Yields d scope t wanted c v c' →
      (v.code = [] ↔ IsImmediate d scope t) ∧ (v.code = [] ↔ v.operand.temporary? = none) := by
  obtain ⟨n, labels, hrun, hnumbered⟩ := numbered_of_ofTree h
  refine ⟨⟨n, labels, hrun, ?_⟩, ?_, ?_⟩
  · rw [List.range_eq_range']
    exact hnumbered.defines.perm
  · intro m hm before l after hbody k hk
    obtain ⟨ms, ms', hms⟩ := List.append_of_mem hm
    rw [hms] at hnumbered
    obtain ⟨mid, mid', -, hsettled, -⟩ := hnumbered.split
    have hready := hsettled.ready
    rw [hbody] at hready
    exact (hready.defined_before hk).resolve_left fun hnone => nomatch hnone.1
  · intro scope t wanted c v c' hv
    rcases isImmediate_or_temporary hv with ⟨hcode, hoperand, himmediate⟩ |
      ⟨hcode, hoperand, himmediate⟩
    · simp [hcode, hoperand, himmediate]
    · simp [hcode, hoperand, himmediate]

end Program

/-! ### Numbers that do not stand in order

    class Pick {
      int pick(boolean up, int a) {
        int r;
        if (up) r = a + 1; else r = a - 1;
        return r;
      }
    }
-/

def picking : Tree :=
  let int := (Form.typeName "int" false false).tree
  let name (x : String) := (Form.identifier x).tree
  let assignment (op : String) := (Form.assignment "r"
    (Form.arithmetic op (name "a") (Form.integer 1).tree).tree).tree
  let pick := (Form.methodDecl "pick" int false
    [(Form.parameter "up" (Form.typeName "boolean" false false).tree).tree,
      (Form.parameter "a" int).tree, (Form.variableDecl "r" int).tree,
      (Form.conditional (name "up") (assignment "+") (assignment "-")).tree,
      (Form.returnStmt (some (name "r"))).tree]).tree
  (Form.program [(Form.classDecl "Pick" none [pick]).tree]).tree

def pickingDeclarations : Declarations :=
  ⟨"Pick", none, [], [],
    [⟨"pick", .int, [⟨"up", .boolean⟩, ⟨"a", .int⟩], [⟨"r", .int⟩], false⟩]⟩

theorem picking_defines_once :
    ∃ p, Program.ofTree pickingDeclarations picking = .ok p ∧ definitions (bodies p.methods) = [1, 0] ∧
      ∃ n labels, (lowerProgram pickingDeclarations picking).run ⟨0, 0⟩ = .ok (p, ⟨n, labels⟩) ∧
        (definitions (bodies p.methods)).Perm (List.range n) := by
  have hnumbers : (Program.ofTree pickingDeclarations picking).toOption.map
      (fun p => definitions (bodies p.methods)) = some [1, 0] := by decide +kernel
  rcases hp : Program.ofTree pickingDeclarations picking with fault | p
  · rw [hp] at hnumbers
    nomatch hnumbers
  · rw [hp] at hnumbers
    exact ⟨p, rfl, Option.some.inj hnumbers, (temporaries_are_defined_once_before_use hp).1⟩

end JavaMinus.ThreeAddress
