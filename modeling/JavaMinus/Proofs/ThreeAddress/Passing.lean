/-
JavaMinus/Proofs/ThreeAddress/Passing.lean

What the arguments of a call are passed as.

The checks bind the arguments of a call to the parameters of the method
(`Declarations.Binds`).  Lowering sorts them out once more and in its own way: it
takes as many arguments as the list gives, and asks by itself whether a single
array is left for an open tail.  Both come to the same
(`arguments_fill_parameters`): a call of one of the class's own methods passes
one argument for each parameter, in order, and for an open tail an array of what
is left.

That the array of an open tail holds just what it should, and is changed by no
other line, follows from the numbers of temporaries: lines store only into arrays
that they made themselves (`Flat.storesInto_eq_nil`).
-/
import JavaMinus.Proofs.Arguments
import JavaMinus.Proofs.ThreeAddress.Capture
import JavaMinus.Proofs.ThreeAddress.Faults

namespace JavaMinus.ThreeAddress

/-! ### Stores into an array -/

/-- The position and the value of a store into the array that a temporary holds,
if the line is one. -/
def Line.storedInto? (array : Nat) : Line → Option (Operand × Operand)
  | store (.temporary n) i _ x => if n = array then some (i, x) else none
  | _ => none

/-- The stores into the array that a temporary holds, from top to bottom. -/
def storesInto (array : Nat) (ls : List Line) : List (Operand × Operand) :=
  ls.filterMap (·.storedInto? array)

@[simp] theorem storesInto_nil (array : Nat) : storesInto array [] = [] := rfl

@[simp] theorem storesInto_append (array : Nat) (ls ls' : List Line) :
    storesInto array (ls ++ ls') = storesInto array ls ++ storesInto array ls' :=
  List.filterMap_append

theorem storesInto_eq_nil_of_forall {array : Nat} {ls : List Line}
    (h : ∀ l ∈ ls, array ∉ l.used) : storesInto array ls = [] := by
  apply List.filterMap_eq_nil_iff.mpr
  intro l hl
  have hused := h l hl
  rcases l with - | - | ⟨⟨n⟩ | -, i, tag, x⟩ | - | - | - | - | - | - <;> try rfl
  show (if n = array then some (i, x) else none) = none
  apply if_neg
  rintro rfl
  apply hused
  simp [Line.used, Cell.temporary?]

variable {lo hi : Nat} {ls : List Line}

/-- Flat lines that use nothing from above use only temporaries that they define
themselves. -/
theorem Flat.mem_used (h : Flat lo hi [] ls) {l : Line} (hl : l ∈ ls) {k : Nat} (hk : k ∈ l.used) :
    lo ≤ k ∧ k < hi := by
  obtain ⟨before, after, rfl⟩ := List.append_of_mem hl
  rcases h.ready.defined_before hk with ⟨hready, -⟩ | ⟨early, l', between, rfl, hdefined, -⟩
  · nomatch hready
  · apply h.defines.mem_iff.mp
    apply List.mem_filterMap.mpr
    exact ⟨l', by simp, hdefined⟩

theorem Flat.storesInto_eq_nil (h : Flat lo hi [] ls) {array : Nat}
    (harray : array < lo ∨ hi ≤ array) : storesInto array ls = [] := by
  apply storesInto_eq_nil_of_forall
  intro l hl hk
  have hbounds := h.mem_used hl hk
  omega

/-! ### An array of arguments -/

/-- A value for an element of an array, and the number of the temporary that holds
its position. -/
structure Element where
  position : Nat
  value : Value

namespace Element

/-- The lines that compute an element, set its position and store it. -/
def lines (array i : Nat) (e : Element) : List Line :=
  e.value.code ++
    [.assign (.temporary e.position) .i32 (.operand (.number (toString i))),
     .store (.temporary array) (.cell (.temporary e.position) .i32) .i32 e.value.operand]

/-- What the store of an element stores, behind its position. -/
def stored (e : Element) : Operand × Operand :=
  (.cell (.temporary e.position) .i32, e.value.operand)

theorem storesInto_lines (array i : Nat) (e : Element) :
    storesInto array (e.lines array i) = storesInto array e.value.code ++ [e.stored] := by
  rw [lines, storesInto_append]
  simp [storesInto, Line.storedInto?, stored]

end Element

/-- The lines of elements that are stored from a position on. -/
def storeLines (array : Nat) : Nat → List Element → List Line
  | _, [] => []
  | i, e :: rest => e.lines array i ++ storeLines array (i + 1) rest

variable (d : Declarations) (scope : Option String)

/-- The value is a new array of numbers for the given expressions: its size is
their number, and each of them is computed and stored at its position.  The
given lines, which hold those of the value, store nothing else into it. -/
structure Packs (ts : List Tree) (ls : List Line) (x : Value) (array : Nat)
    (elements : List Element) : Prop where
  operand : x.operand = .cell (.temporary array) (.array .i32)
  code : x.code = .assign (.temporary array) (.array .i32)
    (.newArray (.number (toString ts.length)) (.array .i32)) :: storeLines array 0 elements
  lowered : List.Forall₂ (fun t (e : Element) => ∃ c c',
    (lower d scope t (some .int)).run c = .ok (e.value, c')) ts elements
  stored : storesInto array ls = elements.map (·.stored)

/-- What the arguments for an open tail are passed as: a single array of numbers
as it is, anything else as a new array. -/
inductive PassesTail (ts : List Tree) (ls : List Line) (x : Value) : Prop
  | single {t c c'} : ts = [t] → d.IsSingleArray scope ts →
      (lower d scope t none).run c = .ok (x, c') → PassesTail ts ls x
  | packed {array elements} : ¬ d.IsSingleArray scope ts →
      Packs d scope ts ls x array elements → PassesTail ts ls x

/-- The values that arguments are passed as, one for each parameter. -/
structure PassesArguments (parameters : List Variable) (ts : List Tree) (ls : List Line)
    (xs : List Value) : Prop where
  length : xs.length = parameters.length
  fixed : ∀ (i : Nat) (v : Variable), (Parameters.fixed parameters)[i]? = some v →
    ∃ t x c c', ts[i]? = some t ∧ xs[i]? = some x ∧
      (lower d scope t (some v.ty)).run c = .ok (x, c')
  tail : ∀ v, Parameters.openTail? parameters = some v → ∃ x, xs.getLast? = some x ∧
    PassesTail d scope (ts.drop (Parameters.fixed parameters).length) ls x

/-- The call makes its invocation with the arguments that the parameters of the
method are filled with.  No temporary is set twice in front of it. -/
structure FillsParameters (t : Tree) (call : Call) : Prop where
  method : call.invocation.method = t.name
  once : (definitions call.code).Nodup
  passes : ∃ (code : List Line) (xs : List Value), call.code = code ++ xs.flatMap (·.code) ∧
    call.invocation.arguments = xs.map (·.operand) ∧
    PassesArguments d scope (d.parameters t.name) (t.children.drop 1) call.code xs

variable {d scope} {t : Tree} {ts : List Tree} {c c' : Counters} {x : Value}

theorem YieldsStores.exists_elements {array i : Nat} {stores : List Line}
    (h : YieldsStores d scope array .int i ts c stores c') (harray : array < c.temporaries) :
    ∃ elements, List.Forall₂ (fun t (e : Element) => ∃ c c',
        (lower d scope t (some .int)).run c = .ok (e.value, c')) ts elements ∧
      stores = storeLines array i elements ∧
      storesInto array stores = elements.map (·.stored) := by
  induction h with
  | nil => exact ⟨[], .nil, rfl, rfl⟩
  | @cons i u rest c x c₁ more c₂ hx _ ih =>
    have hflat := hx.isFlat.flat
    have hle := hflat.defines.le
    obtain ⟨elements, hlowered, hmore, hstored⟩ := ih (by rw [Counters.temporaries_next]; omega)
    refine ⟨⟨c₁.temporaries, x⟩ :: elements, .cons ⟨c, c₁, hx⟩ hlowered, ?_, ?_⟩
    · show _ = Element.lines array i ⟨c₁.temporaries, x⟩ ++ _
      rw [hmore, Element.lines, Tag.ofTy_int]
    · rw [Tag.ofTy_int, storesInto_append, hstored]
      show storesInto array (Element.lines array i ⟨c₁.temporaries, x⟩) ++ _ = _
      rw [Element.storesInto_lines, hflat.storesInto_eq_nil (Or.inl harray), List.nil_append]
      rfl

theorem YieldsArray.packs (h : YieldsArray d scope .int ts c x c') {before : List Line}
    (hbefore : Flat lo c.temporaries [] before) :
    ∃ elements, Packs d scope ts (before ++ x.code) x c.temporaries elements := by
  obtain ⟨hstores⟩ := h
  obtain ⟨elements, hlowered, hcode, hstored⟩ := hstores.exists_elements (Nat.lt_succ_self _)
  refine ⟨elements, rfl, ?_, hlowered, ?_⟩
  · show _ :: _ = _
    rw [hcode]
    rfl
  · rw [storesInto_append, hbefore.storesInto_eq_nil (Or.inr le_rfl), List.nil_append]
    exact hstored

/-! ### The arguments of a call -/

theorem YieldsTail.passes (h : YieldsTail d scope ts c x c')
    (hbinds : d.IsSingleArray scope ts ∨ ∀ t ∈ ts, d.MayBe scope t .int) {before : List Line}
    (hbefore : Flat lo c.temporaries [] before) :
    PassesTail d scope ts (before ++ x.code) x := by
  cases h with
  | single hone htype hisArray hx =>
    refine .single hone ?_ hx
    rcases hbinds with hsingle | hints
    · exact hsingle
    · -- an argument that passed as a number is no array
      rcases hints _ (hone ▸ List.mem_singleton_self _) with hunknown | hint
      · rw [hunknown] at htype
        nomatch htype
      · rw [hint] at htype
        injection htype with htype
        injection htype with htype
        subst htype
        nomatch hisArray
  | packed hnone hx =>
    obtain ⟨elements, hpacks⟩ := hx.packs hbefore
    refine .packed ?_ hpacks
    rintro ⟨t, ty, hone, htype, hisArray, -⟩
    rw [hnone t ty hone htype] at hisArray
    nomatch hisArray

theorem YieldsEach.length {parameters : List Variable} {xs : List Value}
    (h : YieldsEach d scope parameters ts c xs c') : xs.length = ts.length := by
  induction h with
  | nil => rfl
  | cons _ _ ih => rw [List.length_cons, List.length_cons, ih]

theorem YieldsEach.getElem? {parameters : List Variable} {xs : List Value}
    (h : YieldsEach d scope parameters ts c xs c') {i : Nat} {v : Variable}
    (hv : parameters[i]? = some v) (hi : i < ts.length) :
    ∃ t x c c', ts[i]? = some t ∧ xs[i]? = some x ∧
      (lower d scope t (some v.ty)).run c = .ok (x, c') := by
  induction h generalizing i with
  | nil => nomatch hi
  | @cons parameters t rest c x c₁ xs c₂ hx _ ih =>
    rcases parameters with - | ⟨p, parameters⟩
    · nomatch hv
    · cases i with
      | zero =>
        obtain rfl : p = v := Option.some.inj hv
        exact ⟨t, x, c, c₁, rfl, rfl, hx⟩
      | succ i => exact ih hv (Nat.lt_of_succ_lt_succ hi)

/-- Arguments that bind to the parameters are passed for them. -/
theorem YieldsArguments.passes {parameters : List Variable} {xs : List Value}
    (h : YieldsArguments d scope parameters ts c xs c') (hbinds : d.Binds scope parameters ts)
    {before : List Line} (hbefore : Flat lo c.temporaries [] before) :
    PassesArguments d scope parameters ts (before ++ xs.flatMap (·.code)) xs := by
  have hlength := hbinds.fixed.length_eq
  rw [List.length_take] at hlength
  cases h with
  | each hnone hxs =>
    have hall := hbinds.none_left hnone
    refine ⟨?_, ?_, ?_⟩
    · rw [hxs.length, hall, Parameters.fixed_of_openTail?_eq_none hnone]
    · intro i v hv
      rw [Parameters.fixed_of_openTail?_eq_none hnone] at hv hall
      refine hxs.getElem? hv ?_
      rw [hall]
      exact (List.getElem?_eq_some_iff.mp hv).1
    · intro v hv
      rw [hnone] at hv
      nomatch hv
  | @tail _ xs c₁ x _ htail hxs hx =>
    -- there are enough arguments for the parameters in front of the tail
    have hcount : (ts.take (Parameters.fixed parameters).length).length =
        (Parameters.fixed parameters).length := by
      rw [List.length_take]
      exact hlength
    refine ⟨?_, ?_, ?_⟩
    · conv_rhs => rw [Parameters.eq_concat_of_openTail?_eq_some htail]
      rw [List.length_append, List.length_append, hxs.length, hcount]
      rfl
    · intro i v hv
      have hi := (List.getElem?_eq_some_iff.mp hv).1
      obtain ⟨t, y, c₂, c₃, ht, hy, hrun⟩ := hxs.getElem? hv (hi.trans_eq hcount.symm)
      refine ⟨t, y, c₂, c₃, ?_, ?_, hrun⟩
      · rwa [List.getElem?_take_of_lt hi] at ht
      · rwa [List.getElem?_append_left (List.getElem?_eq_some_iff.mp hy).1]
    · intro v hv
      refine ⟨x, List.getLast?_concat, ?_⟩
      -- the array is numbered behind everything that the arguments in front of it took
      have hfront := hbefore.append ((hxs.areFlat fun u _ => lowersFlat d scope u).flat.mono
        (List.nil_subset _))
      have hpasses := hx.passes (hbinds.tail v hv) hfront
      rwa [List.flatMap_append, List.flatMap_singleton, ← List.append_assoc]

theorem YieldsCall.fillsParameters {wanted : Option Ty} {call : Call}
    (h : YieldsCall d scope t wanted c call c') {ty : Ty}
    (hown : d.callType scope t = .ok (some ty))
    (hbinds : d.Binds scope (d.parameters t.name) (t.children.drop 1)) :
    FillsParameters d scope t call := by
  obtain ⟨hflat, -⟩ := h.flat fun u _ => lowersFlat d scope u
  obtain ⟨hcs, hdeclared, hreceiver, hxs⟩ := h
  rw [hown] at hdeclared
  injection hdeclared with hdeclared
  subst hdeclared
  rw [hcs, List.drop_succ_cons, List.drop_zero] at hbinds
  refine ⟨rfl, ?_, _, _, rfl, rfl, ?_⟩
  · exact hflat.defines.perm.nodup_iff.mpr List.nodup_range'
  · rw [hcs, List.drop_succ_cons, List.drop_zero]
    exact hxs.passes hbinds (hreceiver.flat (lowersFlat d scope _)).1

/-! ### Programs -/

variable {root : Tree}

theorem callType_of_isOwnCall {p : Place} (h : p.IsOwnCall d) :
    ∃ ty, d.callType p.method? p.tree = .ok (some ty) := by
  obtain ⟨-, hdeclared, receiver, arguments, hcs, htype⟩ := h
  obtain ⟨s, hs⟩ := Option.isSome_iff_exists.mp hdeclared
  refine ⟨s.returnType, ?_⟩
  rw [Declarations.callType_ok hcs htype, hdeclared]
  simp [Declarations.isOwnType, Declarations.returnType?, hs]

/-- A call stands in the method that it belongs to. -/
theorem exists_hasCallIn (hgrammar : root.isGrammatical) {p : Program}
    (hp : Program.ofTree d root = .ok p) {q : Place} (hq : q ∈ (Place.top root).preorder)
    (hcall : q.IsOwnCall d) :
    ∃ m ∈ p.methods, q.method? = some m.name ∧ HasCallIn d q.method? m.body q.tree := by
  obtain ⟨m, hm, hmethod, hemits⟩ := exists_emits_of_ofTree hgrammar hp hq (by rw [hcall.kind]; rfl)
  exact ⟨m, hm, hmethod, hemits.hasCallIn hcall.kind⟩

section Programs

variable (hgrammar : root.isGrammatical) (hroot : Declarations.ofTree root = .ok d)
  (hclean : d.analyze (.top root) = .ok .empty) (himported : d.isImported d.className = false)

include hgrammar hroot hclean himported

/-- In a program without findings one of the class's own calls has arguments that
bind to the parameters of the method. -/
theorem binds_of_isOwnCall {q : Place} (hq : q ∈ (Place.top root).preorder)
    (hcall : q.IsOwnCall d) :
    d.Binds q.method? (d.parameters q.tree.name) (q.tree.children.drop 1) := by
  have hformed := (Tree.formed_of_isGrammatical hgrammar).of_mem_preorder
    (Place.tree_mem_preorder hq)
  exact Place.binds_of_check hroot himported hformed.self hcall
    (Declarations.check_eq_pure hclean q hq)

/-- It passes them for these parameters. -/
theorem fillsParameters_of_isOwnCall {q : Place} (hq : q ∈ (Place.top root).preorder)
    (hcall : q.IsOwnCall d) {wanted : Option Ty} {c c' : Counters} {call : Call}
    (hrun : (lowerCall d q.method? q.tree (partsOfEach d q.method? q.tree.children) wanted).run c =
      .ok (call, c')) :
    FillsParameters d q.method? q.tree call := by
  obtain ⟨ty, hty⟩ := callType_of_isOwnCall hcall
  exact (yieldsCall_of_run hrun).fillsParameters hty
    (binds_of_isOwnCall hgrammar hroot hclean himported hq hcall)

end Programs

/-- **Arguments.**  In a program without findings, whose class has not the name of
an import, a call of one of the class's own methods has arguments that bind to
the parameters of the method, and its invocation, which stands in the method that
the call belongs to, passes them for these parameters. -/
theorem arguments_fill_parameters (hgrammar : root.isGrammatical)
    (hroot : Declarations.ofTree root = .ok d) (hclean : d.analyze (.top root) = .ok .empty)
    (himported : d.isImported d.className = false) :
    ∃ p, Program.ofTree d root = .ok p ∧
      ∀ q ∈ (Place.top root).preorder, q.IsOwnCall d →
        d.Binds q.method? (d.parameters q.tree.name) (q.tree.children.drop 1) ∧
        (∃ m ∈ p.methods, q.method? = some m.name ∧ HasCallIn d q.method? m.body q.tree) ∧
        ∀ wanted c call c', (lowerCall d q.method? q.tree
            (partsOfEach d q.method? q.tree.children) wanted).run c = .ok (call, c') →
          FillsParameters d q.method? q.tree call := by
  obtain ⟨p, hp⟩ := exists_ofTree_of_clean hgrammar hclean
  refine ⟨p, hp, ?_⟩
  intro q hq hcall
  refine ⟨binds_of_isOwnCall hgrammar hroot hclean himported hq hcall,
    exists_hasCallIn hgrammar hp hq hcall, ?_⟩
  intro wanted c call c' hrun
  exact fillsParameters_of_isOwnCall hgrammar hroot hclean himported hq hcall hrun

/-! ### A method with an open tail

    class Tally {
      int sum(int first, int... rest) { return first; }
      int run(int[] held) {
        int x;
        x = this.sum(1);           // an array of none
        x = this.sum(1, held);     // the array itself
        return this.sum(1, 2, 3);  // an array of two
      }
    }
-/

def sumOf (rest : List Tree) : Tree :=
  (Form.call "sum" Form.self.tree ((Form.integer 1).tree :: rest)).tree

/-- What the three calls have behind the first argument. -/
def tallied : List (List Tree) :=
  [[], [(Form.identifier "held").tree], [(Form.integer 2).tree, (Form.integer 3).tree]]

def tally : Tree :=
  let int := (Form.typeName "int" false false).tree
  let sum := (Form.methodDecl "sum" int false
    [(Form.parameter "first" int).tree,
      (Form.parameter "rest" (Form.typeName "int" false true).tree).tree,
      (Form.returnStmt (some (Form.identifier "first").tree)).tree]).tree
  let run := (Form.methodDecl "run" int false
    [(Form.parameter "held" (Form.typeName "int" true false).tree).tree,
      (Form.variableDecl "x" int).tree,
      (Form.assignment "x" (sumOf [])).tree,
      (Form.assignment "x" (sumOf [(Form.identifier "held").tree])).tree,
      (Form.returnStmt
        (some (sumOf [(Form.integer 2).tree, (Form.integer 3).tree]))).tree]).tree
  (Form.program [(Form.classDecl "Tally" none [sum, run]).tree]).tree

def tallyDeclarations : Declarations :=
  ⟨"Tally", none, [], [],
    [⟨"sum", .int, [⟨"first", .int⟩, ⟨"rest", .intVarargs⟩], [], false⟩,
      ⟨"run", .int, [⟨"held", .intArray⟩], [⟨"x", .int⟩], false⟩]⟩

theorem tally_fills_parameters :
    ∃ p, Program.ofTree tallyDeclarations tally = .ok p ∧
      ∀ rest ∈ tallied, ∃ m ∈ p.methods, m.name = "run" ∧
        HasCallIn tallyDeclarations (some "run") m.body (sumOf rest) ∧
        ∀ wanted c call c', (lowerCall tallyDeclarations (some "run") (sumOf rest)
            (partsOfEach tallyDeclarations (some "run") (sumOf rest).children) wanted).run c =
              .ok (call, c') →
          FillsParameters tallyDeclarations (some "run") (sumOf rest) call := by
  have hgrammar : tally.isGrammatical := by decide
  obtain ⟨p, hp, hcalls⟩ :=
    arguments_fill_parameters (d := tallyDeclarations) hgrammar rfl rfl rfl
  refine ⟨p, hp, ?_⟩
  intro rest hrest
  have hplaced : ((Place.top tally).preorder.filter (·.tree.kind == .call)).map
      (fun q => (q.tree, q.method?)) = tallied.map fun rest => (sumOf rest, some "run") := rfl
  obtain ⟨q, hq, htree, hmethod⟩ := Place.exists_of_calls hplaced (List.mem_map_of_mem hrest)
  have hown : q.IsOwnCall tallyDeclarations := by
    constructor
    · rw [htree]
      rfl
    · rw [htree]
      rfl
    · rw [htree]
      exact ⟨_, _, rfl, rfl⟩
  obtain ⟨-, ⟨m, hm, hname, hhas⟩, hfills⟩ := hcalls q hq hown
  rw [hmethod, htree] at hhas hfills
  rw [hmethod] at hname
  exact ⟨m, hm, (Option.some.inj hname).symm, hhas, hfills⟩

end JavaMinus.ThreeAddress
