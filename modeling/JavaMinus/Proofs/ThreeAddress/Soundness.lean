/-
JavaMinus/Proofs/ThreeAddress/Soundness.lean

What passes the checks becomes consistent code.

Well-typed statements are lowered to consistent lines, and so are the methods
and the program that they make up.  The checks establish that the statements
of a grammatical program are well typed, as long as the program is explicit:
then lowering comes to an end, and the tags in the program that is written
agree (`checked_programs_are_consistent`).
-/
import JavaMinus.Compiler
import JavaMinus.Proofs.Acceptance
import JavaMinus.Proofs.ThreeAddress.Statements
import JavaMinus.Proofs.ThreeAddress.TypedExpressions

namespace JavaMinus.ThreeAddress

open Declarations

variable {d : Declarations} {name : String} {result : Ty} {t : Tree}

/-! ### Assignments -/

/-- What suits a place for values has a value. -/
theorem not_isVoid_of_suits (hd : d.ClearNames) {ty : Ty} (hne : ty ≠ .void)
    (h : d.Suits (some name) t ty) : ¬ d.IsVoid (some name) t := by
  intro hvoid
  have hcompatible := h.compatible .void hvoid
  obtain ⟨himported, hown⟩ := hd.notReserved "void" (by decide)
  have himported : d.isImported Ty.void.name = false := himported
  have hown : d.isOwnOrSuper Ty.void.name = false := hown
  rw [Declarations.compatible, himported, hown, Bool.and_false, Bool.false_and, Bool.false_and,
    Bool.or_false, Bool.and_false, Bool.or_false] at hcompatible
  obtain ⟨hname, hisArray⟩ := Bool.and_eq_true_iff.mp hcompatible
  have hscalar := Ty.isArray_eq_false_iff.mp (eq_of_beq hisArray).symm
  rw [hscalar, ← eq_of_beq hname] at hne
  exact hne rfl

theorem Suits.lowers (hd : d.ClearNames) {ty : Ty} (hne : ty ≠ .void)
    (ht : WellTyped d (some name) t) (h : d.Suits (some name) t ty) (tag : Tag)
    (c : Counters) :
    ∃ v c', (lower d (some name) t (some ty)).run c = .ok (v, c') ∧ Sound d name tag v.code ∧
      v.operand.fits d (Tag.ofTy ty) := by
  obtain ⟨v, c', hrun, hv⟩ := lowers_of_wellTyped hd ht (not_isVoid_of_suits hd hne h) (some ty) c
    (by simpa using hne)
  exact ⟨v, c', hrun, hv.sound, hv.fits hd h⟩

/-- Lines that are consistent wherever they stand. -/
theorem sound_of_forall {tag : Tag} {code : List Line}
    (h : ∀ l ∈ code, ∀ m : Method, m.result = tag → l.isConsistent d m) :
    Sound d name tag code := fun m _ hresult _ l hl => h l hl m hresult

/-! ### Statements -/

/-- A statement is lowered to consistent lines, whatever the counters. -/
def LowersStatement (d : Declarations) (name : String) (result : Ty) (t : Tree) : Prop :=
  ∀ c, ∃ ls c', (lowerStatement d (some name) result t).run c = .ok (ls, c') ∧
    Sound d name (Tag.ofTy result) ls

theorem lowersStatement_assignment (hd : d.ClearNames) {value : Tree} {b : Binding}
    (hk : t.kind = .assignment) (hcs : t.children = [value])
    (hb : d.variableOf? (some name) t.name = some b) (hvalue : WellTyped d (some name) value)
    (hsuits : d.Suits (some name) value b.ty) : LowersStatement d name result t := by
  intro c
  have hne : b.ty ≠ .void := fun h => hd.notVoid_of_variableOf? hb (congrArg Ty.name h)
  obtain ⟨v, c', hv, hsound, hfits⟩ := Suits.lowers hd hne hvalue hsuits (Tag.ofTy result) c
  have hline : Sound d name (Tag.ofTy result) [assignmentLine b t.name v.operand] := by
    refine sound_of_forall fun l hl m _ => ?_
    have hvoid : (Tag.ofTy b.ty != .void) = true := bne_iff_ne.mpr fun h => hne (ofTy_eq_void h)
    rw [List.mem_singleton.mp hl, assignmentLine]
    split <;> simp [Line.isConsistent, Source.isConsistent, hvoid, hfits]
  refine ⟨_, c', ?_, hsound.append hline⟩
  have hassigned : assigned? d (some name) t = some b := hb
  rw [lowerStatement_assignment hk]
  exact run_lowerAssignment_of_assigned? hassigned hcs hv

/-- The array that an element is assigned to is the name of an array, behind
the lines that fetch it. -/
theorem run_lowerAssignedArray {b : Binding} (hb : d.variableOf? (some name) t.name = some b)
    (hisArray : b.ty.isArray) (tag : Tag) (c : Counters) :
    ∃ fetch array c', (lowerAssignedArray t (some b)).run c = .ok ((fetch, array), c') ∧
      Sound d name tag fetch ∧
      ∀ m : Method, m.name = name → fetch ⊆ m.body → array.holdsArray d m := by
  have htag : (Tag.ofTy b.ty).isArray = true := by rw [isArray_ofTy, hisArray]
  -- the array of a field is fetched into a temporary, any other has a name
  by_cases hfield : b.origin = .field
  · obtain ⟨origin, ty⟩ := b
    obtain rfl : origin = .field := hfield
    refine ⟨_, _, _, rfl, sound_of_forall ?_, ?_⟩
    · intro l hl m _
      rw [List.mem_singleton.mp hl]
      have hvoid : Tag.ofTy ty ≠ .void := by
        intro h
        rw [h] at htag
        cases htag
      simp [Line.isConsistent, Source.isConsistent, hvoid]
    · intro m _ hbody
      refine List.any_eq_true.mpr ⟨_, hbody (List.mem_singleton_self _), ?_⟩
      simp [Line.setsArray, htag]
  · refine ⟨[], .named t.name, c, ?_, sound_nil, ?_⟩
    · obtain ⟨origin, ty⟩ := b
      cases origin <;> first | rfl | exact absurd rfl hfield
    · intro m hname _
      show (d.methodVariable? m.name t.name).any (·.ty.isArray) = true
      rw [hname, methodVariable?_of_variableOf? hb hfield, Option.any_some, hisArray]

theorem lowersStatement_elementAssignment (hd : d.ClearNames) {index value : Tree} {b : Binding}
    {element : Ty} (hk : t.kind = .elementAssignment) (hcs : t.children = [index, value])
    (hb : d.variableOf? (some name) t.name = some b) (helement : b.ty.element? = some element)
    (hindex : WellTyped d (some name) index) (hi : d.MayBe (some name) index .int)
    (hvalue : WellTyped d (some name) value) (hsuits : d.Suits (some name) value element) :
    LowersStatement d name result t := by
  intro c
  have hisArray : b.ty.isArray := by
    cases e : b.ty <;> rw [e] at helement <;> first | rfl | cases helement
  have hne : element ≠ .void := by
    rintro rfl
    refine hd.notVoid_of_variableOf? hb ?_
    cases e : b.ty <;> rw [e] at helement <;> simp_all [Ty.element?, Ty.void, Ty.name]
  obtain ⟨fetch, array, c₁, harray, hfetch, hholds⟩ :=
    run_lowerAssignedArray hb hisArray (Tag.ofTy result) c
  have hlowers : Lowers d name (Tag.ofTy result) index :=
    lowers_of_wellTyped hd hindex (not_isVoid_of_mayBe (by decide) hi)
  obtain ⟨i, c₂, hI, hindexSound, hcarries⟩ := run_lowerIndex hd hlowers hi c₁
  obtain ⟨v, c₃, hv, hsound, hfits⟩ := Suits.lowers hd hne hvalue hsuits (Tag.ofTy result) c₂
  refine ⟨fetch ++ i.code ++ v.code ++
    [.store array i.operand (Tag.ofTy element) v.operand], c₃, ?_, ?_⟩
  · have hassigned : assigned? d (some name) t = some b := hb
    rw [lowerStatement_elementAssignment hk, lowerElementAssignment]
    simp only [hassigned, Option.map_some, Option.getD_some, helement]
    rw [run_bind_ok harray, run_bind_ok (run_lift_ok c₁ (childAt_ok hcs)), run_bind_ok hI,
      run_bind_ok (run_lift_ok c₂ (childAt_one_ok hcs)), run_bind_ok hv]
    rfl
  · refine ((hfetch.append hindexSound).append hsound).concat fun m hname _ hbody => ?_
    have hvoid : Tag.ofTy element ≠ .void := fun h => hne (ofTy_eq_void h)
    -- the lines that fetch the array stand in the method with the others
    have hfetched := hholds m hname fun l hl => hbody (by simp [hl])
    simp [Line.isConsistent, hvoid, hfetched, hcarries, hfits]

theorem lowersStatement_expressionStmt (hd : d.ClearNames) {e : Tree}
    (hk : t.kind = .expressionStmt) (hcs : t.children = [e]) (he : WellTyped d (some name) e)
    (hvalue : e.kind = .call ∨ ¬ d.IsVoid (some name) e) : LowersStatement d name result t := by
  intro c
  -- the value of a call is dropped, so a call may be `void`
  by_cases hcall : e.kind = .call
  · obtain ⟨call, c', hrun, hsound, hreceiver⟩ := exists_lowerCall_of_wellTyped hd he hcall none c
    refine ⟨call.code ++ [.call call.invocation], c', ?_, hsound.append (sound_of_forall ?_)⟩
    · rw [lowerStatement_expressionStmt hk, lowerExpressionStmt,
        run_bind_ok (run_lift_ok c (childAt_ok hcs)), partsOf_eq_map, hcall]
      exact run_bind_ok hrun
    · intro l hl m _
      rw [List.mem_singleton.mp hl]
      exact hreceiver
  · have hlowers : Lowers d name (Tag.ofTy result) e :=
      lowers_of_wellTyped hd he (hvalue.resolve_left hcall)
    obtain ⟨v, c', hv, hV⟩ := hlowers none c nofun
    refine ⟨v.code, c', ?_, hV.sound⟩
    rw [lowerStatement_expressionStmt hk, lowerExpressionStmt,
      run_bind_ok (run_lift_ok c (childAt_ok hcs)), if_neg (by simpa using hcall)]
    exact run_bind_ok hv

theorem lowersStatement_returnNothing (hk : t.kind = .returnStmt) (hcs : t.children = [])
    (hresult : result = .void) : LowersStatement d name result t := by
  intro c
  subst hresult
  refine ⟨[.ret (Tag.ofTy .void) none], c, ?_, sound_of_forall ?_⟩
  · rw [lowerStatement_return hk, lowerReturn, hcs]
    rfl
  · intro l hl m hm
    rw [List.mem_singleton.mp hl, Tag.ofTy_void]
    simp [Line.isConsistent, hm]

theorem lowersStatement_returnValue (hd : d.ClearNames) {value : Tree}
    (hk : t.kind = .returnStmt) (hcs : t.children = [value]) (hresult : result ≠ .void)
    (hvalue : WellTyped d (some name) value) (hsuits : d.Suits (some name) value result) :
    LowersStatement d name result t := by
  intro c
  obtain ⟨v, c', hv, hsound, hfits⟩ :=
    Suits.lowers hd hresult hvalue hsuits (Tag.ofTy result) c
  refine ⟨_, c', by rw [lowerStatement_return hk, run_lowerReturn hcs hv],
    hsound.append (sound_of_forall ?_)⟩
  intro l hl m hm
  have hvoid : Tag.ofTy result ≠ .void := fun h => hresult (ofTy_eq_void h)
  rw [List.mem_singleton.mp hl]
  simp [Line.isConsistent, hvoid, hm, hfits]

/-- A condition is lowered to consistent lines and a truth value. -/
theorem lowers_condition (hd : d.ClearNames) {condition : Tree}
    (hcondition : WellTyped d (some name) condition)
    (hc : d.MayBe (some name) condition .boolean) (tag : Tag) (c : Counters) :
    ∃ v c', (lower d (some name) condition (some .boolean)).run c = .ok (v, c') ∧
      Sound d name tag v.code ∧ v.operand.carries .bool := by
  have hlowers : Lowers d name tag condition :=
    lowers_of_wellTyped hd hcondition (not_isVoid_of_mayBe (by decide) hc)
  obtain ⟨v, c', hv, hV⟩ := hlowers (some .boolean) c some_boolean_ne_void
  exact ⟨v, c', hv, hV.sound, by simpa using hV.carries hd (by decide) hc rfl⟩

theorem sound_conditionalLines {tag : Tag} {n : Nat} {v : Value} {thenLines elseLines : List Line}
    (hv : Sound d name tag v.code) (hcarries : v.operand.carries .bool)
    (hthen : Sound d name tag thenLines) (helse : Sound d name tag elseLines) :
    Sound d name tag (conditionalLines n v thenLines elseLines) := by
  have hbranch : Sound d name tag [.branch v.operand ⟨.thenBranch, n⟩] :=
    sound_of_forall (by simp [Line.isConsistent, hcarries])
  have hbetween : Sound d name tag [.jump ⟨.conditionalEnd, n⟩, .label ⟨.thenBranch, n⟩] :=
    sound_of_forall (by simp [Line.isConsistent])
  have hend : Sound d name tag [.label ⟨.conditionalEnd, n⟩] :=
    sound_of_forall (by simp [Line.isConsistent])
  exact ((((hv.append hbranch).append helse).append hbetween).append hthen).append hend

theorem sound_loopLines {tag : Tag} {n : Nat} {v : Value} {bodyLines : List Line}
    (hv : Sound d name tag v.code) (hcarries : v.operand.carries .bool)
    (hbody : Sound d name tag bodyLines) : Sound d name tag (loopLines n v bodyLines) := by
  have hhead : Sound d name tag [.label ⟨.loopCondition, n⟩] :=
    sound_of_forall (by simp [Line.isConsistent])
  have htest : Sound d name tag
      [.branch v.operand ⟨.loopBody, n⟩, .jump ⟨.loopEnd, n⟩, .label ⟨.loopBody, n⟩] :=
    sound_of_forall (by simp [Line.isConsistent, hcarries])
  have hend : Sound d name tag [.jump ⟨.loopCondition, n⟩, .label ⟨.loopEnd, n⟩] :=
    sound_of_forall (by simp [Line.isConsistent])
  exact (((hhead.append hv).append htest).append hbody).append hend

/-- Statements that are lowered to consistent lines one by one are so as a
row. -/
theorem lowersBlock_of_each {ts : List Tree} (h : ∀ u ∈ ts, LowersStatement d name result u)
    (c : Counters) :
    ∃ ls c', (lowerBlock d (some name) result ts).run c = .ok (ls, c') ∧
      Sound d name (Tag.ofTy result) ls := by
  induction ts generalizing c with
  | nil => exact ⟨[], c, by rw [lowerBlock]; rfl, sound_nil⟩
  | cons u rest ih =>
    obtain ⟨ls, c₁, hrun, hsound⟩ := h u (List.mem_cons_self ..) c
    obtain ⟨ls', c', hrun', hsound'⟩ := ih (fun v hv => h v (List.mem_cons_of_mem _ hv)) c₁
    refine ⟨ls ++ ls', c', ?_, hsound.append hsound'⟩
    rw [lowerBlock, run_bind_ok hrun, run_bind_ok hrun']
    rfl

/-- A well-typed statement is lowered to consistent lines. -/
theorem lowersStatement_of_wellTyped (hd : d.ClearNames)
    (h : WellTypedStatement d (some name) result t) : LowersStatement d name result t := by
  -- on the typing; the conditions take a label before they are lowered
  induction h with
  | assignment hk hcs hb hvalue hsuits =>
    exact lowersStatement_assignment hd hk hcs hb hvalue hsuits
  | elementAssignment hk hcs hb helement hindex hi hvalue hsuits =>
    exact lowersStatement_elementAssignment hd hk hcs hb helement hindex hi hvalue hsuits
  | expressionStmt hk hcs he hvalue => exact lowersStatement_expressionStmt hd hk hcs he hvalue
  | returnNothing hk hcs hresult => exact lowersStatement_returnNothing hk hcs hresult
  | returnValue hk hcs hresult hvalue hsuits =>
    exact lowersStatement_returnValue hd hk hcs hresult hvalue hsuits
  | conditional hk hcs hcondition hc _ _ ihthen ihelse =>
    intro c
    obtain ⟨v, c₀, hv, hsound, hcarries⟩ :=
      lowers_condition hd hcondition hc (Tag.ofTy result) ⟨c.temporaries, c.labels + 1⟩
    obtain ⟨thenLines, c₁, hthen, hThen⟩ := ihthen c₀
    obtain ⟨elseLines, c₂, helse, hElse⟩ := ihelse c₁
    refine ⟨_, c₂, run_lowerStatement_conditional hk hcs hv hthen ?_,
      sound_conditionalLines hsound hcarries hThen hElse⟩
    rw [lowerFirst]
    exact helse
  | loop hk hcs hcondition hc _ ihbody =>
    intro c
    obtain ⟨v, c₀, hv, hsound, hcarries⟩ :=
      lowers_condition hd hcondition hc (Tag.ofTy result) ⟨c.temporaries, c.labels + 1⟩
    obtain ⟨bodyLines, c₁, hbody, hBody⟩ := ihbody c₀
    exact ⟨_, c₁, run_lowerStatement_loop hk hcs hv hbody,
      sound_loopLines hsound hcarries hBody⟩
  | block hk _ ih =>
    intro c
    obtain ⟨ls, c', hrun, hsound⟩ := lowersBlock_of_each ih c
    exact ⟨ls, c', by rw [lowerStatement_block hk, hrun], hsound⟩

/-! ### Methods and programs -/

/-- A method whose statements are well typed is lowered to a consistent one. -/
theorem exists_lowerMethod (hd : d.ClearNames) (hname : t.get? "name" = some name)
    (hbody : ∀ u ∈ statements t,
      WellTypedStatement d (some name) ((d.returnType? name).getD .void) u) (c : Counters) :
    ∃ m c', (lowerMethod d t).run c = .ok (m, c') ∧ m.isConsistent d := by
  have htname : t.name = name := by rw [Tree.name, hname, Option.getD_some]
  obtain ⟨ls, c', hrun, hsound⟩ :=
    lowersBlock_of_each (fun u hu => lowersStatement_of_wellTyped hd (hbody u hu)) c
  -- a return is added only to methods that return nothing
  have hadded : Sound d name (Tag.ofTy ((d.returnType? name).getD .void))
      (addedReturn ((d.returnType? name).getD .void) (statements t)) := by
    rw [addedReturn]
    split
    · next hreturns =>
      have hvoid := eq_of_beq (Bool.and_eq_true_iff.mp hreturns).1
      refine sound_of_forall fun l hl m hm => ?_
      rw [List.mem_singleton.mp hl]
      simp [Line.isConsistent, hm, hvoid]
    · exact sound_nil
  refine ⟨_, c', by rw [lowerMethod, htname, hname, run_bind_ok hrun]; rfl, ?_⟩
  exact List.all_eq_true.mpr
    ((hsound.append hadded) _ rfl rfl (List.Subset.refl _))

/-- The places of a kind below a place are lowered from places of their
own. -/
theorem exists_place_of_childrenOf {p : Place} {k : Kind} {u : Tree}
    (hu : u ∈ p.tree.childrenOf k) :
    u.kind = k ∧ Place.mk u p.around ∈ p.children := by
  obtain ⟨hmem, hk⟩ := List.mem_filter.mp hu
  exact ⟨eq_of_beq hk, Place.mem_children_of_mem hmem⟩

/-- The methods of an accepted class are lowered to consistent ones. -/
theorem exists_lowerClass (hd : d.ClearNames) {root : Tree}
    (hroot : Declarations.ofTree root = .ok d) {p : Place} (h : p.Accepted d) (c : Counters) :
    ∃ code c', (lowerClass d p.tree).run c = .ok (code, c') ∧
      ∀ m ∈ code.methods, m.isConsistent d := by
  have hmethods : ∀ u ∈ p.tree.childrenOf .methodDecl, ∀ c, ∃ m c',
      (lowerMethod d u).run c = .ok (m, c') ∧ m.isConsistent d := by
    intro u hu
    obtain ⟨hk, hplace⟩ := exists_place_of_childrenOf hu
    have haccepted := h.child hplace
    have hkey : "name" ∈ u.kind.keys := by
      rw [hk]
      decide
    obtain ⟨x, hx⟩ := Tree.has_of_isFormed haccepted.formed_self hkey
    have hmethod : (Place.mk u p.around).method? = some x := by
      rw [Place.method?_of_methodDecl hk, hx]
    refine exists_lowerMethod hd hx fun v hv => ?_
    obtain ⟨hmem, hstatement⟩ := List.mem_filter.mp hv
    have hinside : (Place.mk v (u :: p.around)).method? = some x := by
      rw [← hmethod]
      exact Place.method?_of_part (p := ⟨u, p.around⟩) hmem (Or.inr hstatement)
    exact Place.Accepted.wellTypedStatement hd hroot v _
      (haccepted.child (Place.mem_children_of_mem (p := ⟨u, p.around⟩) hmem)) hstatement hinside
  obtain ⟨ms, c', hrun, hconsistent⟩ := run_mapM_ok hmethods c
  refine ⟨_, c', by rw [lowerClass, run_bind_ok hrun]; rfl, hconsistent⟩

/-- A grammatical program that the checks report nothing about is lowered, and
the tags in its code agree, as long as it is explicit and its names say which
types they stand for. -/
theorem checked_programs_are_consistent {root : Tree} (hgrammar : root.isGrammatical)
    (hroot : Declarations.ofTree root = .ok d)
    (hclean : d.analyze (.top root) = .ok .empty) (hnames : d.ClearNames)
    (hexplicit : ∀ p ∈ (Place.top root).preorder, p.isExplicit d) :
    ∃ p, Program.ofTree d root = .ok p ∧ p.isConsistent d := by
  obtain ⟨-, hformed⟩ := Bool.and_eq_true_iff.mp hgrammar
  have haccepted : (Place.top root).Accepted d :=
    ⟨fun q hq => List.all_eq_true.mp hformed _ (Place.tree_mem_preorder hq),
      Declarations.check_eq_pure hclean, hexplicit⟩
  have hclasses : ∀ u ∈ root.childrenOf .classDecl, ∀ c, ∃ code c',
      (lowerClass d u).run c = .ok (code, c') ∧ ∀ m ∈ code.methods, m.isConsistent d := by
    intro u hu c
    obtain ⟨-, hplace⟩ := exists_place_of_childrenOf (p := .top root) hu
    exact exists_lowerClass hnames hroot (haccepted.child hplace) c
  obtain ⟨codes, c', hrun, hconsistent⟩ := run_mapM_ok hclasses ⟨0, 0⟩
  refine ⟨⟨d.imports, codes⟩, ?_, ?_⟩
  · have hprogram : (lowerProgram d root).run ⟨0, 0⟩ = .ok (⟨d.imports, codes⟩, c') := by
      rw [lowerProgram, run_bind_ok hrun]
      rfl
    rw [Program.ofTree, StateT.run']
    rw [StateT.run] at hprogram
    rw [hprogram]
    rfl
  · exact List.all_eq_true.mpr fun code hcode => List.all_eq_true.mpr (hconsistent code hcode)

/-! ### A program that is taken apart no further than it is known

    class Sum extends Base {               // Console is imported
      int[] scaled;
      int total(int n, int... xs) {
        int i;
        Console c;
        i = 0;
        while (i < xs.length) { scaled[i] = xs[i] * n; i = i + 1; }
        c = new Console();
        c.print(this.total(i, 1, 2), scaled);
        return this.inherited();
      }
    }
-/

def summing : Tree :=
  let int := (Form.typeName "int" false false).tree
  let name (x : String) := (Form.identifier x).tree
  let number (n : Int) := (Form.integer n).tree
  let loop := (Form.loop
    (Form.logical "<" (name "i") (Form.length (name "xs")).tree).tree
    (Form.block
      [(Form.elementAssignment "scaled" (name "i") (Form.arithmetic "*"
          (Form.elementRead (name "xs") (name "i")).tree (name "n")).tree).tree,
        (Form.assignment "i" (Form.arithmetic "+" (name "i") (number 1)).tree).tree]).tree).tree
  let total := (Form.methodDecl "total" int false
    [(Form.parameter "n" int).tree,
      (Form.parameter "xs" (Form.typeName "int" false true).tree).tree,
      (Form.variableDecl "i" int).tree,
      (Form.variableDecl "c" (Form.typeName "Console" false false).tree).tree,
      (Form.assignment "i" (number 0)).tree,
      loop,
      (Form.assignment "c" (Form.newObject "Console").tree).tree,
      (Form.expressionStmt (Form.call "print" (name "c")
        [(Form.call "total" Form.self.tree [name "i", number 1, number 2]).tree,
          name "scaled"]).tree).tree,
      (Form.returnStmt (some (Form.call "inherited" Form.self.tree []).tree)).tree]).tree
  (Form.program [(Form.importDecl "tools.Console").tree,
    (Form.classDecl "Sum" (some "Base")
      [(Form.variableDecl "scaled" (Form.typeName "int" true false).tree).tree, total]).tree]).tree

def summingDeclarations : Declarations :=
  ⟨"Sum", some "Base", ["tools.Console"], [⟨"scaled", .intArray⟩],
    [⟨"total", .int, [⟨"n", .int⟩, ⟨"xs", .intVarargs⟩],
      [⟨"i", .int⟩, ⟨"c", .scalar "Console"⟩], false⟩]⟩

theorem clearNames_summing : summingDeclarations.ClearNames where
  notReserved := by decide
  notImported := by decide
  notVoid := by decide

theorem summing_is_consistent :
    summing.isGrammatical ∧ Declarations.ofTree summing = .ok summingDeclarations ∧
    summingDeclarations.analyze (.top summing) = .ok .empty ∧ summingDeclarations.ClearNames ∧
    (∀ p ∈ (Place.top summing).preorder, p.isExplicit summingDeclarations) ∧
    ∃ p, Program.ofTree summingDeclarations summing = .ok p ∧
      p.isConsistent summingDeclarations := by
  have hgrammar : summing.isGrammatical := by decide
  have hroot : Declarations.ofTree summing = .ok summingDeclarations := rfl
  have hclean : summingDeclarations.analyze (.top summing) = .ok .empty := rfl
  have hexplicit : ∀ p ∈ (Place.top summing).preorder, p.isExplicit summingDeclarations := by
    decide
  exact ⟨hgrammar, hroot, hclean, clearNames_summing, hexplicit,
    checked_programs_are_consistent hgrammar hroot hclean clearNames_summing hexplicit⟩

/-! ### A program that is taken apart further than it is known

    class Box extends Base {
      int size() { return this.content().length; }
    }
-/

def boxed : Tree :=
  let content := (Form.call "content" Form.self.tree []).tree
  let size := (Form.methodDecl "size" (Form.typeName "int" false false).tree false
    [(Form.returnStmt (some (Form.length content).tree)).tree]).tree
  (Form.program [(Form.classDecl "Box" (some "Base") [size]).tree]).tree

def boxedDeclarations : Declarations :=
  ⟨"Box", some "Base", [], [], [⟨"size", .int, [], [], false⟩]⟩

/-- Not every program that passes the checks becomes consistent code: what an
inherited method returns is taken for a number where its length is asked
for. -/
theorem checked_program_inconsistent :
    ¬ ∀ (root : Tree) (d : Declarations) (p : Program), root.isGrammatical →
      Declarations.ofTree root = .ok d → d.analyze (.top root) = .ok .empty →
      Program.ofTree d root = .ok p → p.isConsistent d := by
  intro h
  obtain ⟨p, hp⟩ : ∃ p, Program.ofTree boxedDeclarations boxed = .ok p := ⟨_, rfl⟩
  have hgrammar : boxed.isGrammatical := by decide
  have hconsistent := h boxed boxedDeclarations p hgrammar rfl rfl hp
  obtain rfl : _ = p := Except.ok.inj hp
  revert hconsistent
  decide

end JavaMinus.ThreeAddress
