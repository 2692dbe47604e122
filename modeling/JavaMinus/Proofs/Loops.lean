/-
JavaMinus/Proofs/Loops.lean

Loops beside arrays.

A loop is found fault with for an array that is declared beside it and named in it, by
the names on the identifiers in the loop (`Tree.reads`).  An assignment carries the name
of its target itself, so an array that a loop only puts values into is no identifier
there.  The findings are one for each declaration of an array that is read
(`Place.arraysBeside_eq`), and they are all that are made under this rule
(`loops_report_arrays_read`).
-/
import JavaMinus.Proofs.Declarations
import JavaMinus.Proofs.Reports

namespace JavaMinus

/-! ### Names in a tree -/

namespace Tree

/-- Whether a name stands on an identifier inside of a tree. -/
def reads (t : Tree) (x : String) : Bool :=
  t.descendants.any fun u => u.kind == .identifier && u.get? "name" == some x

/-- Whether a variable, or an element of it, is assigned to inside of a tree. -/
def sets (t : Tree) (x : String) : Bool :=
  t.descendants.any fun u =>
    (u.kind == .assignment || u.kind == .elementAssignment) && u.get? "name" == some x

/-- Whether a declaration is that of an array. -/
def declaresArray (t : Tree) : Bool := t.declaredVariable.toOption.any (·.ty.isArray)

end Tree

/-! ### Arrays that a loop names -/

/-- Whether a rule is the one against loops beside arrays. -/
def Problem.isLoopWithArray : Problem → Bool
  | loopWithArray _ => true
  | _ => false

namespace Place

open Review

variable {d : Declarations} {p scope : Place}

theorem contains_usedNames (p : Place) (x : String) : p.usedNames.contains x = p.tree.reads x := by
  rw [Bool.eq_iff_iff, List.contains_iff_mem, usedNames, Tree.reads, List.any_eq_true,
    List.mem_filterMap]
  simp only [List.mem_filter, Bool.and_eq_true, beq_iff_eq, and_assoc]

/-- What is found at a loop is one for each declaration of an array beside it that is
read inside of the loop, in the order of the declarations. -/
theorem arraysBeside_eq (hparent : p.parent? = some scope) :
    p.arraysBeside =
      ((scope.tree.childrenOf .variableDecl).filter fun t =>
        t.declaresArray && p.tree.reads t.name).map fun t => p.finding (.loopWithArray t.name) := by
  rw [arraysBeside, hparent]
  dsimp only
  rw [declaredArrays, List.filter_filter]
  -- on the declarations; one that is not well formed is passed over on both sides
  induction scope.tree.childrenOf .variableDecl with
  | nil => rfl
  | cons t rest ih =>
    rw [List.filterMap_cons, List.filter_cons, Tree.declaresArray]
    rcases e : t.declaredVariable with _ | v
    · exact ih
    · have hname := Tree.name_of_declaredVariable e
      show List.map _ (List.filter _ (v :: _)) =
        List.map _ (if (v.ty.isArray && p.tree.reads t.name) = true then _ else _)
      rw [List.filter_cons, contains_usedNames, Bool.and_comm, hname]
      split
      · rw [List.map_cons, List.map_cons, ih, hname]
      · exact ih

/-- At a declaration of an array the loop is found fault with just if it reads it. -/
theorem mem_arraysBeside_iff (hparent : p.parent? = some scope) {t : Tree}
    (ht : t ∈ scope.tree.childrenOf .variableDecl) (harray : t.declaresArray) :
    p.finding (.loopWithArray t.name) ∈ p.arraysBeside ↔ p.tree.reads t.name := by
  rw [arraysBeside_eq hparent, List.mem_map]
  constructor
  · rintro ⟨u, hu, hsame⟩
    have hname : u.name = t.name := Problem.loopWithArray.inj (congrArg Finding.problem hsame)
    rw [List.mem_filter, Bool.and_eq_true, hname] at hu
    exact hu.2.2
  · intro hreads
    exact ⟨t, List.mem_filter.mpr ⟨ht, by rw [harray, hreads]; rfl⟩, rfl⟩

/-- The check of a loop finds nothing else under this rule. -/
theorem filter_isLoopWithArray_check (hk : p.tree.kind = .loop) (hcheck : (p.check d).Completes) :
    (p.check d).findings.filter (·.problem.isLoopWithArray) = p.arraysBeside := by
  have hcondition : (p.checkCondition d).findings.filter (·.problem.isLoopWithArray) = [] :=
    filter_eq_nil_of_isAbout finds_checkCondition fun problem h => by
      cases problem <;> first | exact Bool.false_ne_true | nomatch h
  have habout : ∀ f ∈ p.arraysBeside, p.IsAbout Problem.isLoopWithArray f := fun f =>
    isAbout_of_arraysBeside fun _ => rfl
  have hall : ∀ f ∈ p.arraysBeside, f.problem.isLoopWithArray := by
    intro f hf
    obtain ⟨q, -, problem, hproblem, rfl⟩ := habout f hf
    exact hproblem
  have hloop : p.check d = p.checkLoop d := by simp only [check_eq, hk]
  rw [hloop, checkLoop_eq] at hcheck ⊢
  obtain ⟨⟨⟩, hok⟩ := hcheck.left
  rw [findings_bind, hok, List.filter_append, hcondition]
  exact List.filter_eq_self.mpr hall

/-- At a loop each array declared beside it is found fault with that is read inside of
the loop, once for each declaration and in the order of the declarations, and by nothing
else that is checked there.  An array that is only assigned to, or whose elements only
are, is passed over: of what is declared beside a loop just those that it sets and does
not read are used there and not reported. -/
theorem loops_report_arrays_read (hk : p.tree.kind = .loop) (hparent : p.parent? = some scope) :
    (p.arraysBeside =
      ((scope.tree.childrenOf .variableDecl).filter fun t =>
        t.declaresArray && p.tree.reads t.name).map fun t =>
          p.finding (.loopWithArray t.name)) ∧
    (∀ t ∈ scope.tree.childrenOf .variableDecl, t.declaresArray →
      (p.finding (.loopWithArray t.name) ∈ p.arraysBeside ↔ p.tree.reads t.name) ∧
      ((p.finding (.loopWithArray t.name) ∈ p.arraysBeside ↔
        p.tree.reads t.name ∨ p.tree.sets t.name) ↔
          (p.tree.sets t.name → p.tree.reads t.name))) ∧
    ∀ d : Declarations, (p.check d).Completes →
      (p.check d).findings.filter (·.problem.isLoopWithArray) = p.arraysBeside := by
  refine ⟨arraysBeside_eq hparent, fun t ht harray => ?_, fun d =>
    filter_isLoopWithArray_check hk⟩
  have hreads := mem_arraysBeside_iff hparent ht harray
  refine ⟨hreads, ?_⟩
  rw [hreads]
  tauto

/-! ### A loop that puts values into an array

    class Tally {
      int count(int n) {
        int[] seen;
        int[] marks;
        while (n < 3) {
          seen[n] = marks.length;
          n = n + 1;
        }
        return n;
      }
    }
-/

/-- The loop with a value for the elements of `seen`. -/
def tallyLoop (value : Tree) : Tree :=
  let n := (Form.identifier "n").tree
  (Form.loop (Form.logical "<" n (Form.integer 3).tree).tree
    (Form.block [(Form.elementAssignment "seen" n value).tree,
      (Form.assignment "n" (Form.arithmetic "+" n (Form.integer 1).tree).tree).tree]).tree).tree

def tallyMethod (value : Tree) : Tree :=
  let int := (Form.typeName "int" false false).tree
  let array := (Form.typeName "int" true false).tree
  (Form.methodDecl "count" int false
    [(Form.parameter "n" int).tree, (Form.variableDecl "seen" array).tree,
      (Form.variableDecl "marks" array).tree, tallyLoop value,
      (Form.returnStmt (some (Form.identifier "n").tree)).tree]).tree

def tallyClass (value : Tree) : Tree := (Form.classDecl "Tally" none [tallyMethod value]).tree

def tally (value : Tree) : Tree := (Form.program [tallyClass value]).tree

def tallyDeclarations : Declarations :=
  ⟨"Tally", none, [], [],
    [⟨"count", .int, [⟨"n", .int⟩], [⟨"seen", .intArray⟩, ⟨"marks", .intArray⟩], false⟩]⟩

def tallyMethodPlace (value : Tree) : Place := ⟨tallyMethod value, [tallyClass value, tally value]⟩

def tallyLoopPlace (value : Tree) : Place := ⟨tallyLoop value, (tallyMethodPlace value).around⟩

def marksLength : Tree := (Form.length (Form.identifier "marks").tree).tree

/-- Of the two arrays the one that is measured is reported. -/
theorem loops_report_arrays_read_tally :
    let p := tallyLoopPlace marksLength
    p.tree.kind = .loop ∧ p.parent? = some (tallyMethodPlace marksLength) ∧
    p.arraysBeside = [p.finding (.loopWithArray "marks")] ∧
    (p.check tallyDeclarations).Completes ∧
    (p.check tallyDeclarations).findings.filter (·.problem.isLoopWithArray) = p.arraysBeside := by
  intro p
  have hparent : p.parent? = some (tallyMethodPlace marksLength) := rfl
  obtain ⟨harrays, -, hcheck⟩ := loops_report_arrays_read rfl hparent
  have hcompletes : (p.check tallyDeclarations).Completes := ⟨(), rfl⟩
  exact ⟨rfl, hparent, harrays, hcompletes, hcheck _ hcompletes⟩

/-- A program passes the checks with a loop that puts values into an array declared
beside it. -/
theorem loop_fills_array :
    ¬ ∀ (root : Tree) (d : Declarations) (p scope : Place) (t : Tree), root.isGrammatical →
      Declarations.ofTree root = .ok d → d.analyze (.top root) = .ok .empty →
      p ∈ (Place.top root).preorder → p.tree.kind = .loop → p.parent? = some scope →
      t ∈ scope.tree.childrenOf .variableDecl → t.declaresArray →
      (p.finding (.loopWithArray t.name) ∈ p.arraysBeside ↔
        p.tree.reads t.name ∨ p.tree.sets t.name) := by
  intro h
  let one : Tree := (Form.integer 1).tree
  let array : Tree := (Form.typeName "int" true false).tree
  have hgrammar : (tally one).isGrammatical := by decide
  have hplace : tallyLoopPlace one ∈ (Place.top (tally one)).preorder :=
    List.mem_of_getElem? (i := 10) rfl
  have hclean : tallyDeclarations.analyze (.top (tally one)) = .ok .empty := by decide +kernel
  have hseen := h _ tallyDeclarations _ (tallyMethodPlace one) (Form.variableDecl "seen" array).tree
    hgrammar rfl hclean hplace rfl rfl (List.mem_of_getElem? (i := 0) rfl) rfl
  have hsets : (tallyLoop one).sets "seen" := by decide
  have hnone : (tallyLoopPlace one).arraysBeside = [] := by decide
  have hreported := hseen.mpr (Or.inr hsets)
  rw [hnone] at hreported
  nomatch hreported

end Place

end JavaMinus
