/-
JavaMinus/Proofs/ThreeAddress/Capture.lean

Temporaries and variables of one name.

In the written code a temporary is the letter `t` with a number behind it, and
a program may give its variables such names as well.  The numbers that a method
gets run on from the methods in front of it, so which names its temporaries have
depends on how many the other methods took (`mem_temporaryNames_iff`).  A
variable that has one of these names is overwritten, and the checks say nothing
about it (`checked_variable_captured`).
-/
import JavaMinus.Compiler
import JavaMinus.Proofs.ThreeAddress.Temporaries

namespace JavaMinus.ThreeAddress

variable {d : Declarations} {root : Tree} {p : Program}

/-- The names that the temporaries have which the lines of a method set. -/
def Method.temporaryNames (m : Method) : List String :=
  (definitions m.body).map fun n => (Cell.temporary n).text

theorem Defines.length {lo hi : Nat} {ls : List Line} (h : Defines lo hi ls) :
    (definitions ls).length = hi - lo := by
  rw [h.perm.length_eq, List.length_range']

theorem Defines.mem_iff {lo hi : Nat} {ls : List Line} (h : Defines lo hi ls) {k : Nat} :
    k ∈ definitions ls ↔ lo ≤ k ∧ k < hi := by
  have hle := h.le
  rw [h.perm.mem_iff, List.mem_range'_1]
  omega

/-- The lines of a method set a temporary of the given name just if it is `t`
with a number behind it that is at least the number of temporaries that the
methods in front of it set, and less than that number with those of the method
itself. -/
theorem mem_temporaryNames_iff (h : Program.ofTree d root = .ok p) {before after : List Method}
    {m : Method} (hm : p.methods = before ++ m :: after) (x : String) :
    x ∈ m.temporaryNames ↔ ∃ k, x = (Cell.temporary k).text ∧
      (definitions (bodies before)).length ≤ k ∧
      k < (definitions (bodies before)).length + (definitions m.body).length := by
  obtain ⟨n, -, -, hnumbered⟩ := numbered_of_ofTree h
  rw [hm] at hnumbered
  obtain ⟨lo, hi, hbefore, hsettled, -⟩ := hnumbered.split
  have hle := hsettled.defines.le
  have hfirst : (definitions (bodies before)).length = lo := hbefore.defines.length
  have hlast : (definitions (bodies before)).length + (definitions m.body).length = hi := by
    rw [hfirst, hsettled.defines.length]
    omega
  rw [hlast, hfirst, Method.temporaryNames, List.mem_map]
  constructor
  · rintro ⟨k, hk, rfl⟩
    exact ⟨k, rfl, hsettled.defines.mem_iff.mp hk⟩
  · rintro ⟨k, rfl, hk⟩
    exact ⟨k, hsettled.defines.mem_iff.mpr hk, rfl⟩

/-! ### A variable that is overwritten

    class Keep {
      int first(int a, int b) {
        int t0; int x;
        t0 = a;
        x = a + b;        // t0.i32 :=.i32 a.i32 +.i32 b.i32;
        return t0;
      }
    }
-/

def keeping : Tree :=
  let int := (Form.typeName "int" false false).tree
  let name (x : String) := (Form.identifier x).tree
  let first := (Form.methodDecl "first" int false
    [(Form.parameter "a" int).tree, (Form.parameter "b" int).tree,
      (Form.variableDecl "t0" int).tree, (Form.variableDecl "x" int).tree,
      (Form.assignment "t0" (name "a")).tree,
      (Form.assignment "x" (Form.arithmetic "+" (name "a") (name "b")).tree).tree,
      (Form.returnStmt (some (name "t0"))).tree]).tree
  (Form.program [(Form.classDecl "Keep" none [first]).tree]).tree

def keepingDeclarations : Declarations :=
  ⟨"Keep", none, [], [],
    [⟨"first", .int, [⟨"a", .int⟩, ⟨"b", .int⟩], [⟨"t0", .int⟩, ⟨"x", .int⟩], false⟩]⟩

/-- The method of `keeping` sets a temporary of the name `t0`, and one of no
other name. -/
theorem mem_temporaryNames_keeping :
    ∃ p m, Program.ofTree keepingDeclarations keeping = .ok p ∧ p.methods = [m] ∧
      ∀ x, x ∈ m.temporaryNames ↔ x = "t0" := by
  have hcode : (Program.ofTree keepingDeclarations keeping).toOption.map
      (fun p => p.methods.map fun m => definitions m.body) = some [[0]] := by decide +kernel
  rcases hp : Program.ofTree keepingDeclarations keeping with fault | p
  · rw [hp] at hcode
    nomatch hcode
  · rw [hp] at hcode
    obtain ⟨m, hm, hdefinitions⟩ := List.map_eq_singleton_iff.mp (Option.some.inj hcode)
    refine ⟨p, m, rfl, hm, fun x => ?_⟩
    have hnames := mem_temporaryNames_iff hp (show p.methods = [] ++ m :: [] from hm) x
    simp only [hdefinitions, bodies, List.flatMap_nil, definitions_nil, List.length_nil,
      List.length_singleton, Nat.zero_le, true_and] at hnames
    rw [hnames]
    constructor
    · rintro ⟨k, rfl, hk⟩
      rw [Nat.lt_one_iff.mp hk]
      rfl
    · rintro rfl
      exact ⟨0, rfl, by decide⟩

/-- A local variable of a program that passes the checks can have the name of a
temporary that its method sets. -/
theorem checked_variable_captured :
    ¬ ∀ (root : Tree) (d : Declarations) (p : Program), root.isGrammatical →
      Declarations.ofTree root = .ok d → d.analyze (.top root) = .ok .empty →
      Program.ofTree d root = .ok p → ∀ s ∈ d.methods, ∀ v ∈ s.parameters ++ s.locals,
      ∀ m ∈ p.methods, m.name = s.name → v.name ∉ m.temporaryNames := by
  intro h
  have hcode : (Program.ofTree keepingDeclarations keeping).toOption.any
      (fun p => p.methods.any fun m => m.name = "first" ∧ "t0" ∈ m.temporaryNames) := by
    decide +kernel
  rcases hp : Program.ofTree keepingDeclarations keeping with fault | p
  · rw [hp] at hcode
    nomatch hcode
  · rw [hp] at hcode
    obtain ⟨m, hm, hcaptured⟩ := List.any_eq_true.mp hcode
    obtain ⟨hname, hcaptured⟩ := of_decide_eq_true hcaptured
    have hgrammar : keeping.isGrammatical := by decide
    exact h keeping keepingDeclarations p hgrammar rfl rfl hp _ (List.mem_singleton_self _)
      ⟨"t0", .int⟩ (by decide) m hm hname hcaptured

end JavaMinus.ThreeAddress
