/-
JavaMinus/Proofs/Gate.lean

The gate between the checks and the code.

A program whose checks end in an error, or that is turned down because of what they
found, gets no code, and no builder has a say in that.  Behind the gate the first stage
that fails decides: lowering, the builder, which is asked about the lowered text, and
emission (`Generated`).

The question whether a program has findings is asked twice on the way to assembly,
before code is generated and again of what was generated.  Both come to the same:
assembly is given just if nothing was found and no stage failed, and a rejection counts
what was found (`gate_is_exact`).
-/
import JavaMinus.Compiler
import JavaMinus.Proofs.Computation
import JavaMinus.Proofs.Grammar

namespace JavaMinus.Compiler

open JavaMinus.Graph (ClassUnit)

/-- A builder that answers by the text alone. -/
abbrev Builder := String → Id (Except String ClassUnit)

/-- What the stages behind the gate come to: the text of the three-address code and
that of the assembly, or the first error. -/
inductive Generated (config : Config) (build : Builder) (root : Place) (d : Declarations) :
    Except CompileError (String × String) → Prop
  | lowering {e} : lowerText d root = .error e → Generated config build root d (.error e)
  | building {text reason} : lowerText d root = .ok text → build text = .error reason →
      Generated config build root d (.error (.build reason))
  | emission {text unit e} : lowerText d root = .ok text → build text = .ok unit →
      assemblyText config unit = .error e → Generated config build root d (.error e)
  | finished {text unit assembly} : lowerText d root = .ok text → build text = .ok unit →
      assemblyText config unit = .ok assembly →
      Generated config build root d (.ok (text, assembly))

variable {config : Config} {build : Builder} {root : Place} {d : Declarations}
  {found : Diagnostics} {r : Except CompileError (String × String)} {e : CompileError}

/-! ### Errors of the stages -/

theorem mapError_eq_error {α ε ε' : Type} {x : Except ε α} {f : ε → ε'} {e : ε'}
    (h : x.mapError f = .error e) : ∃ cause, f cause = e := by
  cases x with
  | error cause => exact ⟨cause, Except.error.inj h⟩
  | ok a => nomatch h

theorem bind_eq_error {α β ε : Type} {x : Except ε α} {f : α → Except ε β} {e : ε}
    (h : x >>= f = .error e) : x = .error e ∨ ∃ a, x = .ok a ∧ f a = .error e := by
  cases x with
  | error e' =>
    obtain rfl : e' = e := Except.error.inj h
    exact Or.inl rfl
  | ok a => exact Or.inr ⟨a, rfl, h⟩

/-- The checks themselves turn no program down. -/
theorem isRejected_of_analyze (h : analyze root = .error e) : e.isRejected = false := by
  rcases bind_eq_error h with h | ⟨d, -, h⟩
  · obtain ⟨cause, rfl⟩ := mapError_eq_error h
    rfl
  · rcases bind_eq_error h with h | ⟨found, -, h⟩
    · obtain ⟨cause, rfl⟩ := mapError_eq_error h
      rfl
    · nomatch h

/-- No stage behind the gate turns a program down. -/
theorem Generated.isRejected (h : Generated config build root d (.error e)) :
    e.isRejected = false := by
  cases h with
  | building => rfl
  | lowering h | emission _ _ h =>
    obtain ⟨cause, rfl⟩ := mapError_eq_error h
    rfl

/-! ### Code for a program -/

/-- A compilation with both texts. -/
def Compilation.withCode (d : Declarations) (found : Diagnostics) (code : String × String) :
    Compilation :=
  ⟨d, found, some code.1, some code.2⟩

/-- The second text, unless there are findings. -/
def accept (found : Diagnostics) (code : String × String) : Except CompileError String :=
  if found.toList = [] then .ok code.2 else .error (.rejected found.size)

theorem hasErrors_eq_false_iff : found.hasErrors = false ↔ found.toList = [] := by
  rw [Diagnostics.hasErrors_eq_not_isEmpty, Bool.not_eq_false', Diagnostics.isEmpty,
    List.isEmpty_iff]

theorem accepted_withCode (d : Declarations) (found : Diagnostics) (code : String × String) :
    (Compilation.withCode d found code).accepted = accept found code := by
  rw [accept, ← Diagnostics.errorCount_eq_size]
  rcases e : found.hasErrors with - | -
  · rw [if_pos (hasErrors_eq_false_iff.mp e)]
    simp only [Compilation.accepted, Compilation.withCode, Compilation.hasErrors, e]
  · rw [if_neg (fun hnone => by rw [hasErrors_eq_false_iff.mpr hnone] at e; nomatch e)]
    simp only [Compilation.accepted, Compilation.withCode, Compilation.hasErrors, e]

/-- The stages behind the gate always come to something. -/
theorem exists_generated (config : Config) (build : Builder) (root : Place) (d : Declarations) :
    ∃ r, Generated config build root d r := by
  rcases hlower : lowerText d root with e | text
  · exact ⟨_, .lowering hlower⟩
  rcases hbuild : build text with reason | unit
  · exact ⟨_, .building hlower hbuild⟩
  rcases hassembly : assemblyText config unit with e | assembly
  · exact ⟨_, .emission hlower hbuild hassembly⟩
  · exact ⟨_, .finished hlower hbuild hassembly⟩

/-- Behind the gate, the builder's answer decides how it goes on. -/
theorem run_generate {text : String} (h : lowerText d root = .ok text) :
    (generate config build root d found).run =
      match build text with
      | .error reason => .error (.build reason)
      | .ok unit => (assemblyText config unit).map fun assembly =>
          .withCode d found (text, assembly) := by
  rw [generate, h]
  show (match build text with
    | .error reason => _
    | .ok unit => _) = _
  cases build text <;> rfl

theorem Generated.run_generate (h : Generated config build root d r) (found : Diagnostics) :
    (generate config build root d found).run = r.map (.withCode d found) := by
  cases h with
  | lowering hlower =>
    rw [generate, hlower]
    rfl
  | building hlower hbuild =>
    rw [Compiler.run_generate hlower, hbuild]
    rfl
  | emission hlower hbuild hassembly | finished hlower hbuild hassembly =>
    rw [Compiler.run_generate hlower, hbuild]
    simp only [hassembly]
    rfl

/-! ### The three cases -/

theorem run_compileToAssembly (config : Config) (build : Builder) (root : Place) :
    (compileToAssembly config build root).run =
      (compile config build root).run.bind Compilation.accepted := rfl

theorem compile_of_failed (config : Config) (build : Builder) (h : analyze root = .error e) :
    (compile config build root).run = .error e ∧
      (compileToAssembly config build root).run = .error e := by
  have hcompile : (compile config build root).run = .error e := by
    rw [compile, h]
    rfl
  exact ⟨hcompile, by rw [run_compileToAssembly, hcompile]; rfl⟩

theorem compile_of_turnedDown (build : Builder) (h : analyze root = .ok (d, found))
    (hfound : found.toList ≠ []) (hconfig : config.emitOnErrors = false) :
    (compile config build root).run = .ok ⟨d, found, none, none⟩ ∧
      (compileToAssembly config build root).run = .error (.rejected found.size) := by
  have herrors : found.hasErrors = true := by
    rw [← Bool.not_eq_false, hasErrors_eq_false_iff]
    exact hfound
  have hcompile : (compile config build root).run = .ok ⟨d, found, none, none⟩ := by
    rw [compile, h]
    simp only [herrors, hconfig]
    rfl
  refine ⟨hcompile, ?_⟩
  rw [run_compileToAssembly, hcompile, ← Diagnostics.errorCount_eq_size]
  rfl

/-- A class with one method, which returns a number where a truth value is wanted. -/
def untrue : Place :=
  .top (Form.program [(Form.classDecl "Untrue" none
    [(Form.methodDecl "f" (Form.typeName "boolean" false false).tree false
      [(Form.returnStmt (some (Form.integer 1).tree)).tree]).tree]).tree]).tree

example (build : Builder) :
    (compileToAssembly .standard build untrue).run = .error (.rejected 1) := by
  obtain ⟨d, found, h, hsize⟩ : ∃ d found, analyze untrue = .ok (d, found) ∧ found.size = 1 :=
    ⟨_, _, rfl, rfl⟩
  have hfound : found.toList ≠ [] := by
    intro hnone
    rw [Diagnostics.size, hnone] at hsize
    nomatch hsize
  rw [← hsize]
  exact (compile_of_turnedDown build h hfound rfl).2

theorem compile_of_passed (h : analyze root = .ok (d, found))
    (hpassed : found.toList = [] ∨ config.emitOnErrors = true)
    (hr : Generated config build root d r) :
    (compile config build root).run = r.map (.withCode d found) ∧
      (compileToAssembly config build root).run = r.bind (accept found) := by
  have hcompile : (compile config build root).run = r.map (.withCode d found) := by
    rw [← hr.run_generate found, compile, h]
    rcases hpassed with hnone | hconfig
    · simp only [hasErrors_eq_false_iff.mpr hnone]
      rfl
    · simp only [hconfig, Bool.not_true, Bool.and_false]
      rfl
  refine ⟨hcompile, ?_⟩
  rw [run_compileToAssembly, hcompile]
  rcases r with e | code
  · rfl
  · exact accepted_withCode d found code

/-- The two cases in which the checks come to an end, and what the gate does in each. -/
theorem turnedDown_or_passed (config : Config) (found : Diagnostics) :
    (found.toList ≠ [] ∧ config.emitOnErrors = false) ∨
      (found.toList = [] ∨ config.emitOnErrors = true) := by
  by_cases hnone : found.toList = []
  · exact .inr (.inl hnone)
  · rcases hconfig : config.emitOnErrors with - | -
    · exact .inl ⟨hnone, rfl⟩
    · exact .inr (.inr rfl)

/-! ### Assembly and rejection -/

theorem accept_eq_ok_iff {code : String × String} {assembly : String} :
    accept found code = .ok assembly ↔ found = .empty ∧ code.2 = assembly := by
  obtain ⟨_ | ⟨first, rest⟩⟩ := found
  · simp [accept, Diagnostics.empty]
  · simp [accept, Diagnostics.empty]

/-- A program is assembled just if nothing was found and no stage failed. -/
theorem compileToAssembly_eq_ok_iff {assembly : String} :
    (compileToAssembly config build root).run = .ok assembly ↔
      ∃ d text, analyze root = .ok (d, .empty) ∧
        Generated config build root d (.ok (text, assembly)) := by
  constructor
  · intro hok
    rcases hanalyze : analyze root with e | ⟨d, found⟩
    · rw [(compile_of_failed config build hanalyze).2] at hok
      nomatch hok
    rcases turnedDown_or_passed config found with ⟨hfound, hconfig⟩ | hpassed
    · rw [(compile_of_turnedDown build hanalyze hfound hconfig).2] at hok
      nomatch hok
    obtain ⟨r, hr⟩ := exists_generated config build root d
    rw [(compile_of_passed hanalyze hpassed hr).2] at hok
    obtain ⟨⟨text, _⟩, rfl, haccept⟩ := bind_eq_ok hok
    -- code that was wanted in spite of findings is not accepted
    obtain ⟨rfl, rfl⟩ := accept_eq_ok_iff.mp haccept
    exact ⟨d, text, rfl, hr⟩
  · rintro ⟨d, text, hanalyze, hgenerated⟩
    rw [(compile_of_passed hanalyze (.inl rfl) hgenerated).2]
    exact accept_eq_ok_iff.mpr ⟨rfl, rfl⟩

/-- What is handed on is rejected for what was found, if it is. -/
theorem accept_eq_rejected {code : String × String} {n : Nat}
    (h : accept found code = .error (.rejected n)) : n = found.size ∧ found.toList ≠ [] := by
  rw [accept] at h
  split at h
  · nomatch h
  · obtain rfl : found.size = n := by simpa using h
    exact ⟨rfl, ‹_›⟩

/-- A program is turned down only for what was found in it. -/
theorem exists_found_of_rejected {n : Nat}
    (h : (compileToAssembly config build root).run = .error (.rejected n)) :
    ∃ d found, analyze root = .ok (d, found) ∧ n = found.size ∧ found.toList ≠ [] := by
  rcases hanalyze : analyze root with e | ⟨d, found⟩
  · rw [(compile_of_failed config build hanalyze).2] at h
    obtain rfl : e = .rejected n := Except.error.inj h
    nomatch isRejected_of_analyze hanalyze
  refine ⟨d, found, rfl, ?_⟩
  rcases turnedDown_or_passed config found with ⟨hfound, hconfig⟩ | hpassed
  · rw [(compile_of_turnedDown build hanalyze hfound hconfig).2] at h
    exact ⟨by simpa using h.symm, hfound⟩
  obtain ⟨r, hr⟩ := exists_generated config build root d
  rw [(compile_of_passed hanalyze hpassed hr).2] at h
  -- if a stage failed, its error is another one
  rcases bind_eq_error h with rfl | ⟨code, rfl, haccept⟩
  · nomatch hr.isRejected
  · exact accept_eq_rejected haccept

/-- The first way in, which gives what was found along with the code, turns no program
down. -/
theorem compile_ne_rejected (config : Config) (build : Builder) (root : Place) (n : Nat) :
    (compile config build root).run ≠ .error (.rejected n) := by
  intro h
  rcases hanalyze : analyze root with e | ⟨d, found⟩
  · rw [(compile_of_failed config build hanalyze).1] at h
    obtain rfl : e = .rejected n := Except.error.inj h
    nomatch isRejected_of_analyze hanalyze
  rcases turnedDown_or_passed config found with ⟨hfound, hconfig⟩ | hpassed
  · rw [(compile_of_turnedDown build hanalyze hfound hconfig).1] at h
    nomatch h
  obtain ⟨r, hr⟩ := exists_generated config build root d
  rw [(compile_of_passed hanalyze hpassed hr).1] at h
  rcases r with e | code
  · obtain rfl : e = .rejected n := Except.error.inj h
    nomatch hr.isRejected
  · nomatch h

/-- Both ways through the compiler, for every builder.  An error of the checks is handed
on; findings turn the program down, unless code is wanted in spite of them; otherwise the
stages decide.  Assembly is given just for a program without findings that passes all the
stages, and a rejection counts the findings, of which there is one at least. -/
theorem gate_is_exact (config : Config) (root : Place) :
    (∀ e, analyze root = .error e → ∀ build : Builder,
      (compile config build root).run = .error e ∧
        (compileToAssembly config build root).run = .error e) ∧
    (∀ d found, analyze root = .ok (d, found) → found.toList ≠ [] →
      config.emitOnErrors = false → ∀ build : Builder,
        (compile config build root).run = .ok ⟨d, found, none, none⟩ ∧
          (compileToAssembly config build root).run = .error (.rejected found.size)) ∧
    (∀ d found, analyze root = .ok (d, found) →
      (found.toList = [] ∨ config.emitOnErrors = true) → ∀ build : Builder,
        (∃ r, Generated config build root d r) ∧
          ∀ r, Generated config build root d r →
            (compile config build root).run = r.map (.withCode d found) ∧
              (compileToAssembly config build root).run = r.bind (accept found)) ∧
    (∀ (build : Builder) assembly,
      (compileToAssembly config build root).run = .ok assembly ↔
        ∃ d text, analyze root = .ok (d, .empty) ∧
          Generated config build root d (.ok (text, assembly))) ∧
    (∀ (build : Builder) n,
      (compile config build root).run ≠ .error (.rejected n) ∧
        ((compileToAssembly config build root).run = .error (.rejected n) →
          1 ≤ n ∧ ∃ d found, analyze root = .ok (d, found) ∧ n = found.size)) := by
  refine ⟨fun e h build => compile_of_failed config build h,
    fun d found h hfound hconfig build => compile_of_turnedDown build h hfound hconfig,
    fun d found h hpassed build =>
      ⟨exists_generated config build root d, fun r hr => compile_of_passed h hpassed hr⟩,
    fun build assembly => compileToAssembly_eq_ok_iff,
    fun build n => ⟨compile_ne_rejected config build root n, fun h => ?_⟩⟩
  obtain ⟨d, found, hanalyze, rfl, hfound⟩ := exists_found_of_rejected h
  exact ⟨List.length_pos_of_ne_nil hfound, d, found, hanalyze, rfl⟩

end JavaMinus.Compiler
