/-
JavaMinus/Proofs/Sinks.lean

The analysis of a program only appends.

The check of a node is handed what was reported before it and may do anything with it;
that it appends to it is shown check by check (`Place.appends_inspect`).  So what the
analysis of a program adds to a sink are the findings at its nodes one after another,
up to the first node whose check ends in a fault (`Declarations.added`).  It is the
same for every sink, and each diagnostic in it is about a node of the program
(`analysis_only_appends`).
-/
import JavaMinus.Proofs.Bodies
import JavaMinus.Proofs.Findings

namespace JavaMinus

/-! ### Up to the first fault -/

namespace Review

variable {α : Type}

/-- The entries of a list up to the first one whose review ends in a fault, which is
the last that is looked at. -/
def reached (f : α → Review Unit) : List α → List α
  | [] => []
  | x :: rest =>
    match (f x).outcome with
    | .error _ => [x]
    | .ok _ => x :: reached f rest

theorem mem_of_mem_reached {f : α → Review Unit} {xs : List α} {x : α} (h : x ∈ reached f xs) :
    x ∈ xs := by
  induction xs with
  | nil => nomatch h
  | cons y rest ih =>
    rw [reached] at h
    split at h
    · exact List.mem_cons.mpr (Or.inl (List.mem_singleton.mp h))
    · rcases List.mem_cons.mp h with rfl | h
      · exact List.mem_cons_self ..
      · exact List.mem_cons_of_mem _ (ih h)

/-- A sequence of reviews finds what is found up to the first fault. -/
theorem findings_forM_eq (f : α → Review Unit) (xs : List α) :
    (xs.forM f).findings = (reached f xs).flatMap fun x => (f x).findings := by
  induction xs with
  | nil => rfl
  | cons x rest ih =>
    show (f x >>= fun _ => rest.forM f).findings = _
    rw [findings_bind, reached]
    rcases (f x).outcome with fault | a
    · rw [List.append_nil, List.flatMap_singleton]
    · rw [List.flatMap_cons, ih]

end Review

/-! ### The analysis of a program -/

namespace Declarations

/-- What the analysis of a program adds to a sink. -/
def added (d : Declarations) (root : Place) : List Diagnostic :=
  ((Review.reached (Place.check d) root.preorder).flatMap fun p => (p.check d).findings).map
    (·.diagnostic)

variable {d : Declarations} {root : Place}

theorem map_diagnostic_review :
    (root.review d).findings.map (·.diagnostic) = d.added root := by
  rw [added, ← Review.findings_forM_eq, Place.review_eq]

/-- Each diagnostic is about a node of the program. -/
theorem position_of_mem_added {x : Diagnostic} (hx : x ∈ d.added root) :
    ∃ q ∈ root.preorder, x.position = q.tree.position := by
  obtain ⟨f, hf, rfl⟩ := List.mem_map.mp hx
  obtain ⟨p, hp, hf⟩ := List.mem_flatMap.mp hf
  obtain ⟨q, hq, problem, -, rfl⟩ := Place.finds_check d p f hf
  refine ⟨q, ?_, rfl⟩
  have hp := Review.mem_of_mem_reached hp
  rcases List.mem_cons.mp hq with rfl | hq
  · exact hp
  · have hq := Place.mem_preorder_of_child hq (Place.mem_preorder_self q)
    exact Place.mem_preorder_trans hq root.tree root.above hp

/-- The check of each node leaves the sink that it is handed in front, and adds the same
and ends in the same way whatever is in the sink.  So does the analysis of a program:
what is put behind what was reported before, and the way in which the analysis ends, are
the same whatever it is, also if a fault ends it.  That is what the analysis reports on
its own, unless a fault ends it, and each message is about a node of the program. -/
theorem analysis_only_appends (d : Declarations) (root : Place) :
    (∀ (p : Place) (sink : Sink),
      p.inspect d sink = (sink ++ (p.check d).findings.map .found, (p.check d).outcome)) ∧
      (∃ outcome : Except Fault Unit,
        (∀ seed, d.analyzeInto root seed = (seed ++ ⟨d.added root⟩, outcome)) ∧
        (∀ ds, d.analyze root = .ok ds ↔ outcome = .ok () ∧ ds = ⟨d.added root⟩) ∧
        ∀ fault, d.analyze root = .error fault ↔ outcome = .error fault) ∧
      ∀ x ∈ d.added root, x.stage = .semantic ∧ x.severity = .error ∧
        ∃ q ∈ root.preorder, x.position = q.tree.position := by
  refine ⟨fun p => (p.appends_inspect d).apply_eq, ⟨(root.review d).outcome, ?_, ?_, ?_⟩,
    fun x hx => ?_⟩
  · intro seed
    rw [analyzeInto_eq, map_diagnostic_review]
  · intro ds
    rw [analyze_eq, map_diagnostic_review]
    cases (root.review d).outcome with
    | error fault => simp [Except.map]
    | ok _ => simp [Except.map, eq_comm]
  · intro fault
    rw [analyze_eq]
    cases (root.review d).outcome <;> simp [Except.map]
  · have hposition := position_of_mem_added hx
    obtain ⟨f, -, rfl⟩ := List.mem_map.mp hx
    exact ⟨rfl, rfl, hposition⟩

/-- What was found before a fault stays reported, behind an earlier message: `n = 1;
return 1 % 2;` in a class without a variable `n`. -/
example :
    let value := (Form.arithmetic "%" (Form.integer 1).tree (Form.integer 2).tree).tree
    let body := (Form.block [(Form.assignment "n" (Form.integer 1).tree).tree,
      (Form.returnStmt (some value)).tree]).tree
    let earlier := Diagnostic.error value.position "Missing semicolon"
    (⟨"Halt", none, [], [], []⟩ : Declarations).analyzeInto (.top body) ⟨[earlier]⟩ =
      (⟨[earlier, .error value.position "Variable not defined: n"]⟩,
        .error value.unknownOperator) :=
  rfl

end Declarations

end JavaMinus
