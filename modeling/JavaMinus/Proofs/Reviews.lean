/-
JavaMinus/Proofs/Reviews.lean

What is found, and how it ends.

A review says of a check what it finds and how it ends, without the sink that it
reports into.  Reviews are put together as checks are.

A review found nothing and came to a result just if it is the review that only
hands out this result.  So what is known of a clean review is an equation
`x = pure a`, and such an equation for a sequence gives one for each of its
parts (`bind_eq_pure`).
-/
import JavaMinus.Check.Finding
import JavaMinus.Fault

namespace JavaMinus

/-- What was found, and how it ended. -/
structure Review (α : Type) where
  findings : List Finding
  outcome : Except Fault α

namespace Review

variable {α β : Type}

/-- Go on with the value of a review, if it has one. -/
def andThen (x : Review α) (f : α → Review β) : Review β :=
  match x.outcome with
  | .error fault => ⟨x.findings, .error fault⟩
  | .ok a => ⟨x.findings ++ (f a).findings, (f a).outcome⟩

instance : Monad Review where
  pure a := ⟨[], .ok a⟩
  bind := andThen

/-- A computation that may end in a fault and finds nothing. -/
def ofExcept (outcome : Except Fault α) : Review α := ⟨[], outcome⟩

/-- What was found without a chance of a fault. -/
def found (findings : List Finding) : Review Unit := ⟨findings, .ok ()⟩

/-- Find a broken rule at a place. -/
def report (p : Place) (problem : Problem) : Review Unit :=
  found [p.finding problem]

/-- Find a broken rule at a place if a condition holds. -/
def reportIf (condition : Bool) (p : Place) (problem : Problem) : Review Unit :=
  if condition then report p problem else pure ()

@[simp] theorem findings_pure (a : α) : (pure a : Review α).findings = [] := rfl

@[simp] theorem outcome_pure (a : α) : (pure a : Review α).outcome = .ok a := rfl

@[simp] theorem findings_found (fs : List Finding) : (found fs).findings = fs := rfl

@[simp] theorem outcome_found (fs : List Finding) : (found fs).outcome = .ok () := rfl

@[simp] theorem findings_ofExcept (x : Except Fault α) : (ofExcept x).findings = [] := rfl

@[simp] theorem outcome_ofExcept (x : Except Fault α) : (ofExcept x).outcome = x := rfl

theorem findings_bind (x : Review α) (f : α → Review β) :
    (x >>= f).findings =
      x.findings ++ match x.outcome with
        | .error _ => []
        | .ok a => (f a).findings := by
  obtain ⟨fs, _ | a⟩ := x
  · exact (List.append_nil fs).symm
  · rfl

theorem outcome_bind (x : Review α) (f : α → Review β) :
    (x >>= f).outcome = x.outcome >>= fun a => (f a).outcome := by
  obtain ⟨fs, _ | a⟩ := x <;> rfl

theorem ext {x y : Review α} (hfindings : x.findings = y.findings)
    (houtcome : x.outcome = y.outcome) : x = y := by
  obtain ⟨fs, o⟩ := x
  obtain ⟨gs, p⟩ := y
  simp only at hfindings houtcome
  rw [hfindings, houtcome]

theorem bind_assoc (x : Review α) (f : α → Review β) {γ : Type} (g : β → Review γ) :
    (x >>= f) >>= g = x >>= fun a => f a >>= g := by
  obtain ⟨fs, _ | a⟩ := x
  · rfl
  · refine ext ?_ ?_
    · rw [findings_bind, findings_bind, findings_bind, outcome_bind]
      show fs ++ (f a).findings ++ _ = fs ++ ((f a) >>= g).findings
      rw [findings_bind, List.append_assoc]
      rfl
    · rw [outcome_bind, outcome_bind, outcome_bind]
      show ((f a).outcome >>= _) = ((f a) >>= g).outcome
      rw [outcome_bind]

instance : LawfulMonad Review :=
  LawfulMonad.mk' Review (fun x => by
      obtain ⟨fs, _ | a⟩ := x
      · rfl
      · exact ext (List.append_nil fs) rfl)
    (fun _ _ => rfl) fun x f g => bind_assoc x f g

/-! ### Clean reviews -/

/-- A clean sequence is one of clean reviews. -/
theorem bind_eq_pure {x : Review α} {f : α → Review β} {b : β} (h : (x >>= f) = pure b) :
    ∃ a, x = pure a ∧ f a = pure b := by
  have hfindings := congrArg findings h
  have houtcome := congrArg outcome h
  obtain ⟨fs, _ | a⟩ := x
  · cases houtcome
  · obtain ⟨rfl, hrest⟩ := List.append_eq_nil_iff.mp hfindings
    exact ⟨a, rfl, ext hrest houtcome⟩

theorem bind_unit_eq_pure {x : Review Unit} {f : Unit → Review β} {b : β}
    (h : (x >>= f) = pure b) : x = pure () ∧ f () = pure b := by
  obtain ⟨⟨⟩, hx, hf⟩ := bind_eq_pure h
  exact ⟨hx, hf⟩

theorem ofExcept_eq_pure {x : Except Fault α} {a : α} (h : ofExcept x = pure a) : x = .ok a :=
  congrArg outcome h

theorem found_eq_pure {fs : List Finding} (h : found fs = pure ()) : fs = [] :=
  congrArg findings h

theorem report_ne_pure {p : Place} {problem : Problem} : report p problem ≠ pure () := by
  intro h
  cases found_eq_pure h

theorem reportIf_eq_pure {condition : Bool} {p : Place} {problem : Problem}
    (h : reportIf condition p problem = pure ()) : condition = false := by
  cases condition with
  | false => rfl
  | true => exact absurd h report_ne_pure

theorem forM_eq_pure {f : α → Review Unit} {xs : List α} (h : xs.forM f = pure ()) :
    ∀ x ∈ xs, f x = pure () := by
  induction xs with
  | nil =>
    intro x hx
    cases hx
  | cons y rest ih =>
    obtain ⟨hy, hrest⟩ := bind_unit_eq_pure h
    intro x hx
    rcases List.mem_cons.mp hx with rfl | hx
    · exact hy
    · exact ih hrest x hx

theorem found_bind_found_eq_pure_iff {fs gs : List Finding} :
    (found fs >>= fun _ => found gs) = pure () ↔ fs = [] ∧ gs = [] := by
  constructor
  · intro h
    obtain ⟨hfs, hgs⟩ := bind_unit_eq_pure h
    exact ⟨found_eq_pure hfs, found_eq_pure hgs⟩
  · rintro ⟨rfl, rfl⟩
    rfl

end Review

end JavaMinus
