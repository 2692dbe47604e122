/-
JavaMinus/Proofs/Computation.lean

Computations that may stop.

Reading declarations, lowering and emission all end in a result or in a fault,
and the latter two keep a state besides.  If a computation does not stop, none
of its parts did: from the result of the whole the results of the parts are
found (`bind_eq_ok`, `run_bind_eq_ok`), and from those of the parts that of the
whole (`run_bind_ok`).
-/
import Mathlib.Data.List.Forall2

namespace JavaMinus

/-! ### Results and faults -/

theorem bind_eq_ok {ε α β : Type} {x : Except ε α} {f : α → Except ε β} {b : β}
    (h : (x >>= f) = .ok b) : ∃ a, x = .ok a ∧ f a = .ok b := by
  cases x with
  | error e => nomatch h
  | ok a => exact ⟨a, rfl, h⟩

theorem map_eq_ok {ε α β : Type} {x : Except ε α} {f : α → β} {b : β}
    (h : x.map f = .ok b) : ∃ a, x = .ok a ∧ f a = b := by
  cases x with
  | error e => nomatch h
  | ok a =>
    injection h with h
    exact ⟨a, rfl, h⟩

/-- If nothing that follows can fail, the whole comes to a result if its beginning
does. -/
theorem exists_bind_ok_iff {ε α β : Type} {x : Except ε α} {f : α → Except ε β}
    (hf : ∀ a, ∃ b, f a = .ok b) : (∃ b, (x >>= f) = .ok b) ↔ ∃ a, x = .ok a := by
  cases x with
  | error e => exact iff_of_false nofun nofun
  | ok a => exact iff_of_true (hf a) ⟨a, rfl⟩

/-- If no element stops the reading, each was read. -/
theorem forall₂_of_mapM_ok {ε α β : Type} {f : α → Except ε β} {xs : List α} {ys : List β}
    (h : xs.mapM f = .ok ys) : List.Forall₂ (fun x y => f x = .ok y) xs ys := by
  induction xs generalizing ys with
  | nil =>
    injection h with h
    subst h
    exact .nil
  | cons x rest ih =>
    rw [List.mapM_cons] at h
    obtain ⟨y, hy, h⟩ := bind_eq_ok h
    obtain ⟨ys', hys', h⟩ := bind_eq_ok h
    injection h with h
    subst h
    exact .cons hy (ih hys')

theorem exists_of_forall₂ {α β : Type} {R : α → β → Prop} {xs : List α} {ys : List β}
    (h : List.Forall₂ R xs ys) {x : α} (hx : x ∈ xs) : ∃ y ∈ ys, R x y := by
  induction h with
  | nil => nomatch hx
  | cons hxy _ ih =>
    rcases List.mem_cons.mp hx with rfl | hx
    · exact ⟨_, List.mem_cons_self .., hxy⟩
    · obtain ⟨y, hy, hR⟩ := ih hx
      exact ⟨y, List.mem_cons_of_mem _ hy, hR⟩

/-- What is related stays so under a weaker relation of the elements. -/
theorem forall₂_imp_mem {α β : Type} {R S : α → β → Prop} {xs : List α} {ys : List β}
    (h : List.Forall₂ R xs ys) (himp : ∀ x ∈ xs, ∀ y ∈ ys, R x y → S x y) :
    List.Forall₂ S xs ys := by
  obtain ⟨hlength, hzip⟩ := List.forall₂_iff_zip.mp h
  refine List.forall₂_iff_zip.mpr ⟨hlength, fun {x y} hmem => ?_⟩
  obtain ⟨hx, hy⟩ := List.of_mem_zip hmem
  exact himp x hx y hy (hzip hmem)

theorem filterMap_toOption_of_mapM {ε α β : Type} {f : α → Except ε β} {xs : List α}
    {ys : List β} (h : xs.mapM f = .ok ys) : xs.filterMap (fun x => (f x).toOption) = ys := by
  have hall := forall₂_of_mapM_ok h
  clear h
  induction hall with
  | nil => rfl
  | cons hy _ ih => rw [List.filterMap_cons_some (by rw [hy]; rfl), ih]

theorem exists_mapM_ok_iff {ε α β : Type} {f : α → Except ε β} {xs : List α} :
    (∃ ys, xs.mapM f = .ok ys) ↔ ∀ x ∈ xs, ∃ y, f x = .ok y := by
  constructor
  · rintro ⟨ys, h⟩ x hx
    obtain ⟨y, -, hy⟩ := exists_of_forall₂ (forall₂_of_mapM_ok h) hx
    exact ⟨y, hy⟩
  · intro h
    induction xs with
    | nil => exact ⟨[], rfl⟩
    | cons x rest ih =>
      obtain ⟨⟨y, hy⟩, hrest⟩ := List.forall_mem_cons.mp h
      obtain ⟨ys, hys⟩ := ih hrest
      refine ⟨y :: ys, ?_⟩
      rw [List.mapM_cons, hy, hys]
      rfl

theorem mem_iff_of_mapM_ok {ε α β : Type} {f : α → Except ε β} {xs : List α} {ys : List β}
    (h : xs.mapM f = .ok ys) {y : β} : y ∈ ys ↔ ∃ x ∈ xs, f x = .ok y := by
  have hall := forall₂_of_mapM_ok h
  constructor
  · exact exists_of_forall₂ hall.flip
  · rintro ⟨x, hx, hy⟩
    obtain ⟨y', hmem, hy'⟩ := exists_of_forall₂ hall hx
    rwa [Except.ok.inj (hy.symm.trans hy')]

/-! ### Computations with a state -/

section State

variable {σ ε α β : Type} {s s' : σ}

/-- What is done after something that came to a result. -/
theorem run_bind_ok {x : StateT σ (Except ε) α} {f : α → StateT σ (Except ε) β} {a : α}
    (h : x.run s = .ok (a, s')) : (x >>= f).run s = (f a).run s' := by
  rw [StateT.run_bind, h]
  rfl

/-- Something that leaves the state alone and comes to a result. -/
theorem run_lift_ok {x : Except ε α} {a : α} (s : σ) (h : x = .ok a) :
    (liftM x : StateT σ (Except ε) α).run s = .ok (a, s) := by
  rw [h]
  rfl

theorem run_lift_eq_ok {x : Except ε α} {a : α}
    (h : (liftM x : StateT σ (Except ε) α).run s = .ok (a, s')) : x = .ok a ∧ s = s' := by
  cases x with
  | error e => nomatch h
  | ok a =>
    injection h with h
    injection h with ha hs
    exact ⟨by rw [ha], hs⟩

theorem run_pure_eq_ok {a b : α} (h : (pure a : StateT σ (Except ε) α).run s = .ok (b, s')) :
    a = b ∧ s = s' := by
  injection h with h
  injection h with ha hs
  exact ⟨ha, hs⟩

theorem run_pure_pair_eq_ok {a a' : α} {b b' : β}
    (h : (pure (a, b) : StateT σ (Except ε) (α × β)).run s = .ok ((a', b'), s')) :
    a = a' ∧ b = b' ∧ s = s' := by
  obtain ⟨hpair, hs⟩ := run_pure_eq_ok h
  injection hpair with ha hb
  exact ⟨ha, hb, hs⟩

theorem run_bind_eq_ok {x : StateT σ (Except ε) α} {f : α → StateT σ (Except ε) β} {b : β}
    (h : (x >>= f).run s = .ok (b, s')) :
    ∃ a s₁, x.run s = .ok (a, s₁) ∧ (f a).run s₁ = .ok (b, s') := by
  rw [StateT.run_bind] at h
  obtain ⟨⟨a, s₁⟩, hx, h⟩ := bind_eq_ok h
  exact ⟨a, s₁, hx, h⟩

/-- What is done after something that leaves the state alone. -/
theorem run_lift_bind_eq_ok {x : Except ε α} {f : α → StateT σ (Except ε) β} {b : β}
    (h : ((liftM x : StateT σ (Except ε) α) >>= f).run s = .ok (b, s')) :
    ∃ a, x = .ok a ∧ (f a).run s = .ok (b, s') := by
  obtain ⟨a, s₁, hx, h⟩ := run_bind_eq_ok h
  obtain ⟨hx', rfl⟩ := run_lift_eq_ok hx
  exact ⟨a, hx', h⟩

/-- A result for which the state at the end is not asked. -/
theorem run'_ok {x : StateT σ (Except ε) α} {a : α} (h : x.run s = .ok (a, s')) :
    x.run' s = .ok a := by
  rw [StateT.run] at h
  rw [StateT.run', h]
  rfl

theorem run'_eq_ok {x : StateT σ (Except ε) α} {a : α} (h : x.run' s = .ok a) :
    ∃ s', x.run s = .ok (a, s') := by
  obtain ⟨⟨a', s'⟩, hrun, ha⟩ := map_eq_ok h
  exact ⟨s', by rw [StateT.run, hrun, show a' = a from ha]⟩

/-- If all elements came to a result, each did, from some state on. -/
theorem forall₂_of_run_mapM {f : α → StateT σ (Except ε) β} {xs : List α} {ys : List β}
    (h : (xs.mapM f).run s = .ok (ys, s')) :
    List.Forall₂ (fun x y => ∃ s₁ s₂, (f x).run s₁ = .ok (y, s₂)) xs ys := by
  induction xs generalizing ys s s' with
  | nil =>
    obtain ⟨rfl, -⟩ := run_pure_eq_ok h
    exact .nil
  | cons x rest ih =>
    rw [List.mapM_cons] at h
    obtain ⟨y, s₁, hy, h⟩ := run_bind_eq_ok h
    obtain ⟨ys', s₂, hys', h⟩ := run_bind_eq_ok h
    obtain ⟨rfl, -⟩ := run_pure_eq_ok h
    exact .cons ⟨_, _, hy⟩ (ih hys')

/-- What holds of no elements, and of an element in front of others wherever it
holds of these, holds of all elements that came to a result. -/
theorem run_mapM_induction {f : α → StateT σ (Except ε) β} {P : σ → List β → σ → Prop}
    {xs : List α} {ys : List β} (nil : ∀ s, P s [] s)
    (cons : ∀ x ∈ xs, ∀ s s₁ s₂ y ys, (f x).run s = .ok (y, s₁) → P s₁ ys s₂ → P s (y :: ys) s₂)
    (h : (xs.mapM f).run s = .ok (ys, s')) : P s ys s' := by
  induction xs generalizing ys s s' with
  | nil =>
    obtain ⟨rfl, rfl⟩ := run_pure_eq_ok h
    exact nil s
  | cons x rest ih =>
    rw [List.mapM_cons] at h
    obtain ⟨y, s₁, hy, h⟩ := run_bind_eq_ok h
    obtain ⟨ys', s₂, hys', h⟩ := run_bind_eq_ok h
    obtain ⟨rfl, rfl⟩ := run_pure_eq_ok h
    refine cons x (List.mem_cons_self ..) s s₁ _ y ys' hy (ih ?_ hys')
    exact fun x hx => cons x (List.mem_cons_of_mem _ hx)

/-- If each element comes to a result from any state on, all do. -/
theorem run_mapM_ok {f : α → StateT σ (Except ε) β} {P : β → Prop} {xs : List α}
    (h : ∀ x ∈ xs, ∀ s, ∃ y s', (f x).run s = .ok (y, s') ∧ P y) (s : σ) :
    ∃ ys s', (xs.mapM f).run s = .ok (ys, s') ∧ ∀ y ∈ ys, P y := by
  induction xs generalizing s with
  | nil => exact ⟨[], s, rfl, nofun⟩
  | cons x rest ih =>
    obtain ⟨y, s₁, hy, hP⟩ := h x (List.mem_cons_self ..) s
    obtain ⟨ys, s₂, hys, hall⟩ := ih (fun x hx => h x (List.mem_cons_of_mem _ hx)) s₁
    refine ⟨y :: ys, s₂, ?_, ?_⟩
    · rw [List.mapM_cons, run_bind_ok hy, run_bind_ok hys]
      rfl
    · intro z hz
      rcases List.mem_cons.mp hz with rfl | hz
      · exact hP
      · exact hall z hz

end State

end JavaMinus
