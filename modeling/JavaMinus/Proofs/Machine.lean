/-
JavaMinus/Proofs/Machine.lean

What the machines of this library have in common.

A machine is a step function `σ → Option σ` over code that is a list, and a
position in the code is an index.  Two things are needed for both kinds of
code that the library produces:

* `CodeAt`: a piece of code stands at a position inside a longer one;
* `eval_strong_induction`: a run that comes to an end can be used for an
  induction in which everything that lies later on the run may be assumed.

Labels are found by position.  A label that stands only once in the code is
found where it stands (`findIdx?_eq_some_of_unique`).
-/
import Mathlib.Computability.StateTransition

namespace JavaMinus.Machine

open StateTransition

/-! ### Pieces of code -/

variable {α : Type}

/-- The piece stands in the code from position `pc` on. -/
def CodeAt (code : List α) (pc : Nat) (piece : List α) : Prop :=
  ∀ i < piece.length, code[pc + i]? = piece[i]?

theorem codeAt_self (code : List α) : CodeAt code 0 code := by
  intro i _
  rw [Nat.zero_add]

theorem CodeAt.left {code a b : List α} {pc : Nat} (h : CodeAt code pc (a ++ b)) :
    CodeAt code pc a := by
  intro i hi
  rw [h i (by rw [List.length_append]; omega), List.getElem?_append_left hi]

theorem CodeAt.right {code a b : List α} {pc : Nat} (h : CodeAt code pc (a ++ b)) :
    CodeAt code (pc + a.length) b := by
  intro i hi
  have := h (a.length + i) (by rw [List.length_append]; omega)
  rw [Nat.add_assoc, this, List.getElem?_append_right (Nat.le_add_right _ _),
    Nat.add_sub_cancel_left]

theorem CodeAt.append {code a b : List α} {pc : Nat} (ha : CodeAt code pc a)
    (hb : CodeAt code (pc + a.length) b) : CodeAt code pc (a ++ b) := by
  intro i hi
  rcases Nat.lt_or_ge i a.length with hlt | hge
  · rw [ha i hlt, List.getElem?_append_left hlt]
  · obtain ⟨j, rfl⟩ := Nat.exists_eq_add_of_le hge
    rw [List.length_append] at hi
    rw [← Nat.add_assoc, hb j (by omega), List.getElem?_append_right (Nat.le_add_right ..),
      Nat.add_sub_cancel_left]

theorem CodeAt.head {code piece : List α} {pc : Nat} {i : α}
    (h : CodeAt code pc (i :: piece)) : code[pc]? = some i := by
  have := h 0 (by simp)
  simpa using this

theorem CodeAt.tail {code piece : List α} {pc : Nat} {i : α}
    (h : CodeAt code pc (i :: piece)) : CodeAt code (pc + 1) piece := by
  have : CodeAt code pc ([i] ++ piece) := h
  exact this.right

/-- A beginning of the code stands at its beginning. -/
theorem codeAt_take (code : List α) (k : Nat) : CodeAt code 0 (code.take k) := by
  intro i hi
  rw [Nat.zero_add, List.getElem?_take_of_lt (by rw [List.length_take] at hi; omega)]

theorem CodeAt.take_eq {code piece : List α} (h : CodeAt code 0 piece) :
    code.take piece.length = piece := by
  apply List.ext_getElem?
  intro i
  rcases Nat.lt_or_ge i piece.length with hlt | hge
  · rw [List.getElem?_take_of_lt hlt, ← h i hlt, Nat.zero_add]
  · rw [List.getElem?_eq_none hge, List.getElem?_take_eq_none hge]

/-- An entry that meets a condition which no other position meets is found
where it stands. -/
theorem findIdx?_eq_some_of_unique {code : List α} {p : α → Bool} {pc : Nat} {x : α}
    (hx : code[pc]? = some x) (hp : p x)
    (hunique : ∀ i y, code[i]? = some y → p y → i = pc) :
    code.findIdx? p = some pc := by
  obtain ⟨hlt, rfl⟩ := List.getElem?_eq_some_iff.mp hx
  rw [List.findIdx?_eq_some_iff_getElem]
  refine ⟨hlt, hp, ?_⟩
  intro j hj
  have hj' : j < code.length := hj.trans hlt
  intro hpj
  have := hunique j code[j] (List.getElem?_eq_getElem hj') hpj
  omega

/-- What a part of the entries is marked with marks no entry twice, if it has
no repetitions. -/
theorem eq_of_nodup_filterMap {β : Type} {code : List α} {f : α → Option β}
    (h : (code.filterMap f).Nodup) {i j : Nat} {a b : α} {x : β} (hi : code[i]? = some a)
    (hj : code[j]? = some b) (ha : f a = some x) (hb : f b = some x) : i = j := by
  rw [List.Nodup, List.pairwise_filterMap, List.pairwise_iff_getElem] at h
  obtain ⟨hilt, rfl⟩ := List.getElem?_eq_some_iff.mp hi
  obtain ⟨hjlt, rfl⟩ := List.getElem?_eq_some_iff.mp hj
  rcases Nat.lt_trichotomy i j with hij | rfl | hji
  · exact absurd rfl (h i j hilt hjlt hij x ha x hb)
  · rfl
  · exact absurd rfl (h j i hjlt hilt hji x hb x ha)

/-! ### Runs -/

variable {σ : Type} {f : σ → Option σ}

/-- A step is a run. -/
theorem reaches_of_step {a b : σ} (h : f a = some b) : Reaches f a b :=
  Relation.ReflTransGen.single (Option.mem_def.mpr h)

theorem reaches₁_of_step {a b c : σ} (h : f a = some b) (hbc : Reaches f b c) :
    Reaches₁ f a c :=
  Relation.TransGen.head' (Option.mem_def.mpr h) hbc

theorem reaches₁_of_reaches {a b c : σ} (hab : Reaches f a b) (h : f b = some c) :
    Reaches₁ f a c :=
  Relation.TransGen.tail' hab (Option.mem_def.mpr h)

/-- Induction along a run that ends: what holds at a state as soon as it holds
at all later ones, holds at the start. -/
theorem eval_strong_induction {b : σ} {C : σ → Prop} {a : σ} (h : b ∈ eval f a)
    (H : ∀ a, b ∈ eval f a → (∀ a', Reaches₁ f a a' → C a') → C a) : C a := by
  suffices ∀ a', Reaches f a a' → C a' from this a Relation.ReflTransGen.refl
  refine evalInduction h ?_
  intro a h ih
  -- everything after the first step is covered by the weaker hypothesis
  have later : ∀ a', Reaches₁ f a a' → C a' := by
    intro a' ha'
    obtain ⟨c, hac, hca'⟩ := Relation.TransGen.head'_iff.mp ha'
    exact ih c (Option.mem_def.mp hac) a' hca'
  intro a' ha'
  rcases Relation.reflTransGen_iff_eq_or_transGen.mp ha' with rfl | ha'
  · exact H _ h later
  · exact later a' ha'

end JavaMinus.Machine
