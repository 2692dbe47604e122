/-
JavaMinus/Proofs/Assembly/Heights.lean

How high the operand stack stands.

Every instruction takes some values from the stack and leaves some there.  On
a path through the lines of a method the height of the stack changes by these
numbers (`Moves`).

Beside the paths there is the order of the text.  Read from the top to the
bottom, lines have heights too (`heightAfter`): every line changes the height
by what it takes and leaves, and a jump by one more.  A jump that always jumps
stands in two places, at height zero, where one less is nothing, or between
the two ways through a comparison, the first of which has just left its value.
So the heights of the text are those of the paths, and it is these that the
count of emission follows.

What is needed of a piece of lines is collected in `Fits`, and pieces that lead
on to what stands behind them (`Flows`) are put together by `Flows.append`.
-/
import JavaMinus.Proofs.Assembly.Layout
import Mathlib.Order.Bounds.Basic

namespace JavaMinus.Assembly

open Machine Relation

/-! ### Paths -/

/-- How many values an instruction takes from the stack. -/
def Instruction.pops : Instruction → Nat
  | push _ | load _ _ | jump _ | newObject _ | returnVoid => 0
  | store _ _ | trueJump _ | pop | dup | newIntArray | arrayLength | getField _
  | returnValue _ => 1
  | elementLoad _ | arithmetic _ | connective _ | compareJump _ _ | putField _ => 2
  | elementStore _ => 3
  | invoke mode method => (if mode = .static then 0 else 1) + method.parameters.length

/-- How many values an instruction leaves on the stack. -/
def Instruction.pushes : Instruction → Nat
  | store _ _ | elementStore _ | compareJump _ _ | trueJump _ | jump _ | pop | putField _
  | returnVoid | returnValue _ => 0
  | push _ | load _ _ | elementLoad _ | arithmetic _ | connective _ | newObject _
  | newIntArray | arrayLength | getField _ => 1
  | dup => 2
  | invoke _ method => if method.result = .void then 0 else 1

/-- Whether the next line may be run behind an instruction. -/
def Instruction.fallsThrough : Instruction → Bool
  | jump _ | returnVoid | returnValue _ => false
  | _ => true

/-- One line is run after another, and the stack stands at these heights in
front of them. -/
inductive Moves (code : List Line) : Nat × Nat → Nat × Nat → Prop
  | label {pc h l} : code[pc]? = some (.label l) → Moves code (pc, h) (pc + 1, h)
  | next {pc h i} : code[pc]? = some (.instruction i) → i.fallsThrough →
      Moves code (pc, h) (pc + 1, h - i.pops + i.pushes)
  | jump {pc h i l q} : code[pc]? = some (.instruction i) → i.target? = some l →
      code[q]? = some (.label l) → Moves code (pc, h) (q, h - i.pops + i.pushes)

/-! ### Heights of a text -/

/-- How many values are taken in a line. -/
def Line.pops : Line → Nat
  | label _ => 0
  | instruction i => i.pops

/-- The height behind a line, in the order of the text. -/
def Line.after (h : Nat) : Line → Nat
  | label _ => h
  | instruction (.jump _) => h - 1
  | instruction i => h - i.pops + i.pushes

/-- The height behind lines that begin at a height. -/
def heightAfter (h : Nat) (ls : List Line) : Nat := ls.foldl Line.after h

/-- The lines with the heights in front of them. -/
def spots : Nat → List Line → List (Line × Nat)
  | _, [] => []
  | h, l :: ls => (l, h) :: spots (l.after h) ls

/-- The greatest height in front of lines or behind them. -/
def peak : Nat → List Line → Nat
  | h, [] => h
  | h, l :: ls => max h (peak (l.after h) ls)

variable {b : Nat} {lines : List Line}

@[simp] theorem heightAfter_nil : heightAfter b [] = b := rfl

@[simp] theorem heightAfter_cons (l : Line) : heightAfter b (l :: lines) =
    heightAfter (l.after b) lines := rfl

@[simp] theorem heightAfter_append (b : Nat) (ls ls' : List Line) :
    heightAfter b (ls ++ ls') = heightAfter (heightAfter b ls) ls' := List.foldl_append

@[simp] theorem spots_append (b : Nat) (ls ls' : List Line) :
    spots b (ls ++ ls') = spots b ls ++ spots (heightAfter b ls) ls' := by
  induction ls generalizing b with
  | nil => rfl
  | cons l rest ih => simp [spots, ih]

theorem le_peak (b : Nat) (ls : List Line) : b ≤ peak b ls := by
  cases ls with
  | nil => exact le_rfl
  | cons => exact Nat.le_max_left ..

theorem heightAfter_le_peak (b : Nat) (ls : List Line) : heightAfter b ls ≤ peak b ls := by
  induction ls generalizing b with
  | nil => exact le_rfl
  | cons l rest ih => exact (ih _).trans (Nat.le_max_right ..)

@[simp] theorem peak_append (b : Nat) (ls ls' : List Line) :
    peak b (ls ++ ls') = max (peak b ls) (peak (heightAfter b ls) ls') := by
  induction ls generalizing b with
  | nil => exact (Nat.max_eq_right (le_peak ..)).symm
  | cons l rest ih => simp [peak, ih, Nat.max_assoc]

/-- The height in front of a line is the one behind all before it. -/
theorem mem_spots {l : Line} {h : Nat} :
    (l, h) ∈ spots b lines ↔ ∃ k, lines[k]? = some l ∧ h = heightAfter b (lines.take k) := by
  induction lines generalizing b with
  | nil => simp [spots]
  | cons x rest ih =>
    rw [spots, List.mem_cons, Prod.mk.injEq, ih]
    constructor
    · rintro (⟨rfl, rfl⟩ | ⟨k, hk, rfl⟩)
      · exact ⟨0, rfl, rfl⟩
      · exact ⟨k + 1, hk, rfl⟩
    · rintro ⟨k, hk, rfl⟩
      cases k with
      | zero =>
        obtain rfl : x = l := Option.some.inj hk
        exact Or.inl ⟨rfl, rfl⟩
      | succ k => exact Or.inr ⟨k, hk, rfl⟩

/-- The greatest height is reached somewhere, and it is the greatest. -/
theorem isGreatest_peak (b : Nat) (ls : List Line) :
    IsGreatest {h | ∃ k ≤ ls.length, h = heightAfter b (ls.take k)} (peak b ls) := by
  induction ls generalizing b with
  | nil =>
    refine ⟨⟨0, le_rfl, rfl⟩, ?_⟩
    rintro h ⟨k, hk, rfl⟩
    simp [peak]
  | cons l rest ih =>
    obtain ⟨⟨k, hk, hpeak⟩, hbound⟩ := ih (l.after b)
    constructor
    · rcases Nat.le_total (peak (l.after b) rest) b with hle | hle
      · exact ⟨0, Nat.zero_le _, Nat.max_eq_left hle⟩
      · exact ⟨k + 1, Nat.succ_le_succ hk, (Nat.max_eq_right hle).trans hpeak⟩
    · rintro h ⟨j, hj, rfl⟩
      cases j with
      | zero => exact Nat.le_max_left ..
      | succ j =>
        exact (hbound ⟨j, Nat.le_of_succ_le_succ hj, rfl⟩).trans (Nat.le_max_right ..)

/-! ### Pieces of lines -/

/-- What is emitted from the one count to the other fits into a method where
the stack has the height `b` in front of it and `e` behind it. -/
structure Fits (p p' : Progress) (b e : Nat) (lines : List Line) : Prop where
  ends : heightAfter b lines = e
  /-- Nothing is taken that is not there. -/
  safe : ∀ s ∈ spots b lines, s.1.pops ≤ s.2
  /-- Jumps lead to labels of the same height, or with an empty stack to
  labels that are not those of comparisons. -/
  lands : ∀ i h l, (.instruction i, h) ∈ spots b lines → i.target? = some l →
    (.label l, h - i.pops) ∈ spots b lines ∨ (Fresh l ∧ h - i.pops = 0)
  /-- At labels that are not those of comparisons the stack is empty. -/
  marks : ∀ l h, (.label l, h) ∈ spots b lines → Fresh l → h = 0
  /-- The count is right, and so is the greatest one, unless the stack grows
  beyond what can be counted. -/
  tracks : p.depth.current = b → b ≤ p.depth.deepest → peak b lines ≤ Depth.limit →
    p'.depth = ⟨e, max p.depth.deepest (peak b lines)⟩

/-- Moreover every line is run on some path from the first. -/
structure Visits (p p' : Progress) (b e : Nat) (lines : List Line) : Prop
    extends Fits p p' b e lines where
  covers : ∀ {code pc}, CodeAt code pc lines → ∀ k < lines.length,
    ReflTransGen (Moves code) (pc, b) (pc + k, heightAfter b (lines.take k))

/-- Moreover a path leads on to what stands behind the lines. -/
structure Flows (p p' : Progress) (b e : Nat) (lines : List Line) : Prop
    extends Visits p p' b e lines where
  passes : ∀ {code pc}, CodeAt code pc lines →
    ReflTransGen (Moves code) (pc, b) (pc + lines.length, e)

section Append

variable {p q r : Progress} {b x e : Nat} {first rest : List Line}

theorem Fits.append (h : Fits p q b x first) (h' : Fits q r x e rest) :
    Fits p r b e (first ++ rest) where
  ends := by rw [heightAfter_append, h.ends, h'.ends]
  safe := by
    intro s hs
    rw [spots_append, h.ends] at hs
    exact (List.mem_append.mp hs).elim (h.safe s) (h'.safe s)
  lands := by
    intro i n l hs hl
    rw [spots_append, h.ends] at hs ⊢
    rcases List.mem_append.mp hs with hs | hs
    · exact (h.lands i n l hs hl).imp_left (List.mem_append_left _)
    · exact (h'.lands i n l hs hl).imp_left (List.mem_append_right _)
  marks := by
    intro l n hs
    rw [spots_append, h.ends] at hs
    exact (List.mem_append.mp hs).elim (h.marks l n) (h'.marks l n)
  tracks := by
    -- the depth behind the first lines is the start of the others
    intro hcurrent hdeepest hpeak
    rw [peak_append, h.ends] at hpeak ⊢
    obtain ⟨hpeak, hpeak'⟩ := Nat.max_le.mp hpeak
    have hq := h.tracks hcurrent hdeepest hpeak
    have hx : x ≤ peak b first := h.ends ▸ heightAfter_le_peak b first
    have hr := h'.tracks (by rw [hq]) (by rw [hq]; exact hx.trans (Nat.le_max_right ..)) hpeak'
    rw [hr, hq, Nat.max_assoc]

theorem Flows.append_visits (h : Flows p q b x first) (h' : Visits q r x e rest) :
    Visits p r b e (first ++ rest) where
  toFits := h.toFits.append h'.toFits
  covers := by
    intro code pc hcode k hk
    rcases Nat.lt_or_ge k first.length with hlt | hge
    · rw [List.take_append_of_le_length hlt.le]
      exact h.covers hcode.left k hlt
    · -- the line stands in the second piece, and paths pass the first one
      obtain ⟨j, rfl⟩ := Nat.exists_eq_add_of_le hge
      have hj : j < rest.length := by
        rw [List.length_append] at hk
        omega
      rw [List.take_length_add_append, heightAfter_append, h.ends, ← Nat.add_assoc]
      exact (h.passes hcode.left).trans (h'.covers hcode.right j hj)

theorem Flows.append (h : Flows p q b x first) (h' : Flows q r x e rest) :
    Flows p r b e (first ++ rest) where
  toVisits := h.append_visits h'.toVisits
  passes := by
    intro code pc hcode
    rw [List.length_append, ← Nat.add_assoc]
    exact (h.passes hcode.left).trans (h'.passes hcode.right)

end Append

/-! ### Single lines -/

/-- In one step from a height to another the count is right. -/
def Tracks (p p' : Progress) (b e : Nat) : Prop :=
  p.depth.current = b → b ≤ p.depth.deepest → max b e ≤ Depth.limit →
    p'.depth = ⟨e, max p.depth.deepest (max b e)⟩

section Single

variable {p p' : Progress} {e : Nat} {i : Instruction}

theorem tracks_grow (n : Nat) : Tracks p (p.grow n) b (b + n) := by
  intro hcurrent hdeepest hlimit
  obtain ⟨⟨current, deepest⟩, comparisons⟩ := p
  obtain rfl : current = b := hcurrent
  have hle : current ≤ deepest := hdeepest
  have hcount : current + n ≤ Depth.limit := (Nat.le_max_right ..).trans hlimit
  simp only [Progress.grow, Depth.grow, Nat.min_eq_left hcount, Depth.mk.injEq, true_and]
  omega

theorem tracks_shrink (n : Nat) : Tracks p (p.shrink n) b (b - n) := by
  intro hcurrent hdeepest _
  obtain ⟨⟨current, deepest⟩, comparisons⟩ := p
  obtain rfl : current = b := hcurrent
  have hle : current ≤ deepest := hdeepest
  simp only [Progress.shrink, Depth.shrink, Depth.mk.injEq, true_and]
  omega

theorem tracks_replace (n k : Nat) :
    Tracks p ((p.shrink n).grow k) b (b - n + k) := by
  intro hcurrent hdeepest hlimit
  have hshrink := tracks_shrink n hcurrent hdeepest ((Nat.max_le.mpr
    ⟨Nat.le_max_left .., (Nat.sub_le ..).trans (Nat.le_max_left ..)⟩).trans hlimit)
  have hgrow := tracks_grow (p := p.shrink n) k (by rw [hshrink]) (by
    rw [hshrink]
    exact (Nat.sub_le ..).trans (hdeepest.trans (Nat.le_max_left ..)))
    ((Nat.max_le.mpr ⟨(Nat.le_add_right ..).trans (Nat.le_max_right ..),
      Nat.le_max_right ..⟩).trans hlimit)
  rw [hgrow, hshrink, Depth.mk.injEq]
  refine ⟨rfl, ?_⟩
  show max (max _ _) _ = _
  omega

/-- Behind an instruction that leads to the next line. -/
theorem after_instruction (h : i.fallsThrough) (n : Nat) :
    (Line.instruction i).after n = n - i.pops + i.pushes := by
  cases i <;> first | rfl | exact Bool.noConfusion h

theorem peak_single {l : Line} (h : l.after b = e) : peak b [l] = max b e := by
  simp [peak, h]

/-- The line is run on the path that begins with it. -/
theorem covers_single {l : Line} {code : List Line} {pc k : Nat} (hk : k < [l].length) :
    ReflTransGen (Moves code) (pc, b) (pc + k, heightAfter b ([l].take k)) := by
  obtain rfl : k = 0 := by simpa using hk
  exact .refl

theorem visits_single (hpops : i.pops ≤ b) (he : (Line.instruction i).after b = e)
    (hlands : ∀ l, i.target? = some l → Fresh l ∧ b - i.pops = 0) (ht : Tracks p p' b e) :
    Visits p p' b e (code [i]) where
  ends := he
  safe := by
    intro s hs
    rw [List.mem_singleton.mp hs]
    exact hpops
  lands := by
    intro j n l hs hl
    obtain ⟨hj, rfl⟩ := Prod.mk.inj (List.mem_singleton.mp hs)
    obtain rfl := Line.instruction.inj hj
    exact Or.inr (hlands l hl)
  marks := by
    intro l n hs
    simp [spots, code] at hs
  covers := fun _ k hk => covers_single hk
  tracks := by
    rw [show code [i] = [.instruction i] from rfl, peak_single he]
    exact ht

theorem flows_single (h : i.fallsThrough) (hpops : i.pops ≤ b)
    (he : e = b - i.pops + i.pushes)
    (hlands : ∀ l, i.target? = some l → Fresh l ∧ b - i.pops = 0) (ht : Tracks p p' b e) :
    Flows p p' b e (code [i]) where
  toVisits := visits_single hpops (by rw [after_instruction h, he]) hlands ht
  passes := by
    intro code pc hcode
    rw [he]
    exact .single (.next hcode.head h)

/-- An instruction that leaves more than it takes. -/
theorem flows_grow {n : Nat} (h : i.fallsThrough) (hnone : i.target? = none) (hpops : i.pops ≤ b)
    (hn : i.pushes = i.pops + n) : Flows p (p.grow n) b (b + n) (code [i]) := by
  refine flows_single h hpops (by omega) ?_ (tracks_grow n)
  intro l hl
  rw [hnone] at hl
  nomatch hl

/-- An instruction that takes no less than it leaves. -/
theorem flows_shrink {n : Nat} (h : i.fallsThrough) (hnone : i.target? = none)
    (hpops : i.pops ≤ b) (hn : i.pops = i.pushes + n) :
    Flows p (p.shrink n) b (b - n) (code [i]) := by
  refine flows_single h hpops (by omega) ?_ (tracks_shrink n)
  intro l hl
  rw [hnone] at hl
  nomatch hl

/-- An instruction that leaves as many values as it takes. -/
theorem flows_keep (h : i.fallsThrough) (hnone : i.target? = none) (hpops : i.pops ≤ b)
    (hn : i.pops = i.pushes) : Flows p p b b (code [i]) :=
  flows_shrink (n := 0) h hnone hpops hn

theorem flows_compareJump {op : Comparison} {target : String} (h : Fresh target) :
    Flows p (p.shrink 2) 2 0 (code [.compareJump op target]) := by
  refine flows_single rfl le_rfl rfl ?_ (tracks_shrink 2)
  rintro l ⟨⟩
  exact ⟨h, rfl⟩

theorem flows_trueJump {target : String} (h : Fresh target) :
    Flows p (p.shrink 1) 1 0 (code [.trueJump target]) := by
  refine flows_single rfl le_rfl rfl ?_ (tracks_shrink 1)
  rintro l ⟨⟩
  exact ⟨h, rfl⟩

theorem visits_jump {target : String} (h : Fresh target) :
    Visits p p 0 0 (code [.jump target]) := by
  refine visits_single le_rfl rfl ?_ (tracks_shrink 0)
  rintro l ⟨⟩
  exact ⟨h, rfl⟩

theorem visits_returnVoid : Visits p p 0 0 (code [.returnVoid]) := by
  refine visits_single le_rfl rfl ?_ (tracks_shrink 0)
  rintro l ⟨⟩

theorem visits_returnValue {family : Family} :
    Visits p (p.shrink 1) 1 0 (code [.returnValue family]) := by
  refine visits_single le_rfl rfl ?_ (tracks_shrink 1)
  rintro l ⟨⟩

end Single

/-! ### Labels -/

section Labels

variable {p : Progress}

theorem flows_nil : Flows p p b b [] where
  ends := rfl
  safe := by simp [spots]
  lands := by simp [spots]
  marks := by simp [spots]
  covers := by simp
  tracks := by
    intro hcurrent hdeepest _
    obtain ⟨⟨current, deepest⟩, comparisons⟩ := p
    obtain rfl : current = b := hcurrent
    exact congrArg _ (Nat.max_eq_left hdeepest).symm
  passes := fun _ => .refl

theorem flows_label (l : String) : Flows p p 0 0 [.label l] where
  ends := rfl
  safe := by simp [spots, Line.pops]
  lands := by simp [spots]
  marks := by simp [spots]
  covers := fun _ k hk => covers_single hk
  tracks := by
    intro hcurrent hdeepest _
    obtain ⟨⟨current, deepest⟩, comparisons⟩ := p
    obtain rfl : current = 0 := hcurrent
    exact congrArg _ (Nat.max_eq_left hdeepest).symm
  passes := fun hcode => .single (.label hcode.head)

/-- Labels stand where the stack is empty. -/
theorem flows_labels {names : List String} (h : names ≠ [] → b = 0) :
    Flows p p b b (names.map .label) := by
  induction names with
  | nil => exact flows_nil
  | cons x rest ih =>
    obtain rfl := h (List.cons_ne_nil x rest)
    exact (flows_label x).append (ih fun _ => rfl)

theorem spots_compareLines (op : Comparison) (n b : Nat) :
    spots (b + 2) (compareLines op n) =
      [(.instruction (.compareJump op (whenTrue n)), b + 2), (.instruction (.push (.ofInt 0)), b),
       (.instruction (.jump (whenDone n)), b + 1), (.label (whenTrue n), b),
       (.instruction (.push (.ofInt 1)), b), (.label (whenDone n), b + 1)] := rfl

theorem not_fresh_whenTrue (n : Nat) : ¬Fresh (whenTrue n) := fun h => (h n).1 rfl

theorem not_fresh_whenDone (n : Nat) : ¬Fresh (whenDone n) := fun h => (h n).2 rfl

/-- The six lines of a comparison that is kept, and what is behind them, are
all reached: the first three from above, the others by the jump over them. -/
theorem reaches_compareLines {op : Comparison} {n pc : Nat} {code : List Line}
    (hcode : CodeAt code pc (compareLines op n)) {k : Nat} (hk : k ≤ 6) :
    ReflTransGen (Moves code) (pc, b + 2)
      (pc + k, heightAfter (b + 2) ((compareLines op n).take k)) := by
  have hline : ∀ j < 6, code[pc + j]? = (compareLines op n)[j]? := hcode
  have second : Moves code (pc, b + 2) (pc + 1, b) := .next (hline 0 (by decide)) rfl
  have third : Moves code (pc + 1, b) (pc + 2, b + 1) := .next (hline 1 (by decide)) rfl
  -- the jump of the first line
  have fourth : Moves code (pc, b + 2) (pc + 3, b) :=
    .jump (hline 0 (by decide)) rfl (hline 3 (by decide))
  have fifth : Moves code (pc + 3, b) (pc + 4, b) := .label (hline 3 (by decide))
  have sixth : Moves code (pc + 4, b) (pc + 5, b + 1) := .next (hline 4 (by decide)) rfl
  have behind : Moves code (pc + 5, b + 1) (pc + 6, b + 1) := .label (hline 5 (by decide))
  match k, hk with
  | 0, _ => exact .refl
  | 1, _ => exact .single second
  | 2, _ => exact .tail (.single second) third
  | 3, _ => exact .single fourth
  | 4, _ => exact .tail (.single fourth) fifth
  | 5, _ => exact .tail (.tail (.single fourth) fifth) sixth
  | 6, _ => exact .tail (.tail (.tail (.single fourth) fifth) sixth) behind

/-- Of the two ways through a comparison that is kept, each leaves one value. -/
theorem flows_compareLines (op : Comparison) (n : Nat) :
    Flows p (p.compare.shrink 1) (b + 2) (b + 1) (compareLines op n) where
  ends := rfl
  safe := by simp [spots_compareLines, Line.pops, Instruction.pops]
  lands := by
    intro i h l hs hl
    rw [spots_compareLines] at hs ⊢
    simp only [List.mem_cons, Prod.mk.injEq, Line.instruction.injEq, reduceCtorEq, false_and,
      List.not_mem_nil, or_false, false_or] at hs
    -- of the four instructions the comparison and the jump behind the zero go to labels
    rcases hs with ⟨rfl, rfl⟩ | ⟨rfl, rfl⟩ | ⟨rfl, rfl⟩ | ⟨rfl, rfl⟩
    · obtain rfl := Option.some.inj hl
      exact Or.inl (by simp [Instruction.pops])
    · nomatch hl
    · obtain rfl := Option.some.inj hl
      exact Or.inl (by simp [Instruction.pops])
    · nomatch hl
  marks := by
    intro l h hs hfresh
    rw [spots_compareLines] at hs
    simp only [List.mem_cons, Prod.mk.injEq, Line.label.injEq, reduceCtorEq, false_and,
      List.not_mem_nil, or_false, false_or] at hs
    rcases hs with ⟨rfl, -⟩ | ⟨rfl, -⟩
    · exact absurd hfresh (not_fresh_whenTrue n)
    · exact absurd hfresh (not_fresh_whenDone n)
  covers := fun hcode _ hk => reaches_compareLines hcode hk.le
  tracks := by
    have hpeak : peak (b + 2) (compareLines op n) = max (b + 2) (b + 2 - 1) := by
      show max (b + 2) (max b (max (b + 1) (max b (max b (max (b + 1) (b + 1)))))) = _
      omega
    rw [hpeak]
    exact tracks_shrink (p := p.compare) 1
  passes := fun hcode => reaches_compareLines hcode le_rfl

end Labels

end JavaMinus.Assembly
