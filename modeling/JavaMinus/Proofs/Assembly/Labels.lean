/-
JavaMinus/Proofs/Assembly/Labels.lean

Where the labels of a method stand in its assembly.

The labels of the graph stand in front of the lines of the instruction that they
were put in front of, in the order of their names, and those of the end behind
the last line (`labelled`).  What is emitted for an instruction has labels of its
own only if a comparison is kept as a value: then there are two, and each of them
is jumped to once.  Comparisons are numbered throughout the method, so the labels
of a method are those of the graph and two for each kept comparison
(`labels_stand`).

Neither the order in which labels were given nor that of the variables shows.
-/
import JavaMinus.Proofs.Assembly.Meaning
import JavaMinus.Proofs.Listing

namespace JavaMinus.Assembly

open JavaMinus.Graph (ClassUnit)

variable {u : ClassUnit} {m : Graph.Method} {p p' : Progress} {lines : List Line}

/-! ### Jumps in lines -/

/-- The label that a line may jump to. -/
def Line.target? : Line → Option String
  | label _ => none
  | instruction i => i.target?

/-- The labels that lines jump to, from top to bottom. -/
def targets (ls : List Line) : List String := ls.filterMap Line.target?

@[simp] theorem targets_append (ls ls' : List Line) :
    targets (ls ++ ls') = targets ls ++ targets ls' := List.filterMap_append

@[simp] theorem targets_code (is : List Instruction) : targets (code is) = jumps is := by
  rw [targets, code, List.filterMap_map]
  rfl

@[simp] theorem targets_labels (k : Nat) : targets (labels m k) = [] := by
  rw [targets, labels, List.filterMap_map, List.filterMap_eq_nil_iff]
  intro x _
  rfl

/-! ### Labels of comparisons -/

/-- The labels of as many comparisons, from a number on. -/
def comparisonLabels (first count : Nat) : List String :=
  (List.range' first count).flatMap fun n => [whenTrue n, whenDone n]

theorem comparisonLabels_add (first a b : Nat) :
    comparisonLabels first (a + b) =
      comparisonLabels first a ++ comparisonLabels (first + a) b := by
  rw [comparisonLabels, ← List.range'_append_1, List.flatMap_append]
  rfl

theorem mem_comparisonLabels {first count : Nat} {x : String} :
    x ∈ comparisonLabels first count ↔ IsComparisonLabel first (first + count) x := by
  simp only [comparisonLabels, IsComparisonLabel, List.mem_flatMap, List.mem_range'_1,
    List.mem_cons, List.not_mem_nil, or_false, and_assoc]

theorem nodup_comparisonLabels (first count : Nat) : (comparisonLabels first count).Nodup := by
  rw [comparisonLabels, List.nodup_flatMap]
  refine ⟨fun n _ => by simp [whenTrue_ne_whenDone], ?_⟩
  have hnumbers : (List.range' first count).Nodup := List.nodup_range' 1
  refine hnumbers.imp ?_
  intro a b hne x hxa hxb
  simp only [List.mem_cons, List.not_mem_nil, or_false] at hxa hxb
  rcases hxa with rfl | rfl <;> rcases hxb with hx | hx
  · exact hne (whenTrue_injective hx)
  · exact whenTrue_ne_whenDone _ _ hx
  · exact whenTrue_ne_whenDone _ _ hx.symm
  · exact hne (whenDone_injective hx)

theorem Fresh.not_mem_comparisonLabels {x : String} (h : Fresh x) (first count : Nat) :
    x ∉ comparisonLabels first count := by
  intro hx
  obtain ⟨n, -, -, htrue | hdone⟩ := mem_comparisonLabels.mp hx
  · exact (h n).1 htrue
  · exact (h n).2 hdone

section Emitted

variable {kept : Bool} {jumped : List String} (h : Emitted p p' jumped kept lines)
include h

theorem Emitted.comparisons_eq : p'.comparisons = p.comparisons + kept.toNat := by
  cases h with
  | plain is _ _ hp => exact hp
  | compared is is' op _ _ hp => exact hp

theorem Emitted.labelNames_eq :
    labelNames lines = comparisonLabels p.comparisons kept.toNat := by
  cases h with
  | plain is _ _ _ => exact labelNames_code is
  | compared is is' op _ _ _ =>
    rw [labelNames_append, labelNames_append, labelNames_code, labelNames_code,
      labelNames_compareLines]
    rfl

theorem Emitted.targets_eq :
    targets lines = comparisonLabels p.comparisons kept.toNat ++ jumped := by
  cases h with
  | plain is _ his _ =>
    rw [targets_code, his]
    rfl
  | compared is is' op his his' _ =>
    rw [targets_append, targets_append, targets_code, targets_code, his, his']
    rfl

/-- An instruction is emitted as at least one, and begins with no label. -/
theorem Emitted.exists_cons : ∃ i rest, lines = .instruction i :: rest := by
  cases h with
  | plain is hne _ _ =>
    obtain ⟨i, rest, rfl⟩ := List.exists_cons_of_ne_nil hne
    exact ⟨i, code rest, rfl⟩
  | compared is is' op _ _ _ =>
    cases is with
    | nil => exact ⟨_, _, rfl⟩
    | cons i rest => exact ⟨i, _, rfl⟩

end Emitted

/-! ### The labels of a body -/

/-- The lines of instructions, from an index on, with the labels in front of
them and behind the last. -/
def labelled (m : Graph.Method) (index : Nat) : List (List Line) → List Line
  | [] => labels m index
  | chunk :: rest => labels m index ++ chunk ++ labelled m (index + 1) rest

/-- The lines were emitted for the instruction.  They begin with an instruction
and have labels just if a comparison is kept: those of its number. -/
structure StandsFor (u : ClassUnit) (m : Graph.Method) (i : Graph.Instruction)
    (chunk : List Line) : Prop where
  emitted : ∃ p p', (instruction u m i).run p = .ok (chunk, p')
  head : ∃ j rest, chunk = .instruction j :: rest
  labels : ∃ n, labelNames chunk = comparisonLabels n (keepsComparison i).toNat

/-- What is emitted for instructions from an index on. -/
structure StandsFrom (u : ClassUnit) (m : Graph.Method) (index first : Nat)
    (is : List Graph.Instruction) (lines : List Line) : Prop where
  placed : ∃ chunks, lines = labelled m index chunks ∧ List.Forall₂ (StandsFor u m) is chunks
  names : (labelNames lines).Perm
    ((List.range' index (is.length + 1)).flatMap m.labelsAt ++
      comparisonLabels first (is.countP keepsComparison))
  targets : (targets lines).Perm
    (is.filterMap targetOf? ++ comparisonLabels first (is.countP keepsComparison))

theorem standsFrom_of_bodyFrom {k : Nat} {is : List Graph.Instruction}
    (h : (bodyFrom u m k is).run p = .ok (lines, p')) :
    StandsFrom u m k p.comparisons is lines := by
  induction is generalizing k p lines with
  | nil =>
    obtain ⟨rfl, rfl⟩ := ok_inj h
    refine ⟨⟨[], rfl, .nil⟩, ?_, ?_⟩
    · rw [labelNames_labels]
      simp [comparisonLabels]
    · rw [targets_labels]
      exact .refl _
  | cons i rest ih =>
    obtain ⟨first, more, p₁, hfirst, hmore, rfl⟩ := bodyFrom_cons h
    have hemitted := instruction_emitted hfirst
    obtain ⟨⟨chunks, rfl, hchunks⟩, hnames, htargets⟩ := ih hmore
    -- the rest goes on with the numbers of comparisons where this instruction stops
    rw [hemitted.comparisons_eq] at hnames htargets
    have hcount : (i :: rest).countP keepsComparison =
        (keepsComparison i).toNat + rest.countP keepsComparison := by
      rw [List.countP_cons, Nat.add_comm]
      cases keepsComparison i <;> rfl
    refine ⟨⟨first :: chunks, rfl, .cons ?_ hchunks⟩, ?_, ?_⟩
    · exact ⟨⟨p, p₁, hfirst⟩, hemitted.exists_cons, p.comparisons, hemitted.labelNames_eq⟩
    · rw [labelNames_append, labelNames_append, labelNames_labels, hemitted.labelNames_eq, hcount,
        comparisonLabels_add, List.length_cons, List.range'_succ, List.flatMap_cons]
      -- the same pieces in another order
      apply List.perm_iff_count.mpr
      intro x
      have hx := hnames.count_eq x
      simp only [List.count_append] at hx ⊢
      omega
    · rw [targets_append, targets_append, targets_labels, hemitted.targets_eq, hcount,
        comparisonLabels_add, List.filterMap_cons]
      apply List.perm_iff_count.mpr
      intro x
      have hx := htargets.count_eq x
      cases targetOf? i <;>
        simp only [List.count_append, List.count_cons, List.count_nil, Option.toList] at hx ⊢ <;>
        omega

/-! ### The labels of the graph -/

/-- All labels of the graph stand in front of an instruction or at the end, if their
indexes say so. -/
theorem labelsAt_perm
    (h : ∀ x k, m.labels.get? x = some k → k ≤ m.instructions.length) :
    ((List.range' 0 (m.instructions.length + 1)).flatMap m.labelsAt).Perm m.labels.keys := by
  apply (List.perm_ext_iff_of_nodup ?_ m.labels.keys_nodup).mpr
  · intro x
    rw [List.mem_flatMap, Listing.mem_keys_iff, Listing.has, Option.isSome_iff_exists]
    apply exists_congr
    intro k
    rw [mem_labelsAt, and_iff_right_iff_imp]
    intro hx
    have := h x k hx
    exact List.mem_range'_1.mpr (by omega)
  · rw [List.nodup_flatMap]
    have hindexes : (List.range' 0 (m.instructions.length + 1)).Nodup := List.nodup_range' 1
    refine ⟨fun k _ => labelsAt_nodup k, hindexes.imp ?_⟩
    -- a label has one index
    intro i j hne x hi hj
    exact hne (Option.some_inj.mp ((mem_labelsAt.mp hi).symm.trans (mem_labelsAt.mp hj)))

/-- The labels in front of an instruction are in the order of their names. -/
theorem sorted_labelsAt (m : Graph.Method) (k : Nat) : (m.labelsAt k).Pairwise (· < ·) := by
  rw [Graph.Method.labelsAt, List.pairwise_map]
  exact m.labels.sorted.sublist List.filter_sublist

/-- They can be found by going through the labels in any order. -/
theorem mergeSort_eq_labelsAt {entries : List (String × Nat)} (h : entries.Perm m.labels.entries)
    (k : Nat) : ((entries.filter (·.2 == k)).map Prod.fst).mergeSort = m.labelsAt k := by
  have hperm : (((entries.filter (·.2 == k)).map Prod.fst).mergeSort).Perm (m.labelsAt k) :=
    (List.mergeSort_perm _ _).trans ((h.filter _).map _)
  have hsorted : (((entries.filter (·.2 == k)).map Prod.fst).mergeSort).Pairwise (· ≤ ·) := by
    refine (List.pairwise_mergeSort ?_ ?_ _).imp of_decide_eq_true
    · intro a b c hab hbc
      exact decide_eq_true ((of_decide_eq_true hab).trans (of_decide_eq_true hbc))
    · intro a b
      simpa using le_total a b
  exact hperm.eq_of_pairwise' hsorted ((sorted_labelsAt m k).imp le_of_lt)

/-! ### Methods -/

/-- How the labels of the graph and those of comparisons stand in a body.  The
labels of the graph stand in front of the lines of their instruction
(`placed`), in the order of their names (`sorted`).  Beside them there are two labels
for each comparison that is used as a value (`names`), which are jumped to once each
beside the jumps of the graph (`targets`). -/
structure LabelsStand (u : ClassUnit) (m : Graph.Method) (body : List Line) : Prop where
  placed : ∃ chunks, body = labelled m 0 chunks ∧
    List.Forall₂ (StandsFor u m) m.instructions chunks
  sorted : ∀ k, (m.labelsAt k).Pairwise (· < ·) ∧
    ∀ x, x ∈ m.labelsAt k ↔ m.labels.get? x = some k
  names : (labelNames body).Perm
    (m.labels.keys ++ comparisonLabels 0 (m.instructions.countP keepsComparison))
  nodup : (labelNames body).Nodup
  targets : (targets body).Perm (m.instructions.filterMap targetOf? ++
    comparisonLabels 0 (m.instructions.countP keepsComparison))
  once : ∀ x ∈ comparisonLabels 0 (m.instructions.countP keepsComparison),
    (labelNames body).count x = 1 ∧ (Assembly.targets body).count x = 1

theorem labelsStand_of_body {body : List Line} {deepest : Nat}
    (hindex : ∀ x k, m.labels.get? x = some k → k ≤ m.instructions.length)
    (hfresh : FreshLabels m) (hjumps : ∀ i ∈ m.instructions, ∀ l, targetOf? i = some l → Fresh l)
    (h : Assembly.body u m = .ok (body, deepest)) : LabelsStand u m body := by
  obtain ⟨p, hrun, -⟩ := body_eq_ok h
  have hnodup := labelNames_body_nodup hfresh h
  obtain ⟨hplaced, hnames, htargets⟩ := standsFrom_of_bodyFrom hrun
  replace hnames := hnames.trans ((labelsAt_perm hindex).append_right _)
  refine ⟨hplaced, fun k => ⟨sorted_labelsAt m k, fun x => mem_labelsAt⟩, hnames, hnodup,
    htargets, ?_⟩
  intro x hx
  refine ⟨List.count_eq_one_of_mem hnodup (hnames.mem_iff.mpr (List.mem_append_right _ hx)), ?_⟩
  -- no instruction of the graph jumps to a label of a comparison
  have hgraph : x ∉ m.instructions.filterMap targetOf? := by
    intro hmem
    obtain ⟨i, hi, htarget⟩ := List.mem_filterMap.mp hmem
    exact (hjumps i hi x htarget).not_mem_comparisonLabels _ _ hx
  rw [htargets.count_eq, List.count_append, List.count_eq_zero_of_not_mem hgraph, Nat.zero_add]
  exact List.count_eq_one_of_mem (nodup_comparisonLabels _ _) hx

/-! ### The text of a body -/

/-- The label that a line of a text is, if it is one: labels are not indented. -/
def labelOf? (line : List Char) : Option String :=
  if line.head? = some ' ' then none else (Reading.endedBy? ':' line).map String.ofList

theorem labelOf?_text {l : Line} (h : ∀ x, l = .label x → ' ' ∉ x.toList) :
    labelOf? l.text.toList = l.label? := by
  cases l with
  | instruction i =>
    rw [Line.text_instruction]
    rfl
  | label x =>
    have hhead : (x.toList ++ [':']).head? ≠ some ' ' := by
      have hx := h x rfl
      cases hlist : x.toList with
      | nil => decide
      | cons c rest =>
        rw [hlist] at hx
        rintro hc
        exact hx (by rw [Option.some_inj.mp hc]; exact List.mem_cons_self ..)
    rw [Line.text_label, labelOf?, if_neg hhead, Reading.endedBy?_append_self, Option.map_some,
      String.ofList_toList]
    rfl

theorem noBlank_of_isComparisonLabel {first count : Nat} {x : String}
    (h : IsComparisonLabel first count x) : ' ' ∉ x.toList := by
  obtain ⟨n, -, -, rfl | rfl⟩ := h
  · show ' ' ∉ ("cmp_true_" ++ n.repr).toList
    rw [String.toList_append, List.mem_append, not_or]
    exact ⟨by decide, (solid_natural n).noBlank⟩
  · show ' ' ∉ ("cmp_end_" ++ n.repr).toList
    rw [String.toList_append, List.mem_append, not_or]
    exact ⟨by decide, (solid_natural n).noBlank⟩

/-- In the text of a body the label lines are those of the body. -/
theorem labels_of_bodyText {a : Method} (h : LabelsStand u m a.body) (hwritable : WritableLabels m)
    (hfeed : ∀ l ∈ a.body, '\n' ∉ l.text.toList) :
    (Reading.lines a.bodyText).map labelOf? = a.body.map Line.label? := by
  have hlines : Reading.lines a.bodyText = (a.body.map Line.text).map String.toList := by
    rw [← Reading.lines_joined, List.map_map]
    · rfl
    · intro s hs
      obtain ⟨l, hl, rfl⟩ := List.mem_map.mp hs
      exact hfeed l hl
  rw [hlines, List.map_map, List.map_map]
  apply List.map_congr_left
  intro l hl
  apply labelOf?_text
  rintro x rfl
  have hx : x ∈ labelNames a.body := List.mem_filterMap.mpr ⟨_, hl, rfl⟩
  rcases List.mem_append.mp (h.names.mem_iff.mp hx) with hkey | hcomparison
  · exact (hwritable x hkey).noBlank
  · exact noBlank_of_isComparisonLabel (mem_comparisonLabels.mp hcomparison)

/-- **Labels of a method.**  If the labels of the graph have indexes up to that of the
end and neither they nor the jumps are named like those of comparisons, they stand
where the graph has them and each of them stands once, beside two for each comparison
that is used as a value, which are jumped to once each.  The order in which labels and
variables were given does not matter, and in the text the label lines are just these. -/
theorem labels_stand {options : Options} {a : Method}
    (hindex : ∀ x k, m.labels.get? x = some k → k ≤ m.instructions.length)
    (hfresh : FreshLabels m) (hjumps : ∀ i ∈ m.instructions, ∀ l, targetOf? i = some l → Fresh l)
    (h : Member.ofGraph options u m = .ok (.method a)) :
    LabelsStand u m a.body ∧
      (∀ ls rs, ls.Perm m.labels.entries → rs.Perm m.registers.entries →
        Member.ofGraph options u { m with labels := .ofList ls, registers := .ofList rs } =
            .ok (.method a) ∧
          ∀ k, ((ls.filter (·.2 == k)).map Prod.fst).mergeSort = m.labelsAt k) ∧
      (WritableLabels m → (∀ l ∈ a.body, '\n' ∉ l.text.toList) →
        (Reading.lines a.bodyText).map labelOf? = a.body.map Line.label?) := by
  obtain ⟨deepest, hbody, -⟩ := memberOfGraph_eq_ok h
  have hstand := labelsStand_of_body hindex hfresh hjumps hbody
  refine ⟨hstand, fun ls rs hls hrs => ⟨?_, mergeSort_eq_labelsAt hls⟩,
    labels_of_bodyText hstand⟩
  rw [Listing.ofList_eq_of_perm hls, Listing.ofList_eq_of_perm hrs]
  exact h

/-! ### Labels at the beginning and at the end

    loop: again: small = n < 10; goto loop;
    done:
-/

/-- Two labels in front of the first instruction, and one at the end. -/
def turning : Graph.Method :=
  { Graph.Method.new "turn" .void with
    parameters := [.named "n" .int]
    instructions :=
      [.assign (.named "small" .boolean)
        (.binary (.comparison .lt) (.named "n" .int) (.ofInt 10)),
       .jump "loop"]
    labels := .ofList [("loop", 0), ("done", 2), ("again", 0)]
    registers := .ofList [("n", ⟨1, .int⟩), ("small", ⟨2, .boolean⟩)] }

def turningCode : Method :=
  { access := .anyone, isStatic := false, isFinal := false, name := "turn"
    parameters := [.int], result := .void, stackLimit := 2, localsLimit := 3
    body := [.label "again", .label "loop"] ++ Assembly.code [.load .int 1, .push (.byte 10)] ++
      compareLines .lt 0 ++ Assembly.code [.store .int 2, .jump "loop"] ++ [.label "done"] }

theorem labels_stand_turning :
    Member.ofGraph .standard (.new "Calc") turning = .ok (.method turningCode) ∧
      LabelsStand (.new "Calc") turning turningCode.body ∧
      (Reading.lines turningCode.bodyText).map labelOf? =
        turningCode.body.map Line.label? := by
  have hcode : Member.ofGraph .standard (.new "Calc") turning = .ok (.method turningCode) := rfl
  have hentries : ∀ e ∈ turning.labels.entries,
      e.2 ≤ 2 ∧ ¬"cmp_".toList <+: e.1.toList ∧ ' ' ∉ e.1.toList ∧ '\n' ∉ e.1.toList := by decide
  have hkeys : ∀ x ∈ turning.labels.keys,
      ¬"cmp_".toList <+: x.toList ∧ ' ' ∉ x.toList ∧ '\n' ∉ x.toList := by
    intro x hx
    obtain ⟨e, he, rfl⟩ := List.mem_map.mp hx
    exact (hentries e he).2
  have hindex : ∀ x k, turning.labels.get? x = some k → k ≤ turning.instructions.length := by
    intro x k hx
    exact (hentries _ (turning.labels.get?_eq_some_iff.mp hx)).1
  have hfresh : FreshLabels turning := fun x hx => fresh_of_not_prefix (hkeys x hx).1
  have hjumps : ∀ i ∈ turning.instructions, ∀ l, targetOf? i = some l → Fresh l := by
    intro i hi l hl
    have hmem : l ∈ turning.instructions.filterMap targetOf? := List.mem_filterMap.mpr ⟨i, hi, hl⟩
    obtain rfl : l = "loop" := List.mem_singleton.mp hmem
    exact fresh_of_not_prefix (by decide)
  obtain ⟨hstand, -, htext⟩ := labels_stand hindex hfresh hjumps hcode
  refine ⟨hcode, hstand, htext (fun x hx => ⟨(hkeys x hx).2.1, (hkeys x hx).2.2⟩) ?_⟩
  decide

end JavaMinus.Assembly
