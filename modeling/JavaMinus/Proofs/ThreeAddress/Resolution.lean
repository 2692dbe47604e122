/-
JavaMinus/Proofs/ThreeAddress/Resolution.lean

Labels and jumps in the text of a program.

What is read here is the text, line by line, and nothing but the text.  A line that ends
in a colon is a label, and a line that begins with the word `goto` or `if` jumps to the
label in its last word.  The body of a method stands between a line that begins with
`.method` and opens a bracket, and the next line that is just a closing one.

If the code is spelled with words, the lines of the text are the lines that were
written (`Program.lines_text`); a label is read just where one was written, and a jump
likewise (`labelRead?_text`, `targetRead?_text`).  The numbers of labels run on through
the whole program (`landmarked_of_ofTree`), so no label stands twice in the text, and
the jumps of every body lead to the labels of that body (`labels_resolve`).
-/
import JavaMinus.Proofs.ThreeAddress.Meaning
import JavaMinus.Proofs.ThreeAddress.Paths
import JavaMinus.Proofs.ThreeAddress.Spelling

namespace JavaMinus.ThreeAddress

open Reading

/-! ### Reading labels and jumps -/

/-- The label that a line of text is. -/
def labelRead? (line : List Char) : Option String := (endedBy? ':' line).map String.ofList

/-- The label that a line of text jumps to. -/
def targetRead? (line : List Char) : Option String :=
  if line.takeWhile (· ≠ ' ') ∈ [['g', 'o', 't', 'o'], ['i', 'f']] then
    ((words line).getLast?.bind (endedBy? ';')).map String.ofList
  else none

/-- The labels in lines of text, from top to bottom. -/
def labelsRead (text : List (List Char)) : List String := text.filterMap labelRead?

/-- The labels that lines of text jump to, from top to bottom. -/
def targetsRead (text : List (List Char)) : List String := text.filterMap targetRead?

/-- Whether a line of text is the head of a method. -/
def opensMethod (line : List Char) : Bool :=
  ['.', 'm', 'e', 't', 'h', 'o', 'd', ' '].isPrefixOf line && line.getLast? == some '\x7b'

/-- The bodies of the methods in lines of text. -/
def bodiesRead : List (List Char) → List (List (List Char))
  | [] => []
  | line :: rest =>
    if opensMethod line then rest.takeWhile (· ≠ ['\x7d']) :: bodiesRead rest
    else bodiesRead rest

/-- Every jump in a body leads to a label that stands there once, and every label there is
led to. -/
structure Resolves (body : List (List Char)) : Prop where
  defined : ∀ l ∈ targetsRead body, (labelsRead body).count l = 1
  used : ∀ l ∈ labelsRead body, l ∈ targetsRead body

@[simp] theorem labelsRead_append (text text' : List (List Char)) :
    labelsRead (text ++ text') = labelsRead text ++ labelsRead text' := List.filterMap_append

/-! ### How lines end -/

theorem getLast?_append {a b : String} {c : Char} (h : b.toList.getLast? = some c) :
    (a ++ b).toList.getLast? = some c := by
  rw [String.toList_append, List.getLast?_append, h, Option.some_or]

/-- What a line ends in: a label in a colon, and any other line in a semicolon. -/
def Line.ending : Line → Char
  | .label _ => ':'
  | _ => ';'

theorem Line.ending_cases (l : Line) : l.ending = ':' ∨ l.ending = ';' := by
  cases l with
  | label => exact Or.inl rfl
  | assign | store | fieldWrite | call | construct | branch | jump | ret => exact Or.inr rfl

theorem Line.getLast?_text (l : Line) : l.text.toList.getLast? = some l.ending := by
  -- but for labels the last piece of the text ends in a semicolon
  have ended : ∀ a b : String, b.toList.getLast? = some ';' →
      (a ++ b).toList.getLast? = some ';' := fun a b h => getLast?_append h
  cases l with
  | label l =>
    show (l.text ++ ":").toList.getLast? = some ':'
    exact getLast?_append rfl
  | assign c tag source =>
    exact ended (c.text ++ tag.text ++ " :=" ++ tag.text ++ " " ++ source.text) ";" rfl
  | store c x tag y =>
    exact ended (c.text ++ "[" ++ x.text ++ "]" ++ tag.text ++ " :=" ++ tag.text ++ " " ++ y.text)
      ";" rfl
  | fieldWrite name tag x =>
    exact ended ("putfield(this, " ++ name ++ tag.text ++ ", " ++ x.text) ").V;" rfl
  | call i => exact ended i.text ";" rfl
  | construct x => exact ended ("invokespecial(" ++ x.text) ", \"<init>\").V;" rfl
  | branch x l => exact ended ("if (" ++ x.text ++ ") goto " ++ l.text) ";" rfl
  | jump l => exact ended ("goto " ++ l.text) ";" rfl
  | ret tag x =>
    cases x with
    | none => exact ended ("ret" ++ tag.text) ";" rfl
    | some x => exact ended ("ret" ++ tag.text ++ " " ++ x.text) ";" rfl

theorem labelRead?_eq_none {line : List Char} (h : line.getLast? ≠ some ':') :
    labelRead? line = none := by
  rw [labelRead?, endedBy?, if_neg h, Option.map_none]

/-- A label is read just where one was written. -/
theorem labelRead?_text (l : Line) : labelRead? l.text.toList = l.label?.map Label.text := by
  cases l with
  | label l =>
    rw [Line.text_label, labelRead?, endedBy?_append_self, Option.map_some, String.ofList_toList]
    rfl
  | assign | store | fieldWrite | call | construct | branch | jump | ret =>
    apply labelRead?_eq_none
    rw [Line.getLast?_text]
    show some ';' ≠ some ':'
    decide

theorem labelsRead_map_text (ls : List Line) :
    labelsRead (ls.map (·.text.toList)) = (labels ls).map Label.text := by
  rw [labelsRead, labels, List.filterMap_map, List.map_filterMap]
  exact congrArg (List.filterMap · ls) (funext labelRead?_text)

/-! ### How lines begin -/

/-- A line is no jump if its first word begins with a piece that is part of neither `goto`
nor `if`. -/
theorem targetRead?_eq_none {front line : String} {c : Char} (hfront : IsWord front)
    (hc : c ∈ front.toList) (hmark : c ∉ ['g', 'o', 't', 'o', 'i', 'f'])
    (h : front.toList <+: line.toList) : targetRead? line.toList = none := by
  obtain ⟨rest, hrest⟩ := h
  have hword : c ∈ line.toList.takeWhile (· ≠ ' ') := by
    rw [← hrest, List.takeWhile_append_of_pos]
    · exact List.mem_append_left _ hc
    · intro c' hc'
      rw [decide_eq_true_eq]
      rintro rfl
      exact hfront.noBlank hc'
  rw [targetRead?, if_neg]
  intro hjump
  rcases List.mem_cons.mp hjump with hgoto | hif
  · rw [hgoto] at hword
    exact hmark (List.mem_append_left ['i', 'f'] hword)
  · rw [List.mem_singleton.mp hif] at hword
    exact hmark (List.mem_append_right ['g', 'o', 't', 'o'] hword)

/-- The text of a call begins with that of its receiver, and this with the kind of the
call. -/
theorem prefix_invocation (i : Invocation) : "invoke".toList <+: i.text.toList := by
  obtain ⟨receiver, method, arguments, result⟩ := i
  -- whatever the receiver is, the rest of the call stands behind it
  have hbehind : ∀ call : String, "invoke".toList <+: call.toList →
      "invoke".toList <+: (call ++ ", \"" ++ method ++ "\"" ++
        String.join (arguments.map fun x => ", " ++ x.text) ++ ")" ++ result.text).toList := by
    intro call hcall
    simp only [String.toList_append, List.append_assoc]
    exact hcall.trans (List.prefix_append _ _)
  cases receiver with
  | classRef name => exact hbehind ("invokestatic(" ++ name) (by simp)
  | self => exact hbehind "invokevirtual(this" (by simp)
  | object x => exact hbehind ("invokevirtual(" ++ x.text) (by simp)

/-- The first word of a line. -/
theorem takeWhile_of_spaced {line w : List Char} {ws : List (List Char)}
    (h : Spaced line (w :: ws)) : line.takeWhile (· ≠ ' ') = w := by
  have hall : ∀ {w : List Char}, Solid w → ∀ c ∈ w, decide (c ≠ ' ') = true := by
    intro w hw c hc
    rw [decide_eq_true_eq]
    rintro rfl
    exact hw.noBlank hc
  cases h with
  | last hw => exact List.takeWhile_eq_self_iff.mpr (hall hw)
  | cons hw _ =>
    rw [List.takeWhile_append_of_pos (hall hw), List.takeWhile_cons_of_neg (by decide),
      List.append_nil]

/-- The label of a jump is read from its last word. -/
theorem targetRead?_eq_some {line w : List Char} {ws : List (List Char)} {l : Label}
    (h : Spaced line (w :: (ws ++ [l.text.toList ++ [';']])))
    (hw : w ∈ [['g', 'o', 't', 'o'], ['i', 'f']]) : targetRead? line = some l.text := by
  have hlast : (words line).getLast? = some (l.text.toList ++ [';']) := by
    rw [h.words, ← List.cons_append, List.getLast?_concat]
  rw [targetRead?, takeWhile_of_spaced h, if_pos hw, hlast, Option.bind_some,
    endedBy?_append_self, Option.map_some, String.ofList_toList]

/-- A jump is read just where one was written. -/
theorem targetRead?_text {l : Line} (h : l.IsIn .words) :
    targetRead? l.text.toList = l.target?.map Label.text := by
  have semicolon : Solid [';'] := solid_mark (by decide)
  -- the lines that jump are taken apart, and of the others the first piece is enough
  cases l with
  | label l =>
    have hword : IsWord (l.text ++ ":") := isWord_append l.solid (by decide)
    have hmark : ':' ∈ (l.text ++ ":").toList := by simp
    exact targetRead?_eq_none hword hmark (by decide) List.prefix_rfl
  | assign c tag source =>
    have hmark : '.' ∈ (c.text ++ tag.text).toList := by
      obtain ⟨w, hw⟩ := tag.text_eq_cons
      rw [String.toList_append, hw]
      exact List.mem_append_right _ (List.mem_cons_self ..)
    apply targetRead?_eq_none (isWord_append h.1.isWord h.2.1.isWord) hmark (by decide)
    show (c.text ++ tag.text).toList <+:
      (c.text ++ tag.text ++ " :=" ++ tag.text ++ " " ++ source.text ++ ";").toList
    simp
  | store c x tag y =>
    have hword : IsWord (c.text ++ "[") := isWord_append h.1.isWord (by decide)
    have hmark : '[' ∈ (c.text ++ "[").toList := by simp
    apply targetRead?_eq_none hword hmark (by decide)
    show (c.text ++ "[").toList <+: (c.text ++ "[" ++ x.text ++ "]" ++ tag.text ++ " :=" ++
      tag.text ++ " " ++ y.text ++ ";").toList
    simp
  | fieldWrite name tag x =>
    have hfront : "putfield".toList <+:
        ("putfield(this, " ++ name ++ tag.text ++ ", " ++ x.text ++ ").V;").toList := by simp
    exact targetRead?_eq_none (c := 'p') (by decide) (by decide) (by decide) hfront
  | call i =>
    have hfront : "invoke".toList <+: (i.text ++ ";").toList := by
      rw [String.toList_append]
      exact (prefix_invocation i).trans (List.prefix_append _ _)
    exact targetRead?_eq_none (c := 'v') (by decide) (by decide) (by decide) hfront
  | construct x =>
    have hfront : "invoke".toList <+:
        ("invokespecial(" ++ x.text ++ ", \"<init>\").V;").toList := by simp
    exact targetRead?_eq_none (c := 'v') (by decide) (by decide) (by decide) hfront
  | branch x l =>
    have hx : Solid x.text.toList := Operand.IsIn.isWord h
    have hbracket : Solid (('(' :: x.text.toList) ++ [')']) :=
      ((solid_mark (c := '(') (by decide)).append hx).append (solid_mark (by decide))
    have hspaced : Spaced (Line.branch x l).text.toList (['i', 'f'] ::
        ([('(' :: x.text.toList) ++ [')'], ['g', 'o', 't', 'o']] ++ [l.text.toList ++ [';']])) := by
      rw [Line.text_branch]
      exact .cons ⟨by decide, by decide⟩ (.cons hbracket (.cons ⟨by decide, by decide⟩
        (.last (l.solid.append semicolon))))
    exact targetRead?_eq_some hspaced (by simp)
  | jump l =>
    have hspaced : Spaced (Line.jump l).text.toList
        (['g', 'o', 't', 'o'] :: ([] ++ [l.text.toList ++ [';']])) := by
      rw [Line.text_jump]
      exact .cons ⟨by decide, by decide⟩ (.last (l.solid.append semicolon))
    exact targetRead?_eq_some hspaced (by simp)
  | ret tag x =>
    have hfront : "ret".toList <+: (Line.ret tag x).text.toList := by
      cases x with
      | none =>
        show "ret".toList <+: ("ret" ++ tag.text ++ ";").toList
        simp
      | some x =>
        show "ret".toList <+: ("ret" ++ tag.text ++ " " ++ x.text ++ ";").toList
        simp
    exact targetRead?_eq_none (c := 'r') (by decide) (by decide) (by decide) hfront

example : targetRead? "if (t0.bool) goto if_then_0;".toList = some "if_then_0" := by
  decide +kernel

theorem targetsRead_map_text {ls : List Line} (h : LinesIn .words ls) :
    targetsRead (ls.map (·.text.toList)) = (targets ls).map Label.text := by
  induction ls with
  | nil => rfl
  | cons l rest ih =>
    have hl := targetRead?_text (h l (List.mem_cons_self ..))
    have hrest := ih fun l' hl' => h l' (List.mem_cons_of_mem _ hl')
    rw [targetsRead, targets] at hrest ⊢
    rw [List.map_cons, List.filterMap_cons, List.filterMap_cons, hl, hrest]
    cases l.target? <;> rfl

/-! ### The lines of a text -/

/-- No line feed stands in the text. -/
def OneLine (s : String) : Prop := '\n' ∉ s.toList

/-- The element of an array is written with the first part of what stands for the array. -/
theorem oneLine_bare {x : Operand} (h : IsWord x.text) : OneLine x.bare := by
  have hfront : x.bare.toList <+: x.text.toList := by
    rw [Operand.bare, QualifiedName.firstSegment, String.toList_ofList]
    exact List.takeWhile_prefix _
  exact fun hfeed => h.noFeed (hfront.subset hfeed)

theorem Invocation.IsIn.oneLine {i : Invocation} (h : i.IsIn .words) : OneLine i.text := by
  obtain ⟨receiver, method, arguments, result⟩ := i
  obtain ⟨hreceiver, hmethod, harguments, hresult⟩ := h
  have hname : IsWord method := hmethod
  have hlist : ∀ x ∈ arguments, '\n' ∉ x.text.toList := fun x hx =>
    (harguments x hx).isWord.noFeed
  -- the receiver makes the beginning, and the rest is the same for all
  have hbehind : ∀ call : String, OneLine call → OneLine (call ++ ", \"" ++ method ++ "\"" ++
      String.join (arguments.map fun x => ", " ++ x.text) ++ ")" ++ result.text) := by
    intro call hcall
    rw [OneLine] at hcall
    simpa [OneLine, hcall, hname.noFeed, hresult.isWord.noFeed] using hlist
  cases receiver with
  | classRef name =>
    have hclass : IsWord name := hreceiver
    exact hbehind ("invokestatic(" ++ name) (by simp [OneLine, hclass.noFeed])
  | self => exact hbehind "invokevirtual(this" (by simp [OneLine])
  | object x =>
    have hx : IsWord x.text := Operand.IsIn.isWord hreceiver
    exact hbehind ("invokevirtual(" ++ x.text) (by simp [OneLine, hx.noFeed])

theorem Source.IsIn.oneLine {source : Source} (h : source.IsIn .words) :
    OneLine source.text := by
  cases source with
  | operand x => exact (Operand.IsIn.isWord h).noFeed
  | arithmetic op x y =>
    show OneLine (x.text ++ " " ++ op.symbol ++ ".i32 " ++ y.text)
    obtain ⟨hx, hy⟩ := h
    cases op <;> simp [OneLine, ArithmeticOperator.symbol, hx.isWord.noFeed, hy.isWord.noFeed]
  | logical op x y =>
    show OneLine (x.text ++ " " ++ op.symbol ++ ".bool " ++ y.text)
    obtain ⟨hx, hy⟩ := h
    rcases op with op | op <;> cases op <;>
      simp [OneLine, LogicalOperator.symbol, hx.isWord.noFeed, hy.isWord.noFeed]
  | fieldRead name tag =>
    show OneLine ("getfield(this, " ++ name ++ tag.text ++ ")" ++ tag.text)
    obtain ⟨-, hname, htag⟩ := h
    have hword : IsWord name := hname
    simp [OneLine, hword.noFeed, htag.isWord.noFeed]
  | call i => exact Invocation.IsIn.oneLine h
  | newArray x tag =>
    show OneLine ("new(array, " ++ x.text ++ ")" ++ tag.text)
    simp [OneLine, h.1.isWord.noFeed, h.2.isWord.noFeed]
  | newObject name =>
    show OneLine ("new(" ++ name ++ ")." ++ name)
    have hname : IsWord name := h
    simp [OneLine, hname.noFeed]
  | length x =>
    show OneLine ("arraylength(" ++ x.text ++ ").i32")
    have hx : IsWord x.text := Operand.IsIn.isWord h
    simp [OneLine, hx.noFeed]
  | element x y tag =>
    show OneLine (x.bare ++ "[" ++ y.text ++ "]" ++ tag.text)
    obtain ⟨hx, hy, htag⟩ := h
    have hbare : '\n' ∉ x.bare.toList := oneLine_bare hx.isWord
    simp [OneLine, hbare, hy.isWord.noFeed, htag.isWord.noFeed]

theorem Line.IsIn.oneLine {l : Line} (h : l.IsIn .words) : OneLine l.text := by
  cases l with
  | label l =>
    show OneLine (l.text ++ ":")
    simp [OneLine, l.solid.noFeed]
  | assign c tag source =>
    show OneLine (c.text ++ tag.text ++ " :=" ++ tag.text ++ " " ++ source.text ++ ";")
    obtain ⟨hc, htag, hsource⟩ := h
    have hline : '\n' ∉ source.text.toList := hsource.oneLine
    simp [OneLine, hc.isWord.noFeed, htag.isWord.noFeed, hline]
  | store c x tag y =>
    show OneLine (c.text ++ "[" ++ x.text ++ "]" ++ tag.text ++ " :=" ++ tag.text ++ " " ++
      y.text ++ ";")
    obtain ⟨hc, hx, htag, hy⟩ := h
    simp [OneLine, hc.isWord.noFeed, hx.isWord.noFeed, htag.isWord.noFeed, hy.isWord.noFeed]
  | fieldWrite name tag x =>
    show OneLine ("putfield(this, " ++ name ++ tag.text ++ ", " ++ x.text ++ ").V;")
    obtain ⟨-, hname, htag, hx⟩ := h
    have hword : IsWord name := hname
    simp [OneLine, hword.noFeed, htag.isWord.noFeed, hx.isWord.noFeed]
  | call i =>
    show OneLine (i.text ++ ";")
    have hline : '\n' ∉ i.text.toList := Invocation.IsIn.oneLine h
    simp [OneLine, hline]
  | construct x =>
    show OneLine ("invokespecial(" ++ x.text ++ ", \"<init>\").V;")
    have hx : IsWord x.text := Operand.IsIn.isWord h
    simp [OneLine, hx.noFeed]
  | branch x l =>
    show OneLine ("if (" ++ x.text ++ ") goto " ++ l.text ++ ";")
    have hx : IsWord x.text := Operand.IsIn.isWord h
    simp [OneLine, hx.noFeed, l.solid.noFeed]
  | jump l =>
    show OneLine ("goto " ++ l.text ++ ";")
    simp [OneLine, l.solid.noFeed]
  | ret tag x =>
    cases x with
    | none =>
      show OneLine ("ret" ++ tag.text ++ ";")
      have htag : IsWord tag.text := Tag.IsIn.isWord h
      simp [OneLine, htag.noFeed]
    | some x =>
      show OneLine ("ret" ++ tag.text ++ " " ++ x.text ++ ";")
      simp [OneLine, h.1.isWord.noFeed, h.2.isWord.noFeed]

theorem VariablesIn.oneLine {vs : List (String × Tag)} (h : VariablesIn .words vs)
    {v : String × Tag} (hv : v ∈ vs) : OneLine (".field public " ++ v.1 ++ v.2.text ++ ";") := by
  obtain ⟨hname, htag⟩ := h v hv
  have hword : IsWord v.1 := hname
  simp [OneLine, hword.noFeed, htag.isWord.noFeed]

theorem Method.IsIn.oneLine {m : Method} (h : m.IsIn .words) : ∀ s ∈ m.lines, OneLine s := by
  intro s hs
  simp only [Method.lines, List.cons_append, List.nil_append, List.mem_cons, List.mem_append,
    List.mem_map, List.not_mem_nil, or_false] at hs
  rcases hs with rfl | rfl | ⟨l, hl, rfl⟩ | rfl
  · simp [OneLine]
  · have hparameters : ∀ p ∈ m.parameters, IsWord p.1 ∧ IsWord p.2.text := fun p hp =>
      ⟨(h.parameters p hp).1, (h.parameters p hp).2.isWord⟩
    exact noFeed_header h.name hparameters h.result.isWord
  · exact (h.body l hl).oneLine
  · simp [OneLine]

theorem ClassCode.IsSpelled.oneLine_header {c : ClassCode} (h : c.IsSpelled) :
    OneLine c.header := by
  rw [ClassCode.header]
  split
  · show OneLine (c.name ++ " \x7b")
    simp [OneLine, h.name.noFeed]
  · next superName hsuper =>
    show OneLine (c.name ++ " extends " ++ superName ++ " \x7b")
    simp [OneLine, h.name.noFeed, (h.superName superName hsuper).noFeed]

theorem ClassCode.IsSpelled.oneLine_constructorLines {c : ClassCode} (h : c.IsSpelled) :
    ∀ s ∈ c.constructorLines, OneLine s := by
  intro s hs
  simp only [ClassCode.constructorLines, List.mem_cons, List.not_mem_nil, or_false] at hs
  rcases hs with rfl | rfl | rfl | rfl
  · simp [OneLine]
  · show OneLine (".construct " ++ c.name ++ "().V \x7b")
    simp [OneLine, h.name.noFeed]
  · simp [OneLine]
  · simp [OneLine]

theorem ClassCode.IsSpelled.oneLine {c : ClassCode} (h : c.IsSpelled) :
    ∀ s ∈ c.lines, OneLine s := by
  intro s hs
  simp only [ClassCode.lines, List.cons_append, List.nil_append, List.append_assoc, List.mem_cons,
    List.mem_append, List.mem_map, List.mem_flatMap, List.not_mem_nil, or_false] at hs
  rcases hs with rfl | ⟨v, hv, rfl⟩ | hs | ⟨m, hm, hs⟩ | rfl
  · exact h.oneLine_header
  · exact h.fields.oneLine hv
  · exact h.oneLine_constructorLines s hs
  · exact (h.methods m hm).oneLine s hs
  · simp [OneLine]

/-- The lines of a program. -/
def Program.lines (p : Program) : List String :=
  p.imports.map (fun path => s!"import {path};") ++ p.classes.flatMap (·.lines)

/-- The lines of the text are those that were written. -/
theorem Program.lines_text {p : Program} (h : p.IsSpelled) :
    Reading.lines p.text = p.lines.map String.toList := by
  refine lines_joined ?_
  intro s hs
  rcases List.mem_append.mp hs with hs | hs
  · obtain ⟨path, hpath, rfl⟩ := List.mem_map.mp hs
    show OneLine ("import " ++ path ++ ";")
    simp [OneLine, (h.imports path hpath).noFeed]
  · obtain ⟨c, hc, hs⟩ := List.mem_flatMap.mp hs
    exact (h.classes c hc).oneLine s hs

/-! ### The bodies of methods -/

theorem bodiesRead_append {text : List (List Char)} (h : ∀ line ∈ text, opensMethod line = false)
    (rest : List (List Char)) : bodiesRead (text ++ rest) = bodiesRead rest := by
  induction text with
  | nil => rfl
  | cons line text ih =>
    have hline := h line (List.mem_cons_self ..)
    rw [List.cons_append, bodiesRead, hline, if_neg Bool.false_ne_true]
    exact ih fun line' hline' => h line' (List.mem_cons_of_mem _ hline')

/-- Just these bodies are read in a text, whatever stands behind it, and no label stands
outside of them. -/
structure HasBodies (text : List (List Char)) (bodies : List (List (List Char))) : Prop where
  read : ∀ rest, bodiesRead (text ++ rest) = bodies ++ bodiesRead rest
  labels : labelsRead text = bodies.flatMap labelsRead

theorem hasBodies_nil : HasBodies [] [] := ⟨fun _ => rfl, rfl⟩

theorem HasBodies.append {text text' : List (List Char)} {bodies bodies' : List (List (List Char))}
    (h : HasBodies text bodies) (h' : HasBodies text' bodies') :
    HasBodies (text ++ text') (bodies ++ bodies') where
  read rest := by
    rw [List.append_assoc, h.read, h'.read, List.append_assoc]
  labels := by
    rw [labelsRead_append, h.labels, h'.labels, List.flatMap_append]

theorem hasBodies_flatMap {α : Type} {xs : List α} {f : α → List (List Char)}
    {g : α → List (List (List Char))} (h : ∀ x ∈ xs, HasBodies (f x) (g x)) :
    HasBodies (xs.flatMap f) (xs.flatMap g) := by
  induction xs with
  | nil => exact hasBodies_nil
  | cons x rest ih =>
    rw [List.flatMap_cons, List.flatMap_cons]
    exact (h x (List.mem_cons_self ..)).append (ih fun y hy => h y (List.mem_cons_of_mem _ hy))

/-- The line is neither the head of a method nor a label. -/
structure IsPlain (line : List Char) : Prop where
  opens : opensMethod line = false
  label : labelRead? line = none

theorem hasBodies_of_isPlain {text : List (List Char)} (h : ∀ line ∈ text, IsPlain line) :
    HasBodies text [] where
  read := bodiesRead_append fun line hline => (h line hline).opens
  labels := List.filterMap_eq_nil_iff.mpr fun line hline => (h line hline).label

theorem isPlain_of_getLast? {line : List Char} (hlabel : line.getLast? ≠ some ':')
    (hopens : line.getLast? ≠ some '\x7b') : IsPlain line where
  opens := by rw [opensMethod, beq_false_of_ne hopens, Bool.and_false]
  label := labelRead?_eq_none hlabel

/-- A line that ends in a semicolon. -/
theorem isPlain_of_semicolon (s : String) : IsPlain (s ++ ";").toList := by
  have hlast : (s ++ ";").toList.getLast? = some ';' := getLast?_append rfl
  apply isPlain_of_getLast?
  · rw [hlast]
    decide
  · rw [hlast]
    decide

/-- A line that opens a bracket, but does not begin as the head of a method does. -/
theorem isPlain_of_bracket {s : String} (hlast : s.toList.getLast? = some '\x7b')
    (hfront : ['.', 'm', 'e', 't', 'h', 'o', 'd', ' '].isPrefixOf s.toList = false) :
    IsPlain s.toList where
  opens := by rw [opensMethod, hfront, Bool.false_and]
  label := by
    apply labelRead?_eq_none
    rw [hlast]
    decide

/-- The lines of the body of a method. -/
def Method.bodyText (m : Method) : List (List Char) := m.body.map (·.text.toList)

theorem exists_header_eq (m : Method) :
    ∃ rest : String, m.header = ".method " ++ rest ++ " \x7b" := by
  refine ⟨(if m.isPublic then "public " else "") ++ (if m.isStatic then "static " else "") ++
    m.name ++ "(" ++ ", ".intercalate (m.parameters.map fun q => q.1 ++ q.2.text) ++ ")" ++
    m.result.text, ?_⟩
  simp only [← String.append_assoc]
  rfl

theorem getLast?_header (m : Method) : m.header.toList.getLast? = some '\x7b' := by
  obtain ⟨rest, hheader⟩ := exists_header_eq m
  rw [hheader]
  exact getLast?_append rfl

theorem opensMethod_header (m : Method) : opensMethod m.header.toList := by
  obtain ⟨rest, hheader⟩ := exists_header_eq m
  rw [opensMethod, getLast?_header, Bool.and_eq_true, List.isPrefixOf_iff_prefix, hheader]
  simp

/-- The body of a method is read up to the bracket that closes it. -/
theorem hasBodies_method (m : Method) : HasBodies (m.lines.map String.toList) [m.bodyText] := by
  have hlines : m.lines.map String.toList =
      [] :: m.header.toList :: (m.bodyText ++ [['\x7d']]) := by
    simp [Method.lines, Method.bodyText, Function.comp_def]
  have hlast : ∀ line ∈ m.bodyText, line.getLast? = some ':' ∨ line.getLast? = some ';' := by
    intro line hline
    obtain ⟨l, -, rfl⟩ := List.mem_map.mp hline
    rw [Line.getLast?_text]
    exact l.ending_cases.imp (congrArg some) (congrArg some)
  rw [hlines]
  constructor
  · intro rest
    -- no line of the body opens another method
    have hopens : ∀ line ∈ m.bodyText ++ [['\x7d']], opensMethod line = false := by
      intro line hline
      rcases List.mem_append.mp hline with hline | hline
      · rw [opensMethod]
        rcases hlast line hline with h | h <;> rw [h] <;> exact Bool.and_false _
      · rw [List.mem_singleton.mp hline]
        rfl
    -- the lines of the body end in a colon or a semicolon, so none of them is the bracket
    have hclose : ∀ line ∈ m.bodyText, decide (line ≠ ['\x7d']) = true := by
      intro line hline
      rw [decide_eq_true_eq]
      rintro rfl
      rcases hlast _ hline with h | h <;> exact absurd h (by decide)
    have hbody : ((m.bodyText ++ [['\x7d']]) ++ rest).takeWhile (· ≠ ['\x7d']) = m.bodyText := by
      rw [List.append_assoc, List.takeWhile_append_of_pos hclose, List.singleton_append,
        List.takeWhile_cons_of_neg (by decide), List.append_nil]
    rw [List.cons_append, bodiesRead, if_neg (by decide), List.cons_append, bodiesRead,
      if_pos (opensMethod_header m), hbody, bodiesRead_append hopens]
    rfl
  · have hheader : labelRead? m.header.toList = none := by
      apply labelRead?_eq_none
      rw [getLast?_header]
      decide
    have hbracket : labelsRead [['\x7d']] = [] := rfl
    have hbody : labelsRead (m.bodyText ++ [['\x7d']]) = labelsRead m.bodyText := by
      rw [labelsRead_append, hbracket, List.append_nil]
    rw [labelsRead, List.filterMap_cons_none rfl, List.filterMap_cons_none hheader,
      List.flatMap_singleton]
    exact hbody

/-- A name in front of a blank is no head of a method. -/
theorem isPrefixOf_of_noDot {name : List Char} (h : '.' ∉ name) (rest : List Char) :
    ['.', 'm', 'e', 't', 'h', 'o', 'd', ' '].isPrefixOf (name ++ ' ' :: rest) = false := by
  rcases name with - | ⟨c, name⟩
  · rfl
  · have hc : '.' ≠ c := fun heq => h (heq ▸ List.mem_cons_self ..)
    rw [List.cons_append, List.isPrefixOf, beq_false_of_ne hc, Bool.false_and]

theorem isPlain_header {c : ClassCode} (h : IsName c.name) : IsPlain c.header.toList := by
  rw [ClassCode.header]
  split
  · show IsPlain (c.name ++ " \x7b").toList
    apply isPlain_of_bracket (getLast?_append rfl)
    rw [String.toList_append]
    exact isPrefixOf_of_noDot h.noDot ['\x7b']
  · next superName _ =>
    have hlast : (c.name ++ " extends " ++ superName ++ " \x7b").toList.getLast? = some '\x7b' :=
      getLast?_append rfl
    refine isPlain_of_bracket hlast ?_
    simp only [String.toList_append, List.append_assoc]
    exact isPrefixOf_of_noDot h.noDot _

theorem isPlain_constructorLines (c : ClassCode) :
    ∀ s ∈ c.constructorLines, IsPlain s.toList := by
  intro s hs
  simp only [ClassCode.constructorLines, List.mem_cons, List.not_mem_nil, or_false] at hs
  rcases hs with rfl | rfl | rfl | rfl
  · exact isPlain_of_getLast? (by decide) (by decide)
  · show IsPlain (".construct " ++ c.name ++ "().V \x7b").toList
    apply isPlain_of_bracket (getLast?_append rfl)
    simp only [String.toList_append, List.append_assoc]
    rfl
  · exact isPlain_of_getLast? (by decide) (by decide)
  · exact isPlain_of_getLast? (by decide) (by decide)

theorem hasBodies_class {c : ClassCode} (h : IsName c.name) :
    HasBodies (c.lines.map String.toList) (c.methods.map Method.bodyText) := by
  have hfields : ∀ v ∈ c.fields, IsPlain (".field public " ++ v.1 ++ v.2.text ++ ";").toList :=
    fun v _ => isPlain_of_semicolon _
  -- in front of the methods and behind them nothing opens a method
  have hfront : HasBodies (([c.header] ++ c.fields.map (fun ((name, tag) : String × Tag) =>
      s!".field public {name}{tag};") ++ c.constructorLines).map String.toList) [] := by
    apply hasBodies_of_isPlain
    intro line hline
    obtain ⟨s, hs, rfl⟩ := List.mem_map.mp hline
    rcases List.mem_append.mp hs with hs | hs
    · rcases List.mem_append.mp hs with hs | hs
      · rw [List.mem_singleton.mp hs]
        exact isPlain_header h
      · obtain ⟨v, hv, rfl⟩ := List.mem_map.mp hs
        exact hfields v hv
    · exact isPlain_constructorLines c s hs
  have hmethods : HasBodies ((c.methods.flatMap (·.lines)).map String.toList)
      (c.methods.map Method.bodyText) := by
    rw [List.map_flatMap, List.map_eq_flatMap]
    exact hasBodies_flatMap fun m _ => hasBodies_method m
  have hend : HasBodies [['\x7d']] [] := by
    apply hasBodies_of_isPlain
    intro line hline
    rw [List.mem_singleton.mp hline]
    exact isPlain_of_getLast? (by decide) (by decide)
  have hall := (hfront.append hmethods).append hend
  rw [List.nil_append, List.append_nil] at hall
  rw [ClassCode.lines, List.map_append, List.map_append]
  exact hall

theorem hasBodies_program {p : Program} (h : p.IsSpelled) :
    HasBodies (p.lines.map String.toList) (p.methods.map Method.bodyText) := by
  have himports : HasBodies ((p.imports.map (fun path => s!"import {path};")).map String.toList)
      [] := by
    apply hasBodies_of_isPlain
    intro line hline
    obtain ⟨s, hs, rfl⟩ := List.mem_map.mp hline
    obtain ⟨path, -, rfl⟩ := List.mem_map.mp hs
    exact isPlain_of_semicolon ("import " ++ path)
  have hclasses : HasBodies ((p.classes.flatMap (·.lines)).map String.toList)
      (p.methods.map Method.bodyText) := by
    rw [List.map_flatMap, Program.methods, List.map_flatMap]
    exact hasBodies_flatMap fun c hc => hasBodies_class (h.classes c hc).name
  rw [Program.lines, List.map_append]
  exact himports.append hclasses

/-! ### Labels of a whole program -/

section Program

variable {d : Declarations} {root t : Tree} {c c' : Counters}

theorem bodies_append (ms ms' : List Method) : bodies (ms ++ ms') = bodies ms ++ bodies ms' :=
  List.flatMap_append

theorem landmarked_of_lowerMethod {m : Method} (h : (lowerMethod d t).run c = .ok (m, c')) :
    Landmarked c.labels c'.labels m.body := by
  obtain ⟨-, -, ls, hls, hbody⟩ := lowerMethod_eq_ok h
  rw [hbody]
  exact landmarked_body hls

theorem landmarked_of_lowerClass {code : ClassCode}
    (h : (lowerClass d t).run c = .ok (code, c')) :
    Landmarked c.labels c'.labels (bodies code.methods) := by
  obtain ⟨ms, c₁, hms, h⟩ := run_bind_eq_ok h
  obtain ⟨rfl, rfl⟩ := run_pure_eq_ok h
  refine run_mapM_induction (P := fun c ms c' => Landmarked c.labels c'.labels (bodies ms))
    (fun c => landmarked_of_eq_nil c.labels rfl rfl) ?_ hms
  intro u _ c c₁ c₂ m ms hm hrest
  rw [bodies, List.flatMap_cons]
  exact (landmarked_of_lowerMethod hm).append hrest

/-- The labels are numbered on from class to class. -/
theorem landmarked_of_ofTree {p : Program} (h : Program.ofTree d root = .ok p) :
    ∃ n, Landmarked 0 n (bodies p.methods) := by
  obtain ⟨c, hrun⟩ := exists_run_of_ofTree h
  obtain ⟨classes, c₁, hclasses, hrun⟩ := run_bind_eq_ok hrun
  obtain ⟨rfl, rfl⟩ := run_pure_eq_ok hrun
  refine ⟨c₁.labels, run_mapM_induction (P := fun c classes c' =>
    Landmarked c.labels c'.labels (bodies (classes.flatMap (·.methods))))
    (fun c => landmarked_of_eq_nil c.labels rfl rfl) ?_ hclasses⟩
  intro u _ c c₁ c₂ code classes hcode hrest
  rw [List.flatMap_cons, bodies_append]
  exact (landmarked_of_lowerClass hcode).append hrest

/-- The jumps of landmarked lines are resolved in their text. -/
theorem Landmarked.resolves {lo hi : Nat} {ls : List Line} (h : Landmarked lo hi ls)
    (hspelled : LinesIn .words ls) : Resolves (ls.map (·.text.toList)) := by
  have hperm := h.targets.map Label.text
  constructor
  · intro l hl
    rw [targetsRead_map_text hspelled] at hl
    rw [labelsRead_map_text]
    exact List.count_eq_one_of_mem (h.between.nodup.map Label.text_injective)
      (hperm.subset hl)
  · intro l hl
    rw [labelsRead_map_text] at hl
    rw [targetsRead_map_text hspelled]
    exact hperm.mem_iff.mpr hl

/-- **Labels.**  In the text of a program whose names, types and numerals are written as
such, no label stands twice.  All labels stand in the bodies of methods, every jump
leads to a label that stands once in the body of the jump, and every label is led to by
a jump of its own body. -/
theorem labels_resolve (hroot : Declarations.ofTree root = .ok d) (hspelled : root.Spelled)
    {p : Program} (hp : Program.ofTree d root = .ok p) :
    (labelsRead (lines p.text)).Nodup ∧
      bodiesRead (lines p.text) = p.methods.map Method.bodyText ∧
      labelsRead (lines p.text) = (bodiesRead (lines p.text)).flatMap labelsRead ∧
      ∀ body ∈ bodiesRead (lines p.text), Resolves body := by
  have hcode := isSpelled_of_ofTree hroot hspelled hp
  have hbodies := hasBodies_program hcode
  have hread : bodiesRead (p.lines.map String.toList) = p.methods.map Method.bodyText := by
    have hnothing := hbodies.read []
    rwa [List.append_nil, bodiesRead, List.append_nil] at hnothing
  rw [Program.lines_text hcode, hread]
  refine ⟨?_, rfl, hbodies.labels, ?_⟩
  -- numbers of labels run on through all methods, so the text has none twice
  · obtain ⟨n, hmarked⟩ := landmarked_of_ofTree hp
    have hlabels : labelsRead (p.lines.map String.toList) =
        (labels (bodies p.methods)).map Label.text := by
      rw [hbodies.labels, bodies, labels, List.filterMap_flatMap, List.map_flatMap,
        List.flatMap_map]
      exact congrArg p.methods.flatMap (funext fun m => labelsRead_map_text m.body)
    rw [hlabels]
    exact hmarked.between.nodup.map Label.text_injective
  -- and the jumps of a method go to the numbers that were given out in it
  · intro body hbody
    obtain ⟨m, hm, rfl⟩ := List.mem_map.mp hbody
    obtain ⟨t, -, c, c', hrun⟩ := exists_of_forall₂ (forall₂_methods hp).flip hm
    obtain ⟨code, hclass, hmethod⟩ := List.mem_flatMap.mp hm
    have hlines := (((hcode.classes code hclass).methods m hmethod)).body
    exact (landmarked_of_lowerMethod hrun).resolves hlines

end Program

/-! ### Branches and loops in two methods

Behind an import of `io.Console` stands this class:

    class Signal extends Device {
      int fade(int n) {
        while (0 < n) if (n < 5) n = n - 1; else n = n - 2;
        return n;
      }
      int pick(boolean up) {
        int r;
        if (up) r = 1; else r = 2;
        return r;
      }
    }
-/

def signal : Tree :=
  let int := (Form.typeName "int" false false).tree
  let name (x : String) := (Form.identifier x).tree
  let number (n : Int) := (Form.integer n).tree
  let less (n : Int) := (Form.assignment "n" (Form.arithmetic "-" (name "n") (number n)).tree).tree
  let fade := (Form.methodDecl "fade" int false
    [(Form.parameter "n" int).tree,
      (Form.loop (Form.logical "<" (number 0) (name "n")).tree
        (Form.conditional (Form.logical "<" (name "n") (number 5)).tree
          (less 1) (less 2)).tree).tree,
      (Form.returnStmt (some (name "n"))).tree]).tree
  let pick := (Form.methodDecl "pick" int false
    [(Form.parameter "up" (Form.typeName "boolean" false false).tree).tree,
      (Form.variableDecl "r" int).tree,
      (Form.conditional (name "up") (Form.assignment "r" (number 1)).tree
        (Form.assignment "r" (number 2)).tree).tree,
      (Form.returnStmt (some (name "r"))).tree]).tree
  (Form.program [(Form.importDecl "io.Console").tree,
    (Form.classDecl "Signal" (some "Device") [fade, pick]).tree]).tree

def signalDeclarations : Declarations :=
  ⟨"Signal", some "Device", ["io.Console"], [],
    [⟨"fade", .int, [⟨"n", .int⟩], [], false⟩,
      ⟨"pick", .int, [⟨"up", .boolean⟩], [⟨"r", .int⟩], false⟩]⟩

theorem labels_resolve_signal :
    ∃ p, Program.ofTree signalDeclarations signal = .ok p ∧
      (bodiesRead (lines p.text)).map labelsRead =
        [["while_cond_0", "while_body_0", "if_then_1", "if_end_1", "while_end_0"],
          ["if_then_2", "if_end_2"]] ∧
      (labelsRead (lines p.text)).Nodup ∧ ∀ body ∈ bodiesRead (lines p.text), Resolves body := by
  have hlabels : (Program.ofTree signalDeclarations signal).toOption.map
      (fun p => p.methods.map fun m => (labels m.body).map Label.text) =
        some [["while_cond_0", "while_body_0", "if_then_1", "if_end_1", "while_end_0"],
          ["if_then_2", "if_end_2"]] := by decide +kernel
  rcases hp : Program.ofTree signalDeclarations signal with fault | p
  · rw [hp] at hlabels
    nomatch hlabels
  · have hspelled : signal.Spelled := by decide +kernel
    obtain ⟨hnodup, hbodies, -, hresolves⟩ := labels_resolve rfl hspelled hp
    refine ⟨p, rfl, ?_, hnodup, hresolves⟩
    rw [hp] at hlabels
    rw [hbodies, List.map_map, ← Option.some.inj hlabels]
    exact List.map_congr_left fun m _ => labelsRead_map_text m.body

end JavaMinus.ThreeAddress
