/-
JavaMinus/Proofs/ThreeAddress/Mentions.lean

Texts that do not mention the object.

Three-address code names the object that a method works on by `this`.  A text is
clear if this word stands nowhere in it, not even inside of another one.  Texts are
put together with marks between them, characters that are not in the word, and then
the word cannot come about where two texts meet (`Clear.join`).  So code that is
written in the vocabulary of clear texts, which does not have the object, is clear
(`Line.IsIn.clear`, `Method.IsIn.clear`).  The other way round, a line
that reads or writes a field, calls a method of the object or has the object for an
operand is not clear (`usesObject_eq_false_of_clear`).
-/
import JavaMinus.Proofs.ThreeAddress.Reading
import JavaMinus.Proofs.ThreeAddress.Wording

namespace JavaMinus

namespace ThreeAddress

/-- The word `this` stands nowhere in the text. -/
def Clear (s : String) : Prop := ¬ "this".toList <:+: s.toList

/-- Whether some letter of the word stands nowhere in the text.  Such a text is clear, and
of a text that is given this is decided letter by letter. -/
def lacksLetter (s : String) : Bool := "this".toList.any (!s.toList.contains ·)

theorem clear_of_lacksLetter {s : String} (h : lacksLetter s) : Clear s := by
  obtain ⟨c, hc, hlacks⟩ := List.any_eq_true.mp h
  intro hword
  rw [List.contains_iff_mem.mpr (hword.subset hc)] at hlacks
  nomatch hlacks

/-! ### Marks -/

/-- A word stands on one side of a character that is not in it. -/
theorem infix_of_append_cons {w a b : List Char} {c : Char} (hc : c ∉ w)
    (h : w <:+: a ++ c :: b) : w <:+: a ∨ w <:+: b := by
  have hcons : ∀ {v : List Char}, v <+: c :: b → c ∉ v → v = [] := by
    intro v hv hcv
    rcases List.prefix_cons_iff.mp hv with rfl | ⟨t, rfl, -⟩
    · rfl
    · exact absurd (List.mem_cons_self ..) hcv
  rcases List.infix_append_iff.mp h with h | h | ⟨u, v, rfl, hu, hv⟩
  · exact Or.inl h
  · rcases List.infix_cons_iff.mp h with h | h
    · rw [hcons h hc]
      exact Or.inl (List.nil_infix)
    · exact Or.inr h
  · -- what stands on the right of the two parts is empty
    rw [hcons hv fun hmem => hc (List.mem_append_right _ hmem), List.append_nil]
    exact Or.inl hu.isInfix

/-- A character that is not in the word `this`. -/
def isMark (c : Char) : Bool := !"this".toList.contains c

theorem not_mem_of_isMark {c : Char} (h : isMark c) : c ∉ "this".toList := by
  intro hmem
  rw [isMark, List.contains_iff_mem.mpr hmem] at h
  nomatch h

/-- A text that ends in a mark and lacks a letter of the word. -/
def endsInMark (l : String) : Bool := l.toList.getLast?.any isMark && lacksLetter l

/-- A text that begins with a mark as well. -/
def isMarked (l : String) : Bool := l.toList.head?.any isMark && endsInMark l

namespace Clear

variable {a b l : String}

theorem opened (hl : endsInMark l) (hb : Clear b) : Clear (l ++ b) := by
  obtain ⟨hlast, hclear⟩ := Bool.and_eq_true_iff.mp hl
  have hclear := clear_of_lacksLetter hclear
  obtain ⟨c, hget, hc⟩ := (Option.any_eq_true _ _).mp hlast
  obtain ⟨front, hfront⟩ := List.getLast?_eq_some_iff.mp hget
  intro h
  -- the word stands in front of the mark or behind it
  rw [String.toList_append, hfront, List.append_assoc, List.singleton_append] at h
  rcases infix_of_append_cons (not_mem_of_isMark hc) h with h | h
  · apply hclear
    rw [hfront]
    exact h.trans (List.prefix_append _ _).isInfix
  · exact hb h

/-- Two clear texts with a marked one between them. -/
theorem join (ha : Clear a) (hl : isMarked l) (hb : Clear b) : Clear (a ++ l ++ b) := by
  obtain ⟨hhead, hlast⟩ := Bool.and_eq_true_iff.mp hl
  obtain ⟨c, hget, hc⟩ := (Option.any_eq_true _ _).mp hhead
  obtain ⟨rest, hrest⟩ := List.head?_eq_some_iff.mp hget
  have htail := opened hlast hb
  intro h
  rw [String.append_assoc, String.toList_append, String.toList_append, hrest,
    List.cons_append] at h
  rcases infix_of_append_cons (not_mem_of_isMark hc) h with h | h
  · exact ha h
  · apply htail
    rw [String.toList_append, hrest, List.cons_append]
    exact h.trans (List.suffix_cons _ _).isInfix

theorem closed (ha : Clear a) (hl : isMarked l) : Clear (a ++ l) := by
  have h := join ha hl (clear_of_lacksLetter (s := "") (by decide))
  rwa [String.append_empty] at h

/-- A tag begins with a dot. -/
theorem tagged {tag : Tag} (ha : Clear a) (htag : Clear tag.text) : Clear (a ++ tag.text) := by
  obtain ⟨rest, hrest⟩ := tag.text_eq_cons
  intro h
  rw [String.toList_append, hrest] at h
  rcases infix_of_append_cons (show '.' ∉ "this".toList by decide) h with h | h
  · exact ha h
  · apply htag
    rw [hrest]
    exact h.trans (List.suffix_cons _ _).isInfix

/-- A number behind a clear text. -/
theorem numbered (ha : Clear a) (n : Nat) : Clear (a ++ n.repr) := by
  -- the first digit is as good as a mark, and the others hold no letter
  have hdigit : ∀ c ∈ n.repr.toList, c ∉ "this".toList := by
    intro c hc hmem
    rw [Nat.toList_repr] at hc
    have hdigit := Nat.isDigit_of_mem_toDigits (by decide) (by decide) hc
    have hword : "this".toList.all (!·.isDigit) := rfl
    have hletter := List.all_eq_true.mp hword c hmem
    rw [hdigit] at hletter
    nomatch hletter
  intro h
  rw [String.toList_append] at h
  rcases e : n.repr.toList with - | ⟨c, rest⟩
  · rw [e, List.append_nil] at h
    exact ha h
  · rw [e] at h hdigit
    rcases infix_of_append_cons (hdigit c (List.mem_cons_self ..)) h with h | h
    · exact ha h
    · have hmem := h.subset (show 't' ∈ "this".toList by decide)
      exact hdigit 't' (List.mem_cons_of_mem _ hmem) (by decide)

end Clear

theorem clear_empty : Clear "" := clear_of_lacksLetter (by decide)

/-- Texts behind another one, with a marked one in front of each. -/
theorem Clear.joinAll {a l : String} (ha : Clear a) (hl : isMarked l) {bs : List String}
    (hbs : ∀ b ∈ bs, Clear b) : Clear (a ++ String.join (bs.map (l ++ ·))) := by
  induction bs generalizing a with
  | nil => rwa [List.map_nil, String.join_nil, String.append_empty]
  | cons b rest ih =>
    rw [List.map_cons, String.join_cons, ← String.append_assoc, ← String.append_assoc]
    exact ih (ha.join hl (hbs b (List.mem_cons_self ..)))
      fun b' hb' => hbs b' (List.mem_cons_of_mem _ hb')

/-- Texts with a marked one between any two. -/
theorem clear_intercalate {l : String} (hl : isMarked l) {bs : List String}
    (hbs : ∀ b ∈ bs, Clear b) : Clear (l.intercalate bs) := by
  induction bs with
  | nil => exact clear_empty
  | cons b rest ih =>
    have hb := hbs b (List.mem_cons_self ..)
    rcases rest with - | ⟨b', rest⟩
    · rwa [String.intercalate_singleton]
    · rw [String.intercalate_cons_cons]
      exact hb.join hl (ih fun u hu => hbs u (List.mem_cons_of_mem _ hu))

theorem clear_ofLines {ls : List String} (h : ∀ l ∈ ls, Clear l) : Clear (ofLines ls) := by
  induction ls with
  | nil => exact clear_empty
  | cons l rest ih =>
    have hl := h l (List.mem_cons_self ..)
    rw [ofLines, List.map_cons, String.join_cons]
    exact hl.join (l := "\n") (by decide) (ih fun l' hl' => h l' (List.mem_cons_of_mem _ hl'))

end ThreeAddress

/-! ### Clear code -/

open ThreeAddress
/-- The vocabulary of all clear texts, without the object. -/
def Vocabulary.clear : Vocabulary where
  Has := Clear
  object := False
  nameless := clear_empty
  int := clear_of_lacksLetter (by decide)
  boolean := clear_of_lacksLetter (by decide)
  void := clear_of_lacksLetter (by decide)
  number n := by
    have h := clear_empty.numbered n
    rwa [String.empty_append] at h

namespace ThreeAddress

theorem Tag.IsIn.clear {tag : Tag} (h : tag.IsIn .clear) : Clear tag.text := by
  induction tag with
  | i32 | bool | void => exact clear_of_lacksLetter (by decide)
  | object name =>
    show Clear ("." ++ name)
    exact .opened (by decide) h
  | array element ih =>
    show Clear (".array" ++ element.text)
    exact .tagged (clear_of_lacksLetter (by decide)) (ih h)

theorem Cell.IsIn.clear {c : Cell} (h : c.IsIn .clear) : Clear c.text := by
  cases c with
  | temporary n =>
    show Clear ("t" ++ n.repr)
    exact .numbered (clear_of_lacksLetter (by decide)) n
  | named name => exact h

theorem Operand.IsIn.clear {x : Operand} (h : x.IsIn .clear) : Clear x.text := by
  cases x with
  | cell c tag =>
    show Clear (c.text ++ tag.text)
    exact h.1.clear.tagged h.2.clear
  | number digits =>
    show Clear (digits ++ ".i32")
    exact Clear.closed h (by decide)
  | truth value => cases value <;> exact clear_of_lacksLetter (by decide)
  | self className => exact h.1.elim
  | classRef name => exact h

theorem clear_bare {x : Operand} (h : Clear x.text) : Clear x.bare := by
  intro hword
  have hprefix : x.bare.toList <+: x.text.toList := by
    rw [Operand.bare, QualifiedName.firstSegment, String.toList_ofList]
    exact List.takeWhile_prefix _
  exact h (hword.trans hprefix.isInfix)

theorem Invocation.IsIn.clear {i : Invocation} (h : i.IsIn .clear) : Clear i.text := by
  obtain ⟨receiver, method, arguments, result⟩ := i
  obtain ⟨hreceiver, hmethod, harguments, hresult⟩ := h
  -- what stands behind the receiver is the same for all of them
  have hbehind : ∀ {call : String}, Clear call → Clear (call ++ ", \"" ++ method ++ "\"" ++
      String.join (arguments.map fun x => ", " ++ x.text) ++ ")" ++ result.text) := by
    intro call hcall
    have hnamed := (hcall.join (l := ", \"") (by decide) hmethod).closed (l := "\"") (by decide)
    have htexts : ∀ b ∈ arguments.map (·.text), Clear b := by
      intro b hb
      obtain ⟨x, hx, rfl⟩ := List.mem_map.mp hb
      exact (harguments x hx).clear
    have hall := hnamed.joinAll (l := ", ") (by decide) htexts
    rw [List.map_map] at hall
    exact (hall.closed (l := ")") (by decide)).tagged hresult.clear
  cases receiver with
  | classRef name => exact hbehind (Clear.opened (l := "invokestatic(") (by decide) hreceiver)
  | self => exact hreceiver.elim
  | object x =>
    have hx : Clear x.text := Operand.IsIn.clear hreceiver
    exact hbehind (Clear.opened (l := "invokevirtual(") (by decide) hx)

theorem Source.IsIn.clear {source : Source} (h : source.IsIn .clear) : Clear source.text := by
  cases source with
  | operand x => exact Operand.IsIn.clear h
  | arithmetic op x y =>
    show Clear (x.text ++ " " ++ op.symbol ++ ".i32 " ++ y.text)
    have hop : Clear op.symbol := by cases op <;> exact clear_of_lacksLetter (by decide)
    exact (h.1.clear.join (by decide) hop).join (by decide) h.2.clear
  | logical op x y =>
    show Clear (x.text ++ " " ++ op.symbol ++ ".bool " ++ y.text)
    have hop : Clear op.symbol := by
      rcases op with op | op <;> cases op <;> exact clear_of_lacksLetter (by decide)
    exact (h.1.clear.join (by decide) hop).join (by decide) h.2.clear
  | fieldRead name tag => exact h.1.elim
  | call i => exact Invocation.IsIn.clear h
  | newArray x tag =>
    show Clear ("new(array, " ++ x.text ++ ")" ++ tag.text)
    exact ((Clear.opened (by decide) h.1.clear).closed (by decide)).tagged h.2.clear
  | newObject name =>
    show Clear ("new(" ++ name ++ ")." ++ name)
    exact (Clear.opened (by decide) h).join (by decide) h
  | length x =>
    show Clear ("arraylength(" ++ x.text ++ ").i32")
    exact (Clear.opened (by decide) (Operand.IsIn.clear h)).closed (by decide)
  | element x y tag =>
    show Clear (x.bare ++ "[" ++ y.text ++ "]" ++ tag.text)
    obtain ⟨hx, hy, htag⟩ := h
    exact (((clear_bare hx.clear).join (by decide) hy.clear).closed (by decide)).tagged htag.clear

theorem clear_label (l : Label) : Clear l.text := by
  show Clear (l.landmark.text ++ l.number.repr)
  refine .numbered ?_ _
  cases l.landmark <;> exact clear_of_lacksLetter (by decide)

/-- A line that is written with clear names and without the object. -/
theorem Line.IsIn.clear {l : Line} (h : l.IsIn .clear) : Clear l.text := by
  cases l with
  | label l =>
    show Clear (l.text ++ ":")
    exact (clear_label l).closed (by decide)
  | assign c tag source =>
    show Clear (c.text ++ tag.text ++ " :=" ++ tag.text ++ " " ++ source.text ++ ";")
    obtain ⟨hc, htag, hsource⟩ := h
    have htarget := ((hc.clear.tagged htag.clear).closed (l := " :=") (by decide)).tagged htag.clear
    exact (htarget.join (by decide) hsource.clear).closed (by decide)
  | store c x tag y =>
    show Clear (c.text ++ "[" ++ x.text ++ "]" ++ tag.text ++ " :=" ++ tag.text ++ " " ++
      y.text ++ ";")
    obtain ⟨hc, hx, htag, hy⟩ := h
    have hcell := (hc.clear.join (l := "[") (by decide) hx.clear).closed (l := "]") (by decide)
    have htarget := ((hcell.tagged htag.clear).closed (l := " :=") (by decide)).tagged htag.clear
    exact (htarget.join (by decide) hy.clear).closed (by decide)
  | fieldWrite name tag x => exact h.1.elim
  | call i =>
    show Clear (i.text ++ ";")
    exact (Invocation.IsIn.clear h).closed (by decide)
  | construct x =>
    show Clear ("invokespecial(" ++ x.text ++ ", \"<init>\").V;")
    exact (Clear.opened (by decide) (Operand.IsIn.clear h)).closed (by decide)
  | branch x l =>
    show Clear ("if (" ++ x.text ++ ") goto " ++ l.text ++ ";")
    have hcondition := Clear.opened (l := "if (") (by decide) (Operand.IsIn.clear h)
    exact (hcondition.join (by decide) (clear_label l)).closed (by decide)
  | jump l =>
    show Clear ("goto " ++ l.text ++ ";")
    exact (Clear.opened (by decide) (clear_label l)).closed (by decide)
  | ret tag x =>
    have hret : Clear "ret" := clear_of_lacksLetter (by decide)
    cases x with
    | none =>
      show Clear ("ret" ++ tag.text ++ ";")
      exact (hret.tagged (Tag.IsIn.clear h)).closed (by decide)
    | some x =>
      show Clear ("ret" ++ tag.text ++ " " ++ x.text ++ ";")
      exact ((hret.tagged h.1.clear).join (by decide) h.2.clear).closed (by decide)

theorem Method.IsIn.clear_header {m : Method} (h : m.IsIn .clear) : Clear m.header := by
  show Clear (".method " ++ (if m.isPublic then "public " else "") ++
    (if m.isStatic then "static " else "") ++ m.name ++ "(" ++
    ", ".intercalate (m.parameters.map fun p => p.1 ++ p.2.text) ++ ")" ++ m.result.text ++ " \x7b")
  have hname : Clear m.name := h.name
  have hlist : Clear (", ".intercalate (m.parameters.map fun p => p.1 ++ p.2.text)) := by
    apply clear_intercalate (by decide)
    intro b hb
    obtain ⟨p, hp, rfl⟩ := List.mem_map.mp hb
    obtain ⟨hparameter, htag⟩ := h.parameters p hp
    exact Clear.tagged hparameter htag.clear
  -- the words for the access are in front of the name or are missing
  have hfront : Clear (".method " ++ (if m.isPublic then "public " else "") ++
      (if m.isStatic then "static " else "") ++ m.name) := by
    rw [String.append_assoc, String.append_assoc]
    refine .opened (by decide) ?_
    have hstatic : Clear ((if m.isStatic then "static " else "") ++ m.name) := by
      split
      · exact .opened (by decide) hname
      · rwa [String.empty_append]
    split
    · exact .opened (by decide) hstatic
    · rwa [String.empty_append]
  exact (((hfront.join (l := "(") (by decide) hlist).closed (l := ")") (by decide)).tagged
    h.result.clear).closed (by decide)

/-- A method that is written with clear names and without the object. -/
theorem Method.IsIn.clear {m : Method} (h : m.IsIn .clear) : Clear m.text := by
  apply clear_ofLines
  intro l hl
  simp only [Method.lines, List.cons_append, List.nil_append, List.mem_cons, List.mem_append,
    List.mem_map, List.not_mem_nil, or_false] at hl
  rcases hl with rfl | rfl | ⟨line, hline, rfl⟩ | rfl
  · exact clear_empty
  · exact h.clear_header
  · exact (h.body line hline).clear
  · exact clear_of_lacksLetter (by decide)

/-! ### Uses of the object -/

def Operand.isSelf : Operand → Bool
  | .self _ => true
  | .cell .. | .number _ | .truth _ | .classRef _ => false

def Receiver.usesObject : Receiver → Bool
  | .classRef _ => false
  | .self => true
  | .object x => x.isSelf

def Invocation.usesObject (i : Invocation) : Bool :=
  i.receiver.usesObject || i.arguments.any (·.isSelf)

/-- Whether a source needs the object that the method works on: it reads a field, makes
a call on the object, or has it for an operand. -/
def Source.usesObject : Source → Bool
  | .operand x | .newArray x _ | .length x => x.isSelf
  | .arithmetic _ x y | .logical _ x y | .element x y _ => x.isSelf || y.isSelf
  | .fieldRead .. => true
  | .call i => i.usesObject
  | .newObject _ => false

/-- Whether a line needs the object that the method works on. -/
def Line.usesObject : Line → Bool
  | .assign _ _ source => source.usesObject
  | .store _ i _ x => i.isSelf || x.isSelf
  | .fieldWrite .. => true
  | .call i => i.usesObject
  | .construct x | .branch x _ | .ret _ (some x) => x.isSelf
  | .label _ | .jump _ | .ret _ none => false

theorem Clear.left {a b : String} (h : Clear (a ++ b)) : Clear a := by
  intro hword
  apply h
  rw [String.toList_append]
  exact hword.trans (List.prefix_append _ _).isInfix

theorem Clear.right {a b : String} (h : Clear (a ++ b)) : Clear b := by
  intro hword
  apply h
  rw [String.toList_append]
  exact hword.trans (List.suffix_append _ _).isInfix

theorem Clear.of_join {bs : List String} (h : Clear (String.join bs)) : ∀ b ∈ bs, Clear b := by
  induction bs with
  | nil => exact List.forall_mem_nil _
  | cons b rest ih =>
    rw [String.join_cons] at h
    exact List.forall_mem_cons.mpr ⟨h.left, ih h.right⟩

/-- The lines of a method that is written clear. -/
theorem clear_of_mem_body {m : Method} (h : Clear m.text) {l : Line} (hl : l ∈ m.body) :
    Clear l.text := by
  have hline : l.text ++ "\n" ∈ m.lines.map (· ++ "\n") := by
    apply List.mem_map_of_mem
    simp only [Method.lines, List.mem_append, List.mem_map]
    exact Or.inl (Or.inr ⟨l, hl, rfl⟩)
  exact (h.of_join _ hline).left

/-- What is written around the word. -/
theorem not_clear_of_eq {s : String} (front back : String)
    (h : s.toList = front.toList ++ "this".toList ++ back.toList) : ¬ Clear s :=
  fun hclear => hclear ⟨front.toList, back.toList, h.symm⟩

/-- The object is written as such, whether with its tag or without. -/
theorem isSelf_eq_false_of_bare {x : Operand} (h : Clear x.bare) : x.isSelf = false := by
  cases x with
  | self className =>
    have hbare : (Operand.self className).bare = "this" := by
      show String.ofList (("this." ++ className).toList.takeWhile (decide <| · ≠ '.')) = "this"
      rw [String.toList_append]
      rfl
    rw [hbare] at h
    exact absurd h (not_clear_of_eq "" "" rfl)
  | _ => rfl

theorem isSelf_eq_false_of_clear {x : Operand} (h : Clear x.text) : x.isSelf = false :=
  isSelf_eq_false_of_bare (clear_bare h)

theorem Invocation.usesObject_eq_false {i : Invocation} (h : Clear i.text) :
    i.usesObject = false := by
  obtain ⟨receiver, method, arguments, result⟩ := i
  have hparts : ∀ {c : String}, Clear (c ++ ", \"" ++ method ++ "\"" ++
      String.join (arguments.map fun x => ", " ++ x.text) ++ ")" ++ result.text) →
      Clear c ∧ arguments.any (·.isSelf) = false := by
    intro c hcall
    refine ⟨hcall.left.left.left.left.left.left, List.any_eq_false.mpr ?_⟩
    intro x hx
    have hargument := hcall.left.left.right.of_join _ (List.mem_map_of_mem hx)
    rw [isSelf_eq_false_of_clear hargument.right]
    exact Bool.false_ne_true
  cases receiver with
  | classRef name => exact (hparts (c := "invokestatic(" ++ name) h).2
  | self =>
    have hcall := (hparts (c := "invokevirtual(this") h).1
    exact absurd hcall (not_clear_of_eq "invokevirtual(" "" rfl)
  | object x =>
    obtain ⟨hcall, harguments⟩ := hparts (c := "invokevirtual(" ++ x.text) h
    exact Bool.or_eq_false_iff.mpr ⟨isSelf_eq_false_of_clear hcall.right, harguments⟩

theorem Source.usesObject_eq_false {source : Source} (h : Clear source.text) :
    source.usesObject = false := by
  cases source with
  | operand x => exact isSelf_eq_false_of_clear h
  | newArray x tag =>
    change Clear ("new(array, " ++ x.text ++ ")" ++ tag.text) at h
    exact isSelf_eq_false_of_clear h.left.left.right
  | length x =>
    change Clear ("arraylength(" ++ x.text ++ ").i32") at h
    exact isSelf_eq_false_of_clear h.left.right
  | arithmetic op x y =>
    change Clear (x.text ++ " " ++ op.symbol ++ ".i32 " ++ y.text) at h
    exact Bool.or_eq_false_iff.mpr
      ⟨isSelf_eq_false_of_clear h.left.left.left.left, isSelf_eq_false_of_clear h.right⟩
  | logical op x y =>
    change Clear (x.text ++ " " ++ op.symbol ++ ".bool " ++ y.text) at h
    exact Bool.or_eq_false_iff.mpr
      ⟨isSelf_eq_false_of_clear h.left.left.left.left, isSelf_eq_false_of_clear h.right⟩
  | element x y tag =>
    change Clear (x.bare ++ "[" ++ y.text ++ "]" ++ tag.text) at h
    exact Bool.or_eq_false_iff.mpr
      ⟨isSelf_eq_false_of_bare h.left.left.left.left, isSelf_eq_false_of_clear h.left.left.right⟩
  | fieldRead name tag =>
    change Clear ("getfield(this, " ++ name ++ tag.text ++ ")" ++ tag.text) at h
    exact absurd h.left.left.left.left (not_clear_of_eq "getfield(" ", " rfl)
  | call i => exact Invocation.usesObject_eq_false h
  | newObject name => rfl

/-- A line that needs the object mentions it. -/
theorem usesObject_eq_false_of_clear {l : Line} (h : Clear l.text) : l.usesObject = false := by
  cases l with
  | label _ | jump _ => rfl
  | assign c tag source =>
    change Clear (c.text ++ tag.text ++ " :=" ++ tag.text ++ " " ++ source.text ++ ";") at h
    exact Source.usesObject_eq_false h.left.right
  | store c x tag y =>
    change Clear (c.text ++ "[" ++ x.text ++ "]" ++ tag.text ++ " :=" ++ tag.text ++ " " ++
      y.text ++ ";") at h
    exact Bool.or_eq_false_iff.mpr
      ⟨isSelf_eq_false_of_clear h.left.left.left.left.left.left.left.right,
        isSelf_eq_false_of_clear h.left.right⟩
  | fieldWrite name tag x =>
    change Clear ("putfield(this, " ++ name ++ tag.text ++ ", " ++ x.text ++ ").V;") at h
    exact absurd h.left.left.left.left.left
      (not_clear_of_eq "putfield(" ", " rfl)
  | call i =>
    change Clear (i.text ++ ";") at h
    exact Invocation.usesObject_eq_false h.left
  | construct x =>
    change Clear ("invokespecial(" ++ x.text ++ ", \"<init>\").V;") at h
    exact isSelf_eq_false_of_clear h.left.right
  | branch x l =>
    change Clear ("if (" ++ x.text ++ ") goto " ++ l.text ++ ";") at h
    exact isSelf_eq_false_of_clear h.left.left.left.right
  | ret tag x =>
    rcases x with - | x
    · rfl
    · change Clear ("ret" ++ tag.text ++ " " ++ x.text ++ ";") at h
      exact isSelf_eq_false_of_clear h.left.right

end ThreeAddress

end JavaMinus
