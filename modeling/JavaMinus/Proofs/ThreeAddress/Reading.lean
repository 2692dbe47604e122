/-
JavaMinus/Proofs/ThreeAddress/Reading.lean

Reading three-address code back from its text.

A line is a label or one of five instructions:

    d.T :=.T v;            if (c) goto L;
    d.T :=.T a op.T b;     goto L;
                           ret.T v;

What is read knows nothing of where a name came from: a temporary and a
variable of the program that are written alike are one variable to the
reader.  Main statement: the text of a method is read as the instructions that
its lines stand for (`read?_text`), if the names in it are names and its
numerals are numerals (`Line.Legible`).
-/
import JavaMinus.Proofs.Evaluation
import JavaMinus.ThreeAddress.Text

namespace JavaMinus.ThreeAddress

open Reading

/-! ### What is read -/

/-- What an instruction works on: a value as it stands, or a variable. -/
inductive Atom where
  | constant (value : Scalar)
  | variable (name : String)
  deriving DecidableEq, Inhabited, Repr

/-- What an instruction does to two values. -/
inductive Operation where
  | arithmetic (operator : ArithmeticOperator)
  | logical (operator : LogicalOperator)
  deriving DecidableEq, Inhabited, Repr

/-- An instruction, or a label. -/
inductive Instruction where
  | label (name : String)
  | move (target : String) (value : Atom)
  | operate (target : String) (operation : Operation) (left right : Atom)
  | branch (condition : Atom) (target : String)
  | jump (target : String)
  | ret (value : Option Atom)
  deriving DecidableEq, Inhabited, Repr

/-! ### The reader -/

/-- What stands in front of the tag. -/
def untagged (w : List Char) : List Char := w.takeWhile (· ≠ '.')

/-- The tag, with the dot in front of it. -/
def tagOf (w : List Char) : List Char := w.dropWhile (· ≠ '.')

/-- A value is known by the digit or the minus that it begins with. -/
def beginsNumeral (w : List Char) : Bool := w.head?.any fun c => c.isDigit || c == '-'

def Atom.read? (w : List Char) : Option Atom :=
  if beginsNumeral w then
    (int32? (untagged w)).map fun v =>
      .constant (if tagOf w = ['.', 'b', 'o', 'o', 'l'] then .truth (v ≠ 0) else .number v)
  else some (.variable (String.ofList (untagged w)))

/-- The symbol of an operation, behind which its tag is written. -/
def Operation.read? (w : List Char) : Option Operation :=
  let symbol := String.ofList (untagged w)
  match ArithmeticOperator.ofSymbol? symbol with
  | some op => some (.arithmetic op)
  | none => (LogicalOperator.ofSymbol? symbol).map .logical

/-- What stands between a pair of brackets. -/
def bracketed? : List Char → Option (List Char)
  | '(' :: w => endedBy? ')' w
  | _ => none

/-- A row of words as an instruction. -/
def Instruction.ofWords? : List (List Char) → Option Instruction
  | [w] =>
    match endedBy? ':' w with
    | some name => some (.label (String.ofList name))
    | none => if ['r', 'e', 't', '.'].isPrefixOf w then some (.ret none) else none
  | [w, x] =>
    if w = ['g', 'o', 't', 'o'] then (endedBy? ';' x).map fun l => .jump (String.ofList l)
    else if ['r', 'e', 't', '.'].isPrefixOf w then do
      let value ← Atom.read? (← endedBy? ';' x)
      pure (.ret (some value))
    else none
  | [d, sign, x] =>
    if [':', '=', '.'].isPrefixOf sign then do
      let value ← Atom.read? (← endedBy? ';' x)
      pure (.move (String.ofList (untagged d)) value)
    else none
  | [w, c, w', l] =>
    if w = ['i', 'f'] ∧ w' = ['g', 'o', 't', 'o'] then do
      let condition ← Atom.read? (← bracketed? c)
      let target ← endedBy? ';' l
      pure (.branch condition (String.ofList target))
    else none
  | [d, sign, x, op, y] =>
    if [':', '=', '.'].isPrefixOf sign then do
      let left ← Atom.read? x
      let operation ← Operation.read? op
      let right ← Atom.read? (← endedBy? ';' y)
      pure (.operate (String.ofList (untagged d)) operation left right)
    else none
  | _ => none

/-- A line as an instruction. -/
def Instruction.read? (line : List Char) : Option Instruction := ofWords? (words line)

/-- The text of a method as its instructions.  In front of them stand an empty
line and the head of the method, and behind them the bracket that ends it. -/
def readMethod? (text : String) : Option (List Instruction) :=
  (((lines text).drop 2).dropLast).mapM Instruction.read?

/-! ### What is written -/

/-- The text of a method. -/
def Method.text (m : Method) : String := ofLines m.lines

/-- What an operand stands for. -/
def Operand.atom? : Operand → Option Atom
  | cell c _ => some (.variable c.text)
  | number digits => (int32? digits.toList).map fun v => .constant (.number v)
  | truth value => some (.constant (.truth value))
  | self _ | classRef _ => none

/-- What a line stands for. -/
def Line.instruction? : Line → Option Instruction
  | label l => some (.label l.text)
  | assign c _ (.operand x) => x.atom?.map (.move c.text)
  | assign c _ (.arithmetic op x y) => do
    pure (.operate c.text (.arithmetic op) (← x.atom?) (← y.atom?))
  | assign c _ (.logical op x y) => do
    pure (.operate c.text (.logical op) (← x.atom?) (← y.atom?))
  | branch c l => c.atom?.map (.branch · l.text)
  | jump l => some (.jump l.text)
  | ret _ none => some (.ret none)
  | ret _ (some x) => x.atom?.map (.ret ∘ some)
  | _ => none

/-- The instructions that lines stand for. -/
def instructions (ls : List Line) : List Instruction := ls.filterMap Line.instruction?

@[simp] theorem instructions_append (ls ls' : List Line) :
    instructions (ls ++ ls') = instructions ls ++ instructions ls' :=
  List.filterMap_append

/-! ### Names and tags -/

/-- What the reader takes for a name: it has no blank, no line feed and no dot
in it, and does not begin as a number does.  Every identifier is of this
kind. -/
structure IsName (s : String) : Prop where
  begins : beginsNumeral s.toList = false
  noBlank : ' ' ∉ s.toList
  noFeed : '\n' ∉ s.toList
  noDot : '.' ∉ s.toList

theorem IsName.solid {s : String} (h : IsName s) : Solid s.toList := ⟨h.noBlank, h.noFeed⟩

theorem isName_temporary (n : Nat) : IsName (Cell.temporary n).text := by
  have hchars : (Cell.temporary n).text.toList = 't' :: Nat.toDigits 10 n := by
    show ("t" ++ n.repr).toList = _
    rw [String.toList_append, Nat.toList_repr]
    rfl
  have hdigit : ∀ c ∈ Nat.toDigits 10 n, c.isDigit := fun c hc =>
    Nat.isDigit_of_mem_toDigits (by decide) (by decide) hc
  have hnot : ∀ c : Char, c.isDigit = false → c ≠ 't' → c ∉ 't' :: Nat.toDigits 10 n := by
    intro c hc ht hmem
    rcases List.mem_cons.mp hmem with rfl | hmem
    · exact ht rfl
    · rw [hdigit c hmem] at hc
      exact Bool.noConfusion hc
  constructor <;> rw [hchars]
  · rfl
  all_goals exact hnot _ (by decide) (by decide)

/-- The tags of numbers and of truth values. -/
def Tag.IsScalar (t : Tag) : Prop := t = .i32 ∨ t = .bool

theorem Tag.IsScalar.solid {t : Tag} (h : t.IsScalar) : Solid t.text.toList := by
  rcases h with rfl | rfl <;> exact ⟨by decide, by decide⟩

/-- Every tag is written with a dot in front. -/
theorem Tag.text_eq_cons (t : Tag) : ∃ w, t.text.toList = '.' :: w := by
  cases t with
  | i32 | bool | void => exact ⟨_, rfl⟩
  | object name => exact ⟨name.toList, by rw [Tag.text, String.toList_append]; rfl⟩
  | array element =>
    exact ⟨"array".toList ++ element.text.toList, by rw [Tag.text, String.toList_append]; rfl⟩

/-- A name ends where its tag begins. -/
theorem untagged_append {w : List Char} (h : '.' ∉ w) (t : Tag) :
    untagged (w ++ t.text.toList) = w := by
  obtain ⟨rest, ht⟩ := t.text_eq_cons
  rw [ht, untagged, List.takeWhile_append_of_pos, List.takeWhile_cons_of_neg, List.append_nil]
  · decide
  · intro c hc
    rw [decide_eq_true_eq]
    rintro rfl
    exact h hc

theorem tagOf_append {w : List Char} (h : '.' ∉ w) (t : Tag) :
    tagOf (w ++ t.text.toList) = t.text.toList := by
  obtain ⟨rest, ht⟩ := t.text_eq_cons
  rw [ht, tagOf, List.dropWhile_append_of_pos, List.dropWhile_cons_of_neg]
  · decide
  · intro c hc
    rw [decide_eq_true_eq]
    rintro rfl
    exact h hc

/-! ### Operands -/

/-- The operand is a variable on numbers or truth values whose name is a name,
or a value. -/
def Operand.Legible : Operand → Prop
  | cell c tag => IsName c.text ∧ tag.IsScalar
  | number digits => (int32? digits.toList).isSome
  | truth _ => True
  | self _ | classRef _ => False

theorem exists_of_int32?_isSome {cs : List Char} (h : (int32? cs).isSome) :
    ∃ v n, int32? cs = some v ∧ integer? cs = some n := by
  obtain ⟨v, hv⟩ := Option.isSome_iff_exists.mp h
  obtain ⟨n, hn, -⟩ := Option.bind_eq_some_iff.mp hv
  exact ⟨v, n, hv, hn⟩

/-- A numeral begins as a number does, and nothing ends inside. -/
theorem numeral_shape {cs : List Char} (h : (int32? cs).isSome) :
    beginsNumeral cs = true ∧ Solid cs ∧ '.' ∉ cs := by
  obtain ⟨-, n, -, hn⟩ := exists_of_int32?_isSome h
  refine ⟨?_, solid_of_integer? hn, not_mem_of_integer? hn (by decide) (by decide)⟩
  rcases cs with - | ⟨c, cs⟩
  · have hnone : integer? [] = none := by decide
    rw [hnone] at hn
    nomatch hn
  · rcases isDigit_or_of_integer? hn c (List.mem_cons_self ..) with hdigit | rfl
    · simp [beginsNumeral, hdigit]
    · rfl

theorem Operand.text_cell (c : Cell) (tag : Tag) :
    (cell c tag).text.toList = c.text.toList ++ tag.text.toList := by
  have : (cell c tag).text = c.text ++ tag.text := rfl
  rw [this, String.toList_append]

theorem Operand.text_number (digits : String) :
    (number digits).text.toList = digits.toList ++ Tag.i32.text.toList := by
  have : (number digits).text = digits ++ Tag.i32.text := rfl
  rw [this, String.toList_append]

theorem Operand.Legible.solid {x : Operand} (h : x.Legible) : Solid x.text.toList := by
  cases x with
  | cell c tag => rw [Operand.text_cell]; exact h.1.solid.append h.2.solid
  | number digits =>
    rw [Operand.text_number]
    exact (numeral_shape h).2.1.append (Tag.IsScalar.solid (Or.inl rfl))
  | truth value => cases value <;> exact ⟨by decide, by decide⟩
  | self _ | classRef _ => exact h.elim

theorem beginsNumeral_append {a : List Char} (h : a ≠ []) (b : List Char) :
    beginsNumeral (a ++ b) = beginsNumeral a := by
  rcases a with - | ⟨c, a⟩
  · exact absurd rfl h
  · rfl

/-- The tag behind a name does not make it a number. -/
theorem beginsNumeral_tagged {a : List Char} (h : beginsNumeral a = false) (t : Tag) :
    beginsNumeral (a ++ t.text.toList) = false := by
  rcases a with - | ⟨c, a⟩
  · obtain ⟨w, ht⟩ := t.text_eq_cons
    rw [ht]
    rfl
  · exact h

/-- What is written for an operand is read as what it stands for. -/
theorem Operand.read?_text {x : Operand} (h : x.Legible) :
    Atom.read? x.text.toList = x.atom? := by
  cases x with
  | cell c tag =>
    obtain ⟨hname, -⟩ := h
    rw [Operand.text_cell, Atom.read?, beginsNumeral_tagged hname.begins,
      untagged_append hname.noDot, String.ofList_toList]
    rfl
  | number digits =>
    obtain ⟨hbegins, -, hdot⟩ := numeral_shape h
    have hne : digits.toList ≠ [] := by
      rintro he
      rw [he] at hbegins
      exact Bool.noConfusion hbegins
    -- a numeral with the tag of a truth value would be read as one
    have htag : Tag.i32.text.toList ≠ ['.', 'b', 'o', 'o', 'l'] := by decide
    rw [Operand.text_number, Atom.read?, beginsNumeral_append hne, if_pos hbegins,
      untagged_append hdot, tagOf_append hdot]
    simp only [if_neg htag, Operand.atom?]
  | truth value => cases value <;> decide
  | self _ | classRef _ => exact h.elim

theorem Operand.Legible.atom?_isSome {x : Operand} (h : x.Legible) : x.atom?.isSome := by
  cases x with
  | cell c tag | truth value => rfl
  | number digits => rw [Operand.atom?, Option.isSome_map]; exact h
  | self _ | classRef _ => exact h.elim

/-! ### Lines -/

/-- The line is a label, a branch, a jump or a return, or it puts a value or
the result of an operation into a variable; what is in it can be read. -/
def Line.Legible : Line → Prop
  | label _ | jump _ => True
  | assign c tag (.operand x) => IsName c.text ∧ tag.IsScalar ∧ x.Legible
  | assign c tag (.arithmetic _ x y) | assign c tag (.logical _ x y) =>
    IsName c.text ∧ tag.IsScalar ∧ x.Legible ∧ y.Legible
  | branch c _ => c.Legible
  | ret tag none => Solid tag.text.toList
  | ret tag (some x) => Solid tag.text.toList ∧ x.Legible
  | _ => False

theorem Label.solid (l : Label) : Solid l.text.toList := by
  have hchars : l.text.toList = l.landmark.text.toList ++ Nat.toDigits 10 l.number := by
    show (l.landmark.text ++ l.number.repr).toList = _
    rw [String.toList_append, Nat.toList_repr]
  have hdigit : ∀ c ∈ Nat.toDigits 10 l.number, c.isDigit := fun c hc =>
    Nat.isDigit_of_mem_toDigits (by decide) (by decide) hc
  have hnot : ∀ c : Char, c.isDigit = false → c ∉ Nat.toDigits 10 l.number := by
    intro c hc hmem
    rw [hdigit c hmem] at hc
    exact Bool.noConfusion hc
  rw [hchars]
  refine Solid.append ?_ ⟨hnot _ (by decide), hnot _ (by decide)⟩
  cases l.landmark <;> exact ⟨by decide, by decide⟩

theorem read?_arithmetic (op : ArithmeticOperator) :
    Operation.read? (op.symbol.toList ++ Tag.i32.text.toList) = some (.arithmetic op) := by
  cases op <;> decide

theorem read?_logical (op : LogicalOperator) :
    Operation.read? (op.symbol.toList ++ Tag.bool.text.toList) = some (.logical op) := by
  rcases op with op | op <;> cases op <;> decide

theorem solid_arithmetic (op : ArithmeticOperator) :
    Solid (op.symbol.toList ++ Tag.i32.text.toList) := by
  cases op <;> exact ⟨by decide, by decide⟩

theorem solid_logical (op : LogicalOperator) :
    Solid (op.symbol.toList ++ Tag.bool.text.toList) := by
  rcases op with op | op <;> cases op <;> exact ⟨by decide, by decide⟩

theorem Line.text_label (l : Label) : (label l).text.toList = l.text.toList ++ [':'] := by
  have : (label l).text = l.text ++ ":" := rfl
  rw [this, String.toList_append]
  rfl

theorem Line.text_jump (l : Label) :
    (jump l).text.toList = ['g', 'o', 't', 'o'] ++ ' ' :: (l.text.toList ++ [';']) := by
  have : (jump l).text = "goto " ++ l.text ++ ";" := rfl
  rw [this]
  simp

theorem Line.text_branch (c : Operand) (l : Label) :
    (branch c l).text.toList = ['i', 'f'] ++ ' ' :: ((('(' :: c.text.toList) ++ [')']) ++
      ' ' :: (['g', 'o', 't', 'o'] ++ ' ' :: (l.text.toList ++ [';']))) := by
  have : (branch c l).text = "if (" ++ c.text ++ ") goto " ++ l.text ++ ";" := rfl
  rw [this]
  simp

theorem Line.text_retNone (tag : Tag) :
    (ret tag none).text.toList = ['r', 'e', 't'] ++ tag.text.toList ++ [';'] := by
  have : (ret tag none).text = "ret" ++ tag.text ++ ";" := rfl
  rw [this]
  simp

theorem Line.text_retSome (tag : Tag) (x : Operand) :
    (ret tag (some x)).text.toList =
      (['r', 'e', 't'] ++ tag.text.toList) ++ ' ' :: (x.text.toList ++ [';']) := by
  have : (ret tag (some x)).text = "ret" ++ tag.text ++ " " ++ x.text ++ ";" := rfl
  rw [this]
  simp

theorem Line.text_assign (c : Cell) (tag : Tag) (source : Source) :
    (assign c tag source).text.toList =
      (c.text.toList ++ tag.text.toList) ++ ' ' :: (([':', '='] ++ tag.text.toList) ++
        ' ' :: (source.text.toList ++ [';'])) := by
  have : (assign c tag source).text =
      c.text ++ tag.text ++ " :=" ++ tag.text ++ " " ++ source.text ++ ";" := rfl
  rw [this]
  simp

theorem Source.text_arithmetic (op : ArithmeticOperator) (x y : Operand) :
    (arithmetic op x y).text.toList =
      x.text.toList ++ ' ' :: ((op.symbol.toList ++ Tag.i32.text.toList) ++
        ' ' :: y.text.toList) := by
  have : (arithmetic op x y).text = x.text ++ " " ++ op.symbol ++ ".i32 " ++ y.text := rfl
  rw [this]
  simp [Tag.text]

theorem Source.text_logical (op : LogicalOperator) (x y : Operand) :
    (logical op x y).text.toList =
      x.text.toList ++ ' ' :: ((op.symbol.toList ++ Tag.bool.text.toList) ++
        ' ' :: y.text.toList) := by
  have : (logical op x y).text = x.text ++ " " ++ op.symbol ++ ".bool " ++ y.text := rfl
  rw [this]
  simp [Tag.text]

theorem spaced_operation {x op y : List Char} (hx : Solid x) (hop : Solid op) (hy : Solid y) :
    Spaced ((x ++ ' ' :: (op ++ ' ' :: y)) ++ [';']) [x, op, y ++ [';']] := by
  have h : Spaced (x ++ ' ' :: (op ++ ' ' :: (y ++ [';']))) [x, op, y ++ [';']] :=
    .cons hx (.cons hop (.last (hy.append (solid_mark (by decide)))))
  simpa using h

/-- The words of a source that is a value or an operation. -/
def Source.words : Source → List (List Char)
  | operand x => [x.text.toList ++ [';']]
  | arithmetic op x y =>
    [x.text.toList, op.symbol.toList ++ Tag.i32.text.toList, y.text.toList ++ [';']]
  | logical op x y =>
    [x.text.toList, op.symbol.toList ++ Tag.bool.text.toList, y.text.toList ++ [';']]
  | _ => []

/-- The words of a legible line. -/
def Line.words : Line → List (List Char)
  | label l => [l.text.toList ++ [':']]
  | jump l => [['g', 'o', 't', 'o'], l.text.toList ++ [';']]
  | branch c l =>
    [['i', 'f'], ('(' :: c.text.toList) ++ [')'], ['g', 'o', 't', 'o'], l.text.toList ++ [';']]
  | ret tag none => [['r', 'e', 't'] ++ tag.text.toList ++ [';']]
  | ret tag (some x) => [['r', 'e', 't'] ++ tag.text.toList, x.text.toList ++ [';']]
  | assign c tag source =>
    (c.text.toList ++ tag.text.toList) :: ([':', '='] ++ tag.text.toList) :: source.words
  | _ => []

/-- A legible line is made of its words. -/
theorem Line.Legible.spaced {l : Line} (h : l.Legible) : Spaced l.text.toList l.words := by
  have semicolon : Solid [';'] := solid_mark (by decide)
  -- what is assigned stands behind the target and the mark
  have assigned {c : Cell} {tag : Tag} {source : Source} (hc : IsName c.text)
      (ht : tag.IsScalar) (hs : Spaced (source.text.toList ++ [';']) source.words) :
      Spaced (assign c tag source).text.toList (assign c tag source).words := by
    rw [text_assign]
    refine .cons (hc.solid.append ht.solid) (.cons ?_ hs)
    exact Solid.append ⟨by decide, by decide⟩ ht.solid
  cases l with
  | label l =>
    rw [text_label]
    exact .last (l.solid.append (solid_mark (by decide)))
  | jump l =>
    rw [text_jump]
    exact .cons ⟨by decide, by decide⟩ (.last (l.solid.append semicolon))
  | branch c l =>
    have hc : Operand.Legible c := h
    have hbracket : Solid (('(' :: c.text.toList) ++ [')']) :=
      ((solid_mark (c := '(') (by decide)).append hc.solid).append (solid_mark (by decide))
    rw [text_branch]
    exact .cons ⟨by decide, by decide⟩ (.cons hbracket (.cons ⟨by decide, by decide⟩
      (.last (l.solid.append semicolon))))
  | ret tag x =>
    have word : Solid ['r', 'e', 't'] := ⟨by decide, by decide⟩
    rcases x with - | x
    · have ht : Solid tag.text.toList := h
      rw [text_retNone]
      exact .last ((word.append ht).append semicolon)
    · obtain ⟨ht, hx⟩ := h
      rw [text_retSome]
      exact .cons (word.append ht) (.last (hx.solid.append semicolon))
  | assign c tag source =>
    cases source with
    | operand x =>
      obtain ⟨hc, ht, hx⟩ := h
      exact assigned hc ht (.last (hx.solid.append semicolon))
    | arithmetic op x y =>
      obtain ⟨hc, ht, hx, hy⟩ := h
      refine assigned hc ht ?_
      rw [Source.text_arithmetic]
      exact spaced_operation hx.solid (solid_arithmetic op) hy.solid
    | logical op x y =>
      obtain ⟨hc, ht, hx, hy⟩ := h
      refine assigned hc ht ?_
      rw [Source.text_logical]
      exact spaced_operation hx.solid (solid_logical op) hy.solid
    | fieldRead | call | newArray | newObject | length | element => exact h.elim
  | store | fieldWrite | call | construct => exact h.elim

theorem Operand.Legible.exists_atom {x : Operand} (h : x.Legible) :
    ∃ a, x.atom? = some a ∧ Atom.read? x.text.toList = some a := by
  obtain ⟨a, ha⟩ := Option.isSome_iff_exists.mp h.atom?_isSome
  exact ⟨a, ha, by rw [read?_text h, ha]⟩

theorem ofWords?_operation {c : Cell} {tag : Tag} {x y : Operand} {w : List Char}
    {op : Operation} (hc : IsName c.text) (hx : x.Legible) (hy : y.Legible)
    (hop : Operation.read? w = some op) :
    Instruction.ofWords? [c.text.toList ++ tag.text.toList, [':', '='] ++ tag.text.toList,
        x.text.toList, w, y.text.toList ++ [';']] =
      x.atom?.bind fun a => y.atom?.bind fun b => some (.operate c.text op a b) := by
  obtain ⟨v, ht⟩ := tag.text_eq_cons
  obtain ⟨a, ha, hreadx⟩ := hx.exists_atom
  obtain ⟨b, hb, hready⟩ := hy.exists_atom
  simp only [Instruction.ofWords?, untagged_append hc.noDot tag, hop]
  simp [ht, hreadx, hready, ha, hb]

/-- What is written for a line is read as the instruction that it stands
for. -/
theorem Line.read?_text {l : Line} (h : l.Legible) :
    Instruction.read? l.text.toList = l.instruction? := by
  rw [Instruction.read?, h.spaced.words]
  cases l with
  | label l =>
    simp only [Line.words, Instruction.ofWords?, endedBy?_append_self, String.ofList_toList,
      instruction?]
  | jump l =>
    simp only [Line.words, Instruction.ofWords?, endedBy?_append_self, if_true,
      Option.map_some, String.ofList_toList, instruction?]
  | branch c l =>
    have hc : Operand.Legible c := h
    obtain ⟨a, ha, hread⟩ := hc.exists_atom
    simp [Line.words, Instruction.ofWords?, bracketed?, instruction?, hread, ha]
  | ret tag x =>
    obtain ⟨w, ht⟩ := tag.text_eq_cons
    rcases x with - | x
    -- a return is no label, although it is one word
    · have hlast : endedBy? ':' (['r', 'e', 't'] ++ tag.text.toList ++ [';']) = none := by
        rw [endedBy?, List.getLast?_concat, if_neg (by decide)]
      simp only [Line.words, Instruction.ofWords?, hlast]
      simp [ht, instruction?]
    · obtain ⟨-, hx⟩ := h
      obtain ⟨a, ha, hread⟩ := hx.exists_atom
      simp [Line.words, Instruction.ofWords?, instruction?, ht, hread, ha]
  | assign c tag source =>
    obtain ⟨w, ht⟩ := tag.text_eq_cons
    cases source with
    | operand x =>
      obtain ⟨hc, -, hx⟩ := h
      obtain ⟨a, ha, hread⟩ := hx.exists_atom
      simp only [Line.words, Source.words, Instruction.ofWords?, untagged_append hc.noDot tag]
      simp [ht, hread, ha, instruction?]
    | arithmetic op x y =>
      obtain ⟨hc, -, hx, hy⟩ := h
      exact ofWords?_operation hc hx hy (read?_arithmetic op)
    | logical op x y =>
      obtain ⟨hc, -, hx, hy⟩ := h
      exact ofWords?_operation hc hx hy (read?_logical op)
    | fieldRead | call | newArray | newObject | length | element => exact h.elim
  | store | fieldWrite | call | construct => exact h.elim

/-! ### Methods -/

theorem Line.Legible.instruction?_isSome {l : Line} (h : l.Legible) :
    l.instruction?.isSome := by
  cases l with
  | label | jump => rfl
  | branch c l =>
    rw [instruction?, Option.isSome_map]
    exact Operand.Legible.atom?_isSome h
  | ret tag x =>
    rcases x with - | x
    · rfl
    · rw [instruction?, Option.isSome_map]
      exact h.2.atom?_isSome
  | assign c tag source =>
    cases source with
    | operand x =>
      rw [instruction?, Option.isSome_map]
      exact h.2.2.atom?_isSome
    | arithmetic op x y | logical op x y =>
      obtain ⟨-, -, hx, hy⟩ := h
      obtain ⟨a, ha, -⟩ := hx.exists_atom
      obtain ⟨b, hb, -⟩ := hy.exists_atom
      simp [instruction?, ha, hb]
    | fieldRead | call | newArray | newObject | length | element => exact h.elim
  | store | fieldWrite | call | construct => exact h.elim

theorem mapM_read? {ls : List Line} (h : ∀ l ∈ ls, l.Legible) :
    (ls.map (·.text.toList)).mapM Instruction.read? = some (instructions ls) := by
  induction ls with
  | nil => rfl
  | cons l rest ih =>
    have hl : l.Legible := h l (List.mem_cons_self ..)
    obtain ⟨i, hi⟩ := Option.isSome_iff_exists.mp hl.instruction?_isSome
    have hread : Instruction.read? l.text.toList = some i := by rw [Line.read?_text hl, hi]
    have hcons : instructions (l :: rest) = i :: instructions rest :=
      List.filterMap_cons_some hi
    rw [List.map_cons, List.mapM_cons, hread, ih fun l hl => h l (List.mem_cons_of_mem _ hl),
      hcons]
    rfl

/-- The text of a method is read as the instructions that its lines stand
for. -/
theorem readMethod?_text {m : Method} (hheader : '\n' ∉ m.header.toList)
    (hbody : ∀ l ∈ m.body, l.Legible) :
    readMethod? m.text = some (instructions m.body) := by
  have hlines : lines m.text = m.lines.map String.toList := by
    refine lines_joined ?_
    intro s hs
    simp only [Method.lines, List.cons_append, List.nil_append, List.mem_cons, List.mem_append,
      List.mem_map, List.not_mem_nil, or_false] at hs
    rcases hs with rfl | rfl | ⟨l, hl, rfl⟩ | rfl
    · decide
    · exact hheader
    · exact (hbody l hl).spaced.noFeed
    · decide
  have hdrop : ((m.lines.map String.toList).drop 2).dropLast = m.body.map (·.text.toList) := by
    simp [Method.lines, Function.comp_def]
  rw [readMethod?, hlines, hdrop, mapM_read? hbody]

end JavaMinus.ThreeAddress
