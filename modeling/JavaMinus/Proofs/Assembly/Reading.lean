/-
JavaMinus/Proofs/Assembly/Reading.lean

Reading assembly back from its text.

Read are the instructions on numbers: pushing constants, loading and storing
registers, arithmetic, jumps and returns.  The reader has the words of the
machine in two tables of its own, apart from how instructions are written:
`oneWord` has those that are an instruction by themselves, `withOperand` those
that have a number or a label behind them.  It takes only what the machine
has: a short constant is one of seven, and a constant of eight or sixteen bits
lies in its range.

Main statement: what is written for legible lines is read as these lines
(`readBody?_text`).
-/
import JavaMinus.Assembly.Text
import JavaMinus.Proofs.Reading

namespace JavaMinus.Assembly

open Reading

/-! ### The reader -/

/-- The words that are an instruction by themselves, with what they do. -/
def oneWord : List (String × Instruction) :=
  [("iconst_m1", .push (.short (-1))), ("iconst_0", .push (.short 0)),
   ("iconst_1", .push (.short 1)), ("iconst_2", .push (.short 2)),
   ("iconst_3", .push (.short 3)), ("iconst_4", .push (.short 4)),
   ("iconst_5", .push (.short 5)),
   ("iload_0", .load .int 0), ("iload_1", .load .int 1), ("iload_2", .load .int 2),
   ("iload_3", .load .int 3),
   ("istore_0", .store .int 0), ("istore_1", .store .int 1), ("istore_2", .store .int 2),
   ("istore_3", .store .int 3),
   ("iadd", .arithmetic .add), ("isub", .arithmetic .sub), ("imul", .arithmetic .mul),
   ("idiv", .arithmetic .div),
   ("iand", .connective .and), ("ior", .connective .or),
   ("pop", .pop), ("return", .returnVoid), ("ireturn", .returnValue .int)]

/-- A number in a range. -/
def within? (lo hi : Int32) (w : List Char) : Option Int32 :=
  (int32? w).filter fun v => lo ≤ v ∧ v ≤ hi

/-- The number of a register. -/
def register? (w : List Char) : Option UInt16 :=
  (natural? w).bind fun n => if n < 65536 then some (UInt16.ofNat n) else none

/-- The words that have something behind them, and how they are read with it. -/
def withOperand : List (String × (List Char → Option Instruction)) :=
  [("bipush", fun x => (within? (-128) 127 x).map (.push ∘ .byte)),
   ("sipush", fun x => (within? (-32768) 32767 x).map (.push ∘ .half)),
   ("ldc", fun x => (int32? x).map (.push ∘ .pooled)),
   ("iload", fun x => (register? x).map (.load .int)),
   ("istore", fun x => (register? x).map (.store .int)),
   ("if_icmplt", fun x => some (.compareJump .lt (String.ofList x))),
   ("if_icmpgt", fun x => some (.compareJump .gt (String.ofList x))),
   ("if_icmple", fun x => some (.compareJump .le (String.ofList x))),
   ("if_icmpge", fun x => some (.compareJump .ge (String.ofList x))),
   ("ifne", fun x => some (.trueJump (String.ofList x))),
   ("goto", fun x => some (.jump (String.ofList x)))]

def Instruction.ofWord? (w : List Char) : Option Instruction := oneWord.lookup (String.ofList w)

def Instruction.ofPair? (w x : List Char) : Option Instruction :=
  (withOperand.lookup (String.ofList w)).bind fun read? => read? x

/-- A line: an instruction behind three blanks, or a label. -/
def Line.read? (line : List Char) : Option Line :=
  match words line with
  | [[], [], [], w] => (Instruction.ofWord? w).map .instruction
  | [[], [], [], w, x] => (Instruction.ofPair? w x).map .instruction
  | [w] => (endedBy? ':' w).map fun name => .label (String.ofList name)
  | _ => none

/-- A text as lines of a method's body. -/
def readBody? (text : String) : Option (List Line) := (lines text).mapM Line.read?

/-! ### What can be read -/

/-- The instruction works on numbers, and its target can be written as one
word. -/
def Instruction.Legible : Instruction → Prop
  | push c => ∃ v, c = .ofInt v
  | load family _ | store family _ | returnValue family => family = .int
  | arithmetic _ | connective _ | pop | returnVoid => True
  | compareJump _ target | trueJump target | jump target => Solid target.toList
  | _ => False

def Line.Legible : Line → Prop
  | label name => Solid name.toList
  | instruction i => i.Legible

/-- How a legible instruction is written. -/
inductive Written : Instruction → Prop
  | word {i} : Solid i.text.toList → Instruction.ofWord? i.text.toList = some i → Written i
  | pair {i} (w x : List Char) : Solid w → Solid x → i.text.toList = w ++ ' ' :: x →
      Instruction.ofPair? w x = some i → Written i

/-- What the table has a word for is written as this word. -/
theorem written_of_mem {i : Instruction} (h : i ∈ oneWord.map Prod.snd) : Written i := by
  have hblank : ∀ i ∈ oneWord.map Prod.snd, ' ' ∉ i.text.toList := by decide
  have hfeed : ∀ i ∈ oneWord.map Prod.snd, '\n' ∉ i.text.toList := by decide
  have hread : ∀ i ∈ oneWord.map Prod.snd, oneWord.lookup i.text = some i := by decide
  refine .word ⟨hblank i h, hfeed i h⟩ ?_
  rw [Instruction.ofWord?, String.ofList_toList, hread i h]

/-! ### Numbers -/

theorem solid_natural (n : Nat) : Solid (toString n).toList := by
  have hdigit : ∀ c ∈ n.repr.toList, c.isDigit := isDigit_of_natural? (natural?_repr n)
  have hnot : ∀ c : Char, c.isDigit = false → c ∉ (toString n).toList := by
    intro c hc hmem
    rw [hdigit c hmem] at hc
    exact Bool.noConfusion hc
  exact ⟨hnot _ (by decide), hnot _ (by decide)⟩

theorem solid_integer (n : Int) : Solid (toString n).toList :=
  solid_of_integer? (integer?_toString n)

theorem within?_toString {lo hi v : Int32} (hlo : lo ≤ v) (hhi : v ≤ hi) :
    within? lo hi (toString v.toInt).toList = some v := by
  rw [within?, int32?_toString, Option.filter_some, if_pos]
  simp [hlo, hhi]

theorem register?_toString (r : UInt16) : register? (toString r.toNat).toList = some r := by
  have h : natural? (toString r.toNat).toList = some r.toNat := natural?_repr r.toNat
  rw [register?, h, Option.bind_some, if_pos r.toNat_lt, UInt16.ofNat_toNat]

/-- The seven short constants. -/
theorem short_cases {v : Int32} (hlo : -1 ≤ v) (hhi : v ≤ 5) :
    v ∈ [(-1 : Int32), 0, 1, 2, 3, 4, 5] := by
  have hlo' : (-1 : Int32).toInt ≤ v.toInt := Int32.le_iff_toInt_le.mp hlo
  have hhi' : v.toInt ≤ (5 : Int32).toInt := Int32.le_iff_toInt_le.mp hhi
  have hone : (-1 : Int32).toInt = -1 := by decide
  have hfive : (5 : Int32).toInt = 5 := by decide
  rw [hone] at hlo'
  rw [hfive] at hhi'
  have hcases : v.toInt ∈ [(-1 : Int), 0, 1, 2, 3, 4, 5] := by
    simp only [List.mem_cons, List.not_mem_nil, or_false]
    omega
  have hmap : v.toInt ∈ [(-1 : Int32), 0, 1, 2, 3, 4, 5].map Int32.toInt := hcases
  obtain ⟨w, hw, hwv⟩ := List.mem_map.mp hmap
  rwa [← Int32.toInt_inj.mp hwv]

/-- The four registers with instructions of their own. -/
theorem low_cases {r : UInt16} (h : r ≤ 3) : r ∈ [(0 : UInt16), 1, 2, 3] := by
  have hle : r.toNat ≤ (3 : UInt16).toNat := UInt16.le_iff_toNat_le.mp h
  have hthree : (3 : UInt16).toNat = 3 := by decide
  rw [hthree] at hle
  have hcases : r.toNat ∈ [(0 : UInt16), 1, 2, 3].map UInt16.toNat := by
    have : [(0 : UInt16), 1, 2, 3].map UInt16.toNat = [0, 1, 2, 3] := by decide
    rw [this]
    simp only [List.mem_cons, List.not_mem_nil, or_false]
    omega
  obtain ⟨q, hq, hqr⟩ := List.mem_map.mp hcases
  rwa [← UInt16.toNat_inj.mp hqr]

/-- The words of the table are words. -/
theorem solid_of_lookup {word : String} {read? : List Char → Option Instruction}
    (h : withOperand.lookup word = some read?) : Solid word.toList := by
  have hblank : ∀ entry ∈ withOperand, ' ' ∉ entry.1.toList := by decide
  have hfeed : ∀ entry ∈ withOperand, '\n' ∉ entry.1.toList := by decide
  obtain ⟨before, after, htable, -⟩ := List.lookup_eq_some_iff.mp h
  have hmem : (word, read?) ∈ withOperand := by
    rw [htable]
    exact List.mem_append_right _ (List.mem_cons_self ..)
  exact ⟨hblank _ hmem, hfeed _ hmem⟩

/-- An instruction is written as a pair if its text is a word of the table and what this
word is read with. -/
theorem written_of_text {i : Instruction} (word operand : String)
    {read? : List Char → Option Instruction} (htable : withOperand.lookup word = some read?)
    (hoperand : Solid operand.toList) (htext : i.text = word ++ " " ++ operand)
    (hread : read? operand.toList = some i) : Written i := by
  refine .pair word.toList operand.toList (solid_of_lookup htable) hoperand ?_ ?_
  · rw [htext, String.toList_append, String.toList_append, List.append_assoc]
    rfl
  · rw [Instruction.ofPair?, String.ofList_toList, htable, Option.bind_some, hread]

theorem written_push (v : Int32) : Written (.push (.ofInt v)) := by
  rw [Constant.ofInt]
  split
  case isTrue h =>
    -- the constants from -1 to 5 have instructions of their own
    have table : [(-1 : Int32), 0, 1, 2, 3, 4, 5].map (Instruction.push ∘ .short) ⊆
        oneWord.map Prod.snd := by
      decide
    exact written_of_mem (table (List.mem_map_of_mem (short_cases h.1 h.2)))
  split
  case isTrue h =>
    refine written_of_text "bipush" _ rfl (solid_integer v.toInt) rfl ?_
    rw [within?_toString h.1 h.2]
    rfl
  split
  case isTrue h =>
    refine written_of_text "sipush" _ rfl (solid_integer v.toInt) rfl ?_
    rw [within?_toString h.1 h.2]
    rfl
  case isFalse =>
    refine written_of_text "ldc" _ rfl (solid_integer v.toInt) rfl ?_
    rw [int32?_toString]
    rfl

/-- An instruction on a slot has a word of its own for each of the first four slots, and for
all others names the slot behind its word. -/
theorem written_of_slot (i : UInt16 → Instruction) (word : String)
    (htable : [(0 : UInt16), 1, 2, 3].map i ⊆ oneWord.map Prod.snd)
    (hoperand : withOperand.lookup word = some fun x => (register? x).map i) (r : UInt16)
    (htext : ¬ r ≤ 3 → (i r).text = word ++ " " ++ toString r.toNat) : Written (i r) := by
  by_cases h : r ≤ 3
  · exact written_of_mem (htable (List.mem_map_of_mem (low_cases h)))
  · refine written_of_text word _ hoperand (solid_natural r.toNat) (htext h) ?_
    rw [register?_toString]
    rfl

theorem written_load (r : UInt16) : Written (.load .int r) :=
  written_of_slot (.load .int) "iload" (by decide) rfl r fun h => if_neg h

theorem written_store (r : UInt16) : Written (.store .int r) :=
  written_of_slot (.store .int) "istore" (by decide) rfl r fun h => if_neg h

/-- An instruction with a target has the target behind its word. -/
theorem written_of_target (i : String → Instruction) (word : String)
    (hoperand : withOperand.lookup word = some fun x => some (i (String.ofList x)))
    {target : String} (htarget : Solid target.toList)
    (htext : (i target).text = word ++ " " ++ target) : Written (i target) := by
  refine written_of_text word target hoperand htarget htext ?_
  rw [String.ofList_toList]

/-! ### Lines -/

/-- Every legible instruction is written as one word or as a pair. -/
theorem Instruction.Legible.written {i : Instruction} (h : i.Legible) : Written i := by
  cases i with
  | push c =>
    obtain ⟨v, rfl⟩ := h
    exact written_push v
  | load family r =>
    obtain rfl : family = .int := h
    exact written_load r
  | store family r =>
    obtain rfl : family = .int := h
    exact written_store r
  | arithmetic op => exact written_of_mem (by cases op <;> decide)
  | connective op => exact written_of_mem (by cases op <;> decide)
  | pop | returnVoid => exact written_of_mem (by decide)
  | returnValue family =>
    obtain rfl : family = .int := h
    exact written_of_mem (by decide)
  | compareJump op target =>
    cases op with
    | lt => exact written_of_target (.compareJump .lt) "if_icmplt" rfl h rfl
    | gt => exact written_of_target (.compareJump .gt) "if_icmpgt" rfl h rfl
    | le => exact written_of_target (.compareJump .le) "if_icmple" rfl h rfl
    | ge => exact written_of_target (.compareJump .ge) "if_icmpge" rfl h rfl
  | trueJump target => exact written_of_target .trueJump "ifne" rfl h rfl
  | jump target => exact written_of_target .jump "goto" rfl h rfl
  | elementLoad | elementStore | dup | newObject | newIntArray | arrayLength | getField
  | putField | invoke => exact h.elim

theorem Line.text_instruction (i : Instruction) :
    (instruction i).text.toList = [] ++ ' ' :: ([] ++ ' ' :: ([] ++ ' ' :: i.text.toList)) := by
  have : (instruction i).text = "   " ++ i.text := rfl
  rw [this, String.toList_append]
  rfl

theorem Line.text_label (name : String) :
    (label name).text.toList = name.toList ++ [':'] := by
  have : (label name).text = name ++ ":" := rfl
  rw [this, String.toList_append]
  rfl

theorem solid_nil : Solid [] := ⟨List.not_mem_nil, List.not_mem_nil⟩

/-- A legible line is made of words, which are read as the line. -/
theorem Line.Legible.spaced {l : Line} (h : l.Legible) :
    ∃ ws, Spaced l.text.toList ws ∧ Line.read? l.text.toList = some l := by
  cases l with
  | label name =>
    have hname : Solid name.toList := h
    have hspaced : Spaced (label name).text.toList [name.toList ++ [':']] := by
      rw [text_label]
      exact .last (hname.append (solid_mark (by decide)))
    refine ⟨_, hspaced, ?_⟩
    rw [read?, hspaced.words]
    simp
  | instruction i =>
    cases Instruction.Legible.written h with
    -- the instructions are indented, which gives three empty words
    | word hi hread =>
      have hspaced : Spaced (instruction i).text.toList [[], [], [], i.text.toList] := by
        rw [text_instruction]
        exact .cons solid_nil (.cons solid_nil (.cons solid_nil (.last hi)))
      refine ⟨_, hspaced, ?_⟩
      rw [read?, hspaced.words]
      simp only [hread, Option.map_some]
    | pair w x hw hx htext hread =>
      have hspaced : Spaced (instruction i).text.toList [[], [], [], w, x] := by
        rw [text_instruction, htext]
        exact .cons solid_nil (.cons solid_nil (.cons solid_nil (.cons hw (.last hx))))
      refine ⟨_, hspaced, ?_⟩
      rw [read?, hspaced.words]
      simp only [hread, Option.map_some]

/-- What is written for legible lines is read as these lines. -/
theorem readBody?_text {ls : List Line} (h : ∀ l ∈ ls, l.Legible) :
    readBody? (String.join (ls.map fun l => l.text ++ "\n")) = some ls := by
  -- no line holds a line feed, so the text is split where it was joined
  have hlines : lines (String.join ((ls.map Line.text).map (· ++ "\n"))) =
      (ls.map Line.text).map String.toList := by
    refine lines_joined ?_
    intro s hs
    obtain ⟨l, hl, rfl⟩ := List.mem_map.mp hs
    obtain ⟨ws, hspaced, -⟩ := (h l hl).spaced
    exact hspaced.noFeed
  rw [List.map_map] at hlines
  show (lines (String.join (ls.map ((· ++ "\n") ∘ Line.text)))).mapM Line.read? = some ls
  rw [hlines]
  clear hlines
  induction ls with
  | nil => rfl
  | cons l rest ih =>
    obtain ⟨ws, -, hread⟩ := (h l (List.mem_cons_self ..)).spaced
    rw [List.map_cons, List.map_cons, List.mapM_cons, hread,
      ih fun l hl => h l (List.mem_cons_of_mem _ hl)]
    rfl

end JavaMinus.Assembly
