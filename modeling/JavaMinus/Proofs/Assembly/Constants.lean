/-
JavaMinus/Proofs/Assembly/Constants.lean

The text of constants.

A constant is read by the words that the machine knows: seven of them push a number each,
and behind three others stands the number in decimals (`Constant.read?`).  They are listed
here apart from how constants are written.  Each of the four forms has room for some of
the numbers only (`Constant.Fits`), and each has room for more than the ones before it.

A constant that fits is read as what it is (`read?_text`), so its text tells it from all
others.  The constant that is chosen for a number fits, and no narrower form would do
(`constants_are_pushed_narrowly`).
-/
import JavaMinus.Proofs.Assembly.Reading

namespace JavaMinus.Assembly.Constant

open Reading

/-! ### Reading -/

/-- The words that push a number of their own. -/
def shortWords : List (String × Int32) :=
  [("iconst_m1", -1), ("iconst_0", 0), ("iconst_1", 1), ("iconst_2", 2), ("iconst_3", 3),
   ("iconst_4", 4), ("iconst_5", 5)]

/-- The words that push the number behind them. -/
def longWords : List (String × (Int32 → Constant)) :=
  [("bipush", byte), ("sipush", half), ("ldc", pooled)]

/-- The constant that a text pushes. -/
def read? (text : String) : Option Constant :=
  match words text.toList with
  | [w] => (shortWords.lookup (String.ofList w)).map short
  | [w, x] => (longWords.lookup (String.ofList w)).bind fun form => (int32? x).map form
  | _ => none

/-! ### Room for numbers -/

/-- The number is one that the form has room for. -/
def Fits : Constant → Prop
  | short v => -1 ≤ v ∧ v ≤ 5
  | byte v => -128 ≤ v ∧ v ≤ 127
  | half v => -32768 ≤ v ∧ v ≤ 32767
  | pooled _ => True

/-- The place of the form among the four, of which the narrowest is the first. -/
def rank : Constant → Nat
  | short _ => 0
  | byte _ => 1
  | half _ => 2
  | pooled _ => 3

variable {c c' : Constant}

theorem fits_ofInt (v : Int32) : (ofInt v).Fits := by
  rw [ofInt]
  split
  · assumption
  split
  · assumption
  split
  · assumption
  · trivial

theorem rank_le (c : Constant) : c.rank ≤ 3 := by
  cases c <;> simp [rank]

/-- Whatever has room for a number is no narrower than what is chosen for it. -/
theorem rank_ofInt_le (h : c.Fits) : (ofInt c.value).rank ≤ c.rank := by
  cases c with
  | short v =>
    have hchosen : ofInt v = short v := if_pos h
    exact Nat.le_of_eq (congrArg rank hchosen)
  | byte v =>
    have hv : -128 ≤ v ∧ v ≤ 127 := h
    -- the test for a narrower form may hold as well, and is made first
    rw [value, ofInt, if_pos hv]
    split
    · exact Nat.zero_le _
    · exact Nat.le_refl _
  | half v =>
    have hv : -32768 ≤ v ∧ v ≤ 32767 := h
    rw [value, ofInt, if_pos hv]
    split
    · exact Nat.zero_le _
    split
    · exact Nat.le_succ _
    · exact Nat.le_refl _
  | pooled v => exact rank_le _

/-! ### Reading what was written -/

theorem read?_short {v : Int32} (h : (short v).Fits) : read? (short v).text = some (short v) := by
  have hv := short_cases h.1 h.2
  simp only [List.mem_cons, List.not_mem_nil, or_false] at hv
  rcases hv with rfl | rfl | rfl | rfl | rfl | rfl | rfl <;> rfl

/-- A number is read from behind a word. -/
theorem read?_long (word : String) {form : Int32 → Constant} (hword : ' ' ∉ word.toList)
    (hform : longWords.lookup word = some form) (v : Int32) :
    read? (word ++ " " ++ toString v.toInt) = some (form v) := by
  have htext : (word ++ " " ++ toString v.toInt).toList =
      word.toList ++ ' ' :: (toString v.toInt).toList := by
    rw [String.toList_append, String.toList_append, List.append_assoc]
    rfl
  rw [read?, htext, words_cons hword, words_last (solid_integer v.toInt).noBlank]
  simp only [String.ofList_toList, hform, Option.bind_some, int32?_toString, Option.map_some]

theorem read?_text (h : c.Fits) : read? c.text = some c := by
  cases c with
  | short v => exact read?_short h
  | byte v => exact read?_long "bipush" (by decide) rfl v
  | half v => exact read?_long "sipush" (by decide) rfl v
  | pooled v => exact read?_long "ldc" (by decide) rfl v

theorem eq_of_text_eq (h : c.Fits) (h' : c'.Fits) (htext : c.text = c'.text) : c = c' := by
  have hread := congrArg read? htext
  rwa [read?_text h, read?_text h', Option.some_inj] at hread

/-- **Numbers are pushed in the narrowest form.**  What is written to push a number is
read as a constant that pushes it, has room for it, and is of the narrowest form that has.
No two numbers are written alike. -/
theorem constants_are_pushed_narrowly (v : Int32) :
    (∃ c, read? (ofInt v).text = some c ∧ c.value = v ∧ c.Fits ∧
      ∀ c' : Constant, c'.Fits → c'.value = v → c.rank ≤ c'.rank) ∧
    ∀ w, (ofInt v).text = (ofInt w).text → v = w := by
  have hfits := fits_ofInt v
  refine ⟨⟨ofInt v, read?_text hfits, value_ofInt v, hfits, ?_⟩, ?_⟩
  · rintro c' hfits' rfl
    exact rank_ofInt_le hfits'
  · intro w htext
    have hsame := eq_of_text_eq hfits (fits_ofInt w) htext
    rw [← value_ofInt v, hsame, value_ofInt w]

/-- Just below eight bits sixteen are taken, and nothing narrower has room. -/
theorem constants_are_pushed_narrowly_below_byte :
    (ofInt (-129)).text = "sipush -129" ∧ read? "sipush -129" = some (half (-129)) ∧
      (half (-129)).Fits ∧ (∀ c' : Constant, c'.Fits → c'.value = -129 → 2 ≤ c'.rank) ∧
      (ofInt (-129)).text ≠ (ofInt 129).text := by
  obtain ⟨⟨c, hread, -, hfits, hnarrow⟩, hdistinct⟩ := constants_are_pushed_narrowly (-129)
  have htext : (ofInt (-129)).text = "sipush -129" := by decide
  have hhalf : read? "sipush -129" = some (half (-129)) := by decide
  obtain rfl : half (-129) = c := by rwa [htext, hhalf, Option.some_inj] at hread
  refine ⟨htext, hhalf, hfits, hnarrow, fun h => ?_⟩
  exact absurd (hdistinct 129 h) (by decide)

end JavaMinus.Assembly.Constant
