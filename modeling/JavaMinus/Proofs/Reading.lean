/-
JavaMinus/Proofs/Reading.lean

Reading what the library writes.

Both kinds of code are texts of lines, a line is a row of words with a blank
between any two, and a number is written in decimals.  What is said here is
that writing loses nothing: a text is taken apart into the lines it was made
of (`lines_joined`), a line into its words (`words_cons`), and a decimal
numeral into the number it was made from (`integer?_toString`).
-/
import Mathlib.Data.List.Basic
import Std.Data.String.ToInt

namespace JavaMinus.Reading

/-! ### Numerals -/

/-- The number that a row of digits writes. -/
def natural? (cs : List Char) : Option Nat :=
  if cs ≠ [] ∧ cs.all Char.isDigit then some (Nat.ofDigitChars 10 cs 0) else none

/-- The number that a decimal numeral writes; a minus stands in front of a
negative one. -/
def integer? : List Char → Option Int
  | '-' :: cs => (natural? cs).map fun n => -Int.ofNat n
  | cs => (natural? cs).map Int.ofNat

/-- The number of 32 bits that a decimal numeral writes. -/
def int32? (cs : List Char) : Option Int32 :=
  (integer? cs).bind fun n =>
    if -2147483648 ≤ n ∧ n ≤ 2147483647 then some (Int32.ofInt n) else none

theorem natural?_repr (n : Nat) : natural? n.repr.toList = some n := by
  have hdigits : (Nat.toDigits 10 n).all Char.isDigit := by
    rw [List.all_eq_true]
    intro c hc
    exact Nat.isDigit_of_mem_toDigits (by decide) (by decide) hc
  rw [Nat.toList_repr, natural?, if_pos ⟨Nat.toDigits_ne_nil, hdigits⟩,
    Nat.ofDigitChars_ten_toDigits]

theorem isDigit_of_natural? {cs : List Char} {n : Nat} (h : natural? cs = some n) :
    ∀ c ∈ cs, c.isDigit := by
  rw [natural?, Option.ite_none_right_eq_some] at h
  exact List.all_eq_true.mp h.1.2

/-- A numeral is made of digits, but for a minus. -/
theorem isDigit_or_of_integer? {cs : List Char} {n : Int} (h : integer? cs = some n) :
    ∀ c ∈ cs, c.isDigit ∨ c = '-' := by
  unfold integer? at h
  split at h
  · obtain ⟨m, hm, -⟩ := Option.map_eq_some_iff.mp h
    intro c hc
    rcases List.mem_cons.mp hc with rfl | hc
    · exact Or.inr rfl
    · exact Or.inl (isDigit_of_natural? hm c hc)
  · obtain ⟨m, hm, -⟩ := Option.map_eq_some_iff.mp h
    intro c hc
    exact Or.inl (isDigit_of_natural? hm c hc)

/-- A character that is neither a digit nor a minus stands in no numeral. -/
theorem not_mem_of_integer? {cs : List Char} {n : Int} (h : integer? cs = some n) {c : Char}
    (hc : c.isDigit = false) (hminus : c ≠ '-') : c ∉ cs := by
  intro hmem
  rcases isDigit_or_of_integer? h c hmem with hdigit | rfl
  · rw [hdigit] at hc
    nomatch hc
  · exact hminus rfl

theorem eq_of_repr_eq {a b : Nat} (h : a.repr = b.repr) : a = b := by
  have ha := natural?_repr a
  rw [h, natural?_repr] at ha
  exact (Option.some.inj ha).symm

theorem integer?_repr (n : Nat) : integer? n.repr.toList = some (n : Int) := by
  have h := natural?_repr n
  unfold integer?
  split
  · next cs hcs =>
    rw [hcs] at h
    have := isDigit_of_natural? h '-' (List.mem_cons_self ..)
    simp at this
  · rw [h, Option.map_some]
    rfl

theorem integer?_toString (v : Int) : integer? (toString v).toList = some v := by
  rw [Int.toString_eq_repr, Int.repr_eq_if]
  split
  · next h =>
    rw [integer?_repr]
    congr 1
    omega
  · next h =>
    have hchars : ("-" ++ (-v).toNat.repr).toList = '-' :: (-v).toNat.repr.toList := by
      rw [String.toList_append]; rfl
    rw [hchars, integer?, natural?_repr, Option.map_some]
    congr 1
    have : Int.ofNat (-v).toNat = -v := Int.toNat_of_nonneg (by omega)
    omega

theorem int32?_toString (v : Int32) : int32? (toString v.toInt).toList = some v := by
  have hlo := v.le_toInt
  have hhi := v.toInt_lt
  rw [int32?, integer?_toString, Option.bind_some, if_pos ⟨by omega, by omega⟩,
    Int32.ofInt_toInt]

/-! ### Words -/

/-- The words of a line. -/
def words (line : List Char) : List (List Char) := line.splitOn ' '

theorem words_cons {w rest : List Char} (h : ' ' ∉ w) :
    words (w ++ ' ' :: rest) = w :: words rest :=
  List.splitOn_append_cons_self_of_not_mem h rest

theorem words_last {w : List Char} (h : ' ' ∉ w) : words w = [w] :=
  List.splitOn_eq_singleton h

/-- A word without the mark that ends it. -/
def endedBy? (mark : Char) (w : List Char) : Option (List Char) :=
  if w.getLast? = some mark then some w.dropLast else none

@[simp] theorem endedBy?_append_self (mark : Char) (w : List Char) :
    endedBy? mark (w ++ [mark]) = some w := by
  simp [endedBy?]

/-- Neither a word nor a line ends inside. -/
structure Solid (w : List Char) : Prop where
  noBlank : ' ' ∉ w
  noFeed : '\n' ∉ w

theorem Solid.append {a b : List Char} (ha : Solid a) (hb : Solid b) : Solid (a ++ b) where
  noBlank := by simp [ha.noBlank, hb.noBlank]
  noFeed := by simp [ha.noFeed, hb.noFeed]

theorem solid_mark {c : Char} (h : c ≠ ' ' ∧ c ≠ '\n') : Solid [c] :=
  ⟨by simpa using h.1.symm, by simpa using h.2.symm⟩

theorem solid_of_integer? {cs : List Char} {n : Int} (h : integer? cs = some n) : Solid cs where
  noBlank := not_mem_of_integer? h (by decide) (by decide)
  noFeed := not_mem_of_integer? h (by decide) (by decide)

/-- The words stand in the line with a blank between any two. -/
inductive Spaced : List Char → List (List Char) → Prop
  | last {w} : Solid w → Spaced w [w]
  | cons {w rest ws} : Solid w → Spaced rest ws → Spaced (w ++ ' ' :: rest) (w :: ws)

theorem Spaced.words {line : List Char} {ws : List (List Char)} (h : Spaced line ws) :
    words line = ws := by
  induction h with
  | last hw => exact words_last hw.noBlank
  | cons hw _ ih => rw [words_cons hw.noBlank, ih]

theorem Spaced.noFeed {line : List Char} {ws : List (List Char)} (h : Spaced line ws) :
    '\n' ∉ line := by
  induction h with
  | last hw => exact hw.noFeed
  | cons hw _ ih => simp [hw.noFeed, ih]

/-! ### Lines -/

/-- The lines of a text; each is ended by a line feed. -/
def lines (text : String) : List (List Char) := (text.toList.splitOn '\n').dropLast

theorem splitOn_flatMap {ls : List (List Char)} (h : ∀ l ∈ ls, '\n' ∉ l) :
    (ls.flatMap (· ++ ['\n'])).splitOn '\n' = ls ++ [[]] := by
  induction ls with
  | nil => rfl
  | cons l rest ih =>
    have hl : '\n' ∉ l := h l (List.mem_cons_self ..)
    have hrest : ∀ l ∈ rest, '\n' ∉ l := fun l hl => h l (List.mem_cons_of_mem _ hl)
    rw [List.flatMap_cons, List.append_assoc, List.singleton_append,
      List.splitOn_append_cons_self_of_not_mem hl, ih hrest, List.cons_append]

/-- A text that was made of lines is taken apart into these lines. -/
theorem lines_joined {ls : List String} (h : ∀ l ∈ ls, '\n' ∉ l.toList) :
    lines (String.join (ls.map (· ++ "\n"))) = ls.map String.toList := by
  have hchars : (String.join (ls.map (· ++ "\n"))).toList
      = (ls.map String.toList).flatMap (· ++ ['\n']) := by
    rw [String.toList_join, List.flatMap_map, List.flatMap_map]
    simp only [String.toList_append]
    rfl
  rw [lines, hchars, splitOn_flatMap, List.dropLast_concat]
  intro l hl
  obtain ⟨s, hs, rfl⟩ := List.mem_map.mp hl
  exact h s hs

end JavaMinus.Reading
