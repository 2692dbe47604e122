/-
JavaMinus/Proofs/ThreeAddress/Tags.lean

The texts of tags, and the types that they stand for.

Three names of types have a spelling of their own behind the dot (`Tag.spellings`); every
other name is copied.  Arrays have one more word in front.  A name without a dot in it
cannot be taken for that word, so two types with one text agree on being arrays, and the
names behind the dots are spelled alike.

Being spelled alike is not being alike, for nothing keeps a class from having one of the
three spellings for its name.  These are the only names that are taken for others
(`tag_texts_agree_iff`), and what is a class in the source is then a number, a truth value
or nothing at all to a reader of the text (`class_text_not_unique`).
-/
import JavaMinus.Proofs.WellTyped
import JavaMinus.ThreeAddress.Tag

namespace JavaMinus.ThreeAddress.Tag

/-! ### Names -/

/-- The names that are not written as they are, with what is written for them. -/
def spellings : List (String × String) := [("int", "i32"), ("boolean", "bool"), ("void", "V")]

/-- What stands behind the dot for the name of a type. -/
def written (name : String) : String := (spellings.lookup name).getD name

theorem text_ofName (name : String) : (ofName name).text = "." ++ written name := by
  rw [ofName, written, spellings, List.lookup_cons, List.lookup_cons, List.lookup_cons]
  -- the spellings are looked through in the order in which the names are tested
  cases name == "int" with
  | true => rfl
  | false =>
    cases name == "boolean" with
    | true => rfl
    | false => cases name == "void" <;> rfl

variable {name a b : String}

/-- A name is written by its spelling, or as it is if it has none. -/
theorem written_cases (name : String) :
    (name, written name) ∈ spellings ∨ (name ∉ Ty.reserved ∧ written name = name) := by
  by_cases h : name ∈ Ty.reserved
  · left
    revert name
    decide
  · have hnone : spellings.lookup name = none := by
      rw [List.lookup_eq_none_iff]
      intro p hp
      apply bne_iff_ne.mpr
      rintro rfl
      exact h (List.mem_map_of_mem (f := Prod.fst) hp)
    exact .inr ⟨h, by rw [written, hnone]; rfl⟩

/-- What a name is spelled like is spelled the same, as a name. -/
theorem written_of_mem_spellings (h : (a, b) ∈ spellings) : written a = b ∧ written b = b := by
  revert h
  suffices ∀ p ∈ spellings, written p.1 = p.2 ∧ written p.2 = p.2 from this (a, b)
  decide

theorem eq_of_mem_spellings {spelling : String} (ha : (a, spelling) ∈ spellings)
    (hb : (b, spelling) ∈ spellings) : a = b := by
  have hapart : ∀ p ∈ spellings, ∀ q ∈ spellings, p.2 = q.2 → p.1 = q.1 := by decide
  exact hapart _ ha _ hb rfl

/-- Names are written alike if they are the same, or if one of them is the spelling of the
other. -/
theorem written_eq_written_iff :
    written a = written b ↔ a = b ∨ (a, b) ∈ spellings ∨ (b, a) ∈ spellings := by
  constructor
  · intro h
    rcases written_cases a with ha | ⟨-, ha⟩ <;> rcases written_cases b with hb | ⟨-, hb⟩
    · exact .inl (eq_of_mem_spellings ha (h ▸ hb))
    · exact .inr (.inl (hb ▸ h ▸ ha))
    · exact .inr (.inr (ha ▸ h ▸ hb))
    · exact .inl (ha.symm.trans (h.trans hb))
  · rintro (rfl | hab | hba)
    · rfl
    · obtain ⟨ha, hb⟩ := written_of_mem_spellings hab
      exact ha.trans hb.symm
    · obtain ⟨hb, ha⟩ := written_of_mem_spellings hba
      exact ha.trans hb.symm

theorem dot_not_mem_written (h : '.' ∉ name.toList) : '.' ∉ (written name).toList := by
  rcases written_cases name with hspelled | ⟨-, hname⟩
  · suffices ∀ p ∈ spellings, '.' ∉ p.2.toList from this _ hspelled
    decide
  · rwa [hname]

/-! ### Types -/

variable {s t : Ty}

theorem text_ofTy (t : Ty) :
    (ofTy t).text = if t.isArray then ".array." ++ written t.name else "." ++ written t.name := by
  cases t with
  | scalar name => exact text_ofName name
  | array name | varargs name =>
    show ".array" ++ (ofName name).text = _
    rw [text_ofName, ← String.append_assoc]
    rfl

/-- An array is not written like anything that is none. -/
theorem text_array_ne {array name : String} (h : '.' ∉ name.toList) :
    ".array." ++ array ≠ "." ++ name := by
  intro heq
  have hchars := congrArg String.toList heq
  rw [String.toList_append, String.toList_append] at hchars
  -- the dot behind the word would have to be one of the name
  have hname : "array.".toList ++ array.toList = name.toList := List.tail_eq_of_cons_eq hchars
  apply h
  rw [← hname]
  exact List.mem_append_left _ (by decide)

theorem text_eq_text_iff (hs : '.' ∉ s.name.toList) (ht : '.' ∉ t.name.toList) :
    (ofTy s).text = (ofTy t).text ↔ s.isArray = t.isArray ∧ written s.name = written t.name := by
  rw [text_ofTy, text_ofTy]
  have hs := dot_not_mem_written hs
  have ht := dot_not_mem_written ht
  cases s.isArray <;> cases t.isArray
  · simp
  · exact iff_of_false (text_array_ne hs).symm (by simp)
  · exact iff_of_false (text_array_ne ht) (by simp)
  · simp

theorem text_agree_iff (hs : '.' ∉ s.name.toList) (ht : '.' ∉ t.name.toList) :
    (ofTy s).text = (ofTy t).text ↔ s.isArray = t.isArray ∧
      (s.name = t.name ∨ (s.name, t.name) ∈ spellings ∨ (t.name, s.name) ∈ spellings) :=
  (text_eq_text_iff hs ht).trans (and_congr_right' written_eq_written_iff)

theorem dot_not_mem_reserved (h : name ∈ Ty.reserved) : '.' ∉ name.toList := by
  revert name
  decide

/-- A class is taken for what the language defines just if its name is a spelling. -/
theorem text_eq_builtIn_iff (hs : '.' ∉ s.name.toList) (hclass : s.name ∉ Ty.reserved) :
    (∃ builtIn : Ty, builtIn.name ∈ Ty.reserved ∧ (ofTy s).text = (ofTy builtIn).text) ↔
      s.name ∈ spellings.map Prod.snd := by
  constructor
  · rintro ⟨builtIn, hbuiltIn, htext⟩
    obtain ⟨-, hname⟩ := (text_agree_iff hs (dot_not_mem_reserved hbuiltIn)).mp htext
    rcases hname with hsame | hclassSpelled | hspelled
    · exact absurd (hsame ▸ hbuiltIn) hclass
    · exact absurd (List.mem_map_of_mem (f := Prod.fst) hclassSpelled) hclass
    · exact List.mem_map_of_mem (f := Prod.snd) hspelled
  · intro hspelling
    obtain ⟨⟨builtIn, spelling⟩, hmem, rfl⟩ := List.mem_map.mp hspelling
    have hreserved : builtIn ∈ Ty.reserved := List.mem_map_of_mem (f := Prod.fst) hmem
    obtain ⟨t, rfl, hisArray⟩ : ∃ t : Ty, t.name = builtIn ∧ s.isArray = t.isArray := by
      cases s with
      | scalar name => exact ⟨.scalar builtIn, rfl, rfl⟩
      | array name | varargs name => exact ⟨.array builtIn, rfl, rfl⟩
    have hagree := text_agree_iff hs (dot_not_mem_reserved hreserved)
    exact ⟨t, hreserved, hagree.mpr ⟨hisArray, .inr (.inr hmem)⟩⟩

/-- **What the text of a tag tells of the type.**  Of types without dots in their names those
have one text that agree on being arrays and have one name, or of which one has the name that
the other one is spelled with.  So a class is taken for a number, a truth value or nothing
just if its name is one of the three spellings. -/
theorem tag_texts_agree_iff (hs : '.' ∉ s.name.toList) (ht : '.' ∉ t.name.toList) :
    ((ofTy s).text = (ofTy t).text ↔ s.isArray = t.isArray ∧
      (s.name = t.name ∨ (s.name, t.name) ∈ spellings ∨ (t.name, s.name) ∈ spellings)) ∧
    (s.name ∉ Ty.reserved →
      ((∃ builtIn : Ty, builtIn.name ∈ Ty.reserved ∧ (ofTy s).text = (ofTy builtIn).text) ↔
        s.name ∈ spellings.map Prod.snd)) :=
  ⟨text_agree_iff hs ht, text_eq_builtIn_iff hs⟩

/-- Rows of consoles are told from a console, and from what the language defines. -/
theorem tag_texts_agree_iff_console :
    (ofTy (.array "Console")).text ≠ (ofTy (.scalar "Console")).text ∧
      ∀ builtIn : Ty, builtIn.name ∈ Ty.reserved →
        (ofTy (.array "Console")).text ≠ (ofTy builtIn).text := by
  obtain ⟨hagree, hbuiltIn⟩ := tag_texts_agree_iff (s := .array "Console") (t := .scalar "Console")
    (by decide) (by decide)
  constructor
  · intro htext
    nomatch (hagree.mp htext).1
  · intro builtIn hreserved htext
    have hspelling := (hbuiltIn (by decide)).mp ⟨builtIn, hreserved, htext⟩
    revert hspelling
    decide

/-- Types with one text need not have one name: a class may be named like the mark of
numbers. -/
theorem class_text_not_unique :
    ¬ ∀ s t : Ty, '.' ∉ s.name.toList → '.' ∉ t.name.toList → (ofTy s).text = (ofTy t).text →
      s.name = t.name ∧ s.isArray = t.isArray := by
  intro h
  have hname := (h (.scalar "i32") .int (by decide) (by decide) (by decide)).1
  revert hname
  decide

end JavaMinus.ThreeAddress.Tag
