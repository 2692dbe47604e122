/-
JavaMinus/Proofs/Assembly/Descriptors.lean

Descriptors written one behind the other.

The text of a descriptor shows its own end, so it can be read off the front of a longer
text, whatever stands behind it (`Descriptor.read?`).  Only the name of a class has to be
looked through for its end, which is the first semicolon; the name itself must not have
one.  Names come from the graph, or from the imports with slashes for dots, so it is enough
that none of these has a semicolon (`closed_descriptor`).

What is read off the front is what was written there (`Descriptor.read?_text`).  Hence no
descriptor is the beginning of another one, and a text that is put together of descriptors
falls apart in one way only (`descriptors_are_uniquely_decodable`).
-/
import JavaMinus.Assembly.Text
import Mathlib.Data.List.Forall2
import Mathlib.Data.List.TakeDrop
import Mathlib.Data.String.Basic

namespace JavaMinus

open JavaMinus.Graph (ClassUnit ValueType)

/-! ### Reading a descriptor -/

namespace Assembly.Descriptor

/-- The descriptor at the front of a text, and what stands behind it. -/
def read? : List Char → Option (Descriptor × List Char)
  | 'I' :: rest => some (int, rest)
  | 'Z' :: rest => some (boolean, rest)
  | 'V' :: rest => some (void, rest)
  | '[' :: rest => (read? rest).map fun (element, behind) => (array element, behind)
  | 'L' :: rest =>
    match rest.span (· ≠ ';') with
    | (_, []) => none
    | (name, _ :: behind) => some (object (String.ofList name), behind)
  | _ => none

/-- Whether the name of the class, if there is one, goes on to the semicolon behind it. -/
def Closed : Descriptor → Prop
  | int | boolean | void => True
  | array element => element.Closed
  | object internalName => ';' ∉ internalName.toList

variable {d d' : Descriptor} {ds ds' : List Descriptor} {rest rest' : List Char}

/-- The name of a class is divided from what stands behind it at the first semicolon. -/
theorem span_semicolon {name : List Char} (h : ';' ∉ name) (rest : List Char) :
    (name ++ ';' :: rest).span (· ≠ ';') = (name, ';' :: rest) := by
  have hname : ∀ c ∈ name, decide (c ≠ ';') = true := fun c hc =>
    decide_eq_true fun heq => h (heq ▸ hc)
  rw [List.span_eq_takeWhile_dropWhile, List.takeWhile_append_of_pos hname,
    List.dropWhile_append_of_pos hname]
  exact congrArg (·, ';' :: rest) (List.append_nil name)

/-- A descriptor is read off the front of a text that it was written to. -/
theorem read?_text (h : d.Closed) (rest : List Char) :
    read? (d.text.toList ++ rest) = some (d, rest) := by
  induction d with
  | int | boolean | void => rfl
  | array element ih =>
    have htext : (array element).text.toList ++ rest = '[' :: (element.text.toList ++ rest) := by
      rw [text, String.toList_append]
      rfl
    rw [htext, read?, ih h]
    rfl
  | object internalName =>
    have htext : (object internalName).text.toList ++ rest =
        'L' :: (internalName.toList ++ ';' :: rest) := by
      rw [text, String.toList_append, String.toList_append, List.append_assoc, List.append_assoc]
      rfl
    rw [htext, read?, span_semicolon h]
    exact congrArg (fun name => some (object name, rest)) String.ofList_toList

/-- Two descriptors with the same text in front of them end at the same place. -/
theorem eq_of_text_append (h : d.Closed) (h' : d'.Closed)
    (heq : d.text.toList ++ rest = d'.text.toList ++ rest') : d = d' ∧ rest = rest' := by
  have hread := congrArg read? heq
  rw [read?_text h, read?_text h', Option.some_inj, Prod.mk.injEq] at hread
  exact hread

theorem textAll_cons (d : Descriptor) (ds : List Descriptor) :
    (textAll (d :: ds)).toList = d.text.toList ++ (textAll ds).toList := by
  rw [textAll, List.map_cons, String.join_cons, String.toList_append]
  rfl

/-- Descriptors one behind the other are the same if the text is, and end at the same place
if no other descriptor stands there. -/
theorem eq_of_textAll_append (h : ∀ d ∈ ds, d.Closed) (h' : ∀ d ∈ ds', d.Closed)
    (hrest : read? rest = none) (hrest' : read? rest' = none)
    (heq : (textAll ds).toList ++ rest = (textAll ds').toList ++ rest') :
    ds = ds' ∧ rest = rest' := by
  -- on the first list; if one of the two ends, no descriptor is read where it does
  induction ds generalizing ds' with
  | nil =>
    cases ds' with
    | nil => exact ⟨rfl, heq⟩
    | cons d' more' =>
      have heq : rest = (textAll (d' :: more')).toList ++ rest' := heq
      rw [heq, textAll_cons, List.append_assoc, read?_text (h' d' (List.mem_cons_self ..))] at hrest
      nomatch hrest
  | cons d more ih =>
    obtain ⟨hd, hmore⟩ := List.forall_mem_cons.mp h
    rw [textAll_cons, List.append_assoc] at heq
    cases ds' with
    | nil =>
      have heq : _ = rest' := heq
      rw [← heq, read?_text hd] at hrest'
      nomatch hrest'
    | cons d' more' =>
      obtain ⟨hd', hmore'⟩ := List.forall_mem_cons.mp h'
      rw [textAll_cons, List.append_assoc] at heq
      obtain ⟨rfl, hbehind⟩ := eq_of_text_append hd hd' heq
      obtain ⟨rfl, rfl⟩ := ih hmore hmore' hbehind
      exact ⟨rfl, rfl⟩

theorem textAll_inj (h : ∀ d ∈ ds, d.Closed) (h' : ∀ d ∈ ds', d.Closed)
    (heq : textAll ds = textAll ds') : ds = ds' := by
  have hchars : (textAll ds).toList ++ [] = (textAll ds').toList ++ [] := by rw [heq]
  exact (eq_of_textAll_append h h' rfl rfl hchars).1

end Assembly.Descriptor

/-! ### Names of classes -/

/-- The classes that a type names. -/
def Graph.ValueType.classNames : ValueType → List String
  | array element => element.classNames
  | object className | classRef className | self className => [className]
  | int | boolean | string | void => []

/-- Whether none of the given names has a semicolon. -/
def WithoutSemicolons (names : List String) : Prop := ∀ name ∈ names, ';' ∉ name.toList

instance (names : List String) : Decidable (WithoutSemicolons names) :=
  inferInstanceAs (Decidable (∀ name ∈ names, ';' ∉ name.toList))

namespace Assembly

open Descriptor

variable {u : ClassUnit}

theorem semicolon_not_mem_slashed {path : String} (h : ';' ∉ path.toList) :
    ';' ∉ (QualifiedName.slashed path).toList := by
  rw [QualifiedName.slashed, String.toList_ofList, List.mem_map]
  rintro ⟨c, hc, hslash⟩
  split at hslash
  · nomatch hslash
  · exact h (hslash ▸ hc)

theorem semicolon_not_mem_internalName (himports : WithoutSemicolons u.imports) {name : String}
    (h : ';' ∉ name.toList) : ';' ∉ (u.internalName name).toList := by
  rw [ClassUnit.internalName]
  split
  · next path hpath =>
    exact semicolon_not_mem_slashed (himports path (List.mem_of_find?_eq_some hpath))
  · exact h

theorem closed_descriptor (himports : WithoutSemicolons u.imports) {t : ValueType}
    (h : WithoutSemicolons t.classNames) : (u.descriptor t).Closed := by
  induction t with
  | int | boolean | void => trivial
  | string => exact (by decide : ';' ∉ "java/lang/String".toList)
  | array element ih => exact ih h
  | object name | classRef name | self name =>
    exact semicolon_not_mem_internalName himports (h name (List.mem_singleton_self name))

/-! ### Descriptors of the graph -/

theorem closed_descriptors (himports : WithoutSemicolons u.imports) {ts : List ValueType}
    (h : ∀ t ∈ ts, WithoutSemicolons t.classNames) : ∀ d ∈ ts.map u.descriptor, d.Closed :=
  List.forall_mem_map.mpr fun t ht => closed_descriptor himports (h t ht)

theorem forall₂_text_of_map_eq {ts ts' : List ValueType}
    (h : ts.map u.descriptor = ts'.map u.descriptor) :
    List.Forall₂ (fun t t' => (u.descriptor t).text = (u.descriptor t').text) ts ts' := by
  have hsame : List.Forall₂ (· = ·) (ts.map u.descriptor) (ts'.map u.descriptor) := by
    rw [List.forall₂_eq_eq_eq]
    exact h
  rw [List.forall₂_map_left_iff, List.forall₂_map_right_iff] at hsame
  exact hsame.imp fun _ _ heq => congrArg text heq

/-- Of methods with one owner and one name the reference tells the types of the parameters
and of the result. -/
theorem descriptors_eq_of_text {owner name : String} {ds ds' : List Descriptor}
    {d d' : Descriptor} (h : ∀ d ∈ ds, d.Closed) (h' : ∀ d ∈ ds', d.Closed) (hd : d.Closed)
    (hd' : d'.Closed)
    (heq : (⟨owner, name, ds, d⟩ : MethodRef).text = (⟨owner, name, ds', d'⟩ : MethodRef).text) :
    ds = ds' ∧ d = d' := by
  have htext : ∀ (ds : List Descriptor) (d : Descriptor),
      (⟨owner, name, ds, d⟩ : MethodRef).text.toList =
        (owner ++ "/" ++ name ++ "(").toList ++
          ((textAll ds).toList ++ ')' :: (d.text.toList ++ [])) := by
    intro ds d
    rw [MethodRef.text, List.append_nil]
    simp only [toString, String.toList_append, List.append_assoc]
    rfl
  have heq := congrArg String.toList heq
  rw [htext, htext] at heq
  -- no descriptor begins with the bracket behind the parameters
  obtain ⟨rfl, hbehind⟩ := eq_of_textAll_append h h' rfl rfl (List.append_cancel_left heq)
  exact ⟨rfl, (eq_of_text_append hd hd' (List.tail_eq_of_cons_eq hbehind)).1⟩

/-- **Descriptors fall apart in one way only.**  In a class whose imports have no semicolons
in their names, lists of types whose classes have none are as long as each other, and have
the same descriptors one by one, if these are the same when they are written one behind the
other.  No descriptor is the beginning of another one.  And references to methods of one
owner and one name differ if a parameter or the result has another descriptor. -/
theorem descriptors_are_uniquely_decodable (himports : WithoutSemicolons u.imports) :
    (∀ ts ts' : List ValueType, (∀ t ∈ ts, WithoutSemicolons t.classNames) →
      (∀ t ∈ ts', WithoutSemicolons t.classNames) →
      textAll (ts.map u.descriptor) = textAll (ts'.map u.descriptor) →
      ts.length = ts'.length ∧
        List.Forall₂ (fun t t' => (u.descriptor t).text = (u.descriptor t').text) ts ts') ∧
    (∀ t t' : ValueType, WithoutSemicolons t.classNames → WithoutSemicolons t'.classNames →
      (u.descriptor t).text.toList <+: (u.descriptor t').text.toList →
      (u.descriptor t).text = (u.descriptor t').text) ∧
    ∀ (owner name : String) (ts ts' : List ValueType) (result result' : ValueType),
      (∀ t ∈ result :: ts, WithoutSemicolons t.classNames) →
      (∀ t ∈ result' :: ts', WithoutSemicolons t.classNames) →
      (⟨owner, name, ts.map u.descriptor, u.descriptor result⟩ : MethodRef).text =
        (⟨owner, name, ts'.map u.descriptor, u.descriptor result'⟩ : MethodRef).text →
      List.Forall₂ (fun t t' => (u.descriptor t).text = (u.descriptor t').text) (result :: ts)
        (result' :: ts') := by
  refine ⟨?_, ?_, ?_⟩
  · intro ts ts' h h' heq
    have hall := forall₂_text_of_map_eq
      (textAll_inj (closed_descriptors himports h) (closed_descriptors himports h') heq)
    exact ⟨hall.length_eq, hall⟩
  · rintro t t' h h' ⟨rest, heq⟩
    have hend : _ = (u.descriptor t').text.toList ++ [] := heq.trans (List.append_nil _).symm
    obtain ⟨hsame, -⟩ :=
      eq_of_text_append (closed_descriptor himports h) (closed_descriptor himports h') hend
    exact congrArg text hsame
  · intro owner name ts ts' result result' h h' heq
    obtain ⟨hresult, hts⟩ := List.forall_mem_cons.mp h
    obtain ⟨hresult', hts'⟩ := List.forall_mem_cons.mp h'
    obtain ⟨hparameters, hsame⟩ := descriptors_eq_of_text (closed_descriptors himports hts)
      (closed_descriptors himports hts') (closed_descriptor himports hresult)
      (closed_descriptor himports hresult') heq
    exact .cons (congrArg text hsame) (forall₂_text_of_map_eq hparameters)

/-! ### Two ways to name a class -/

/-- A class that imports a console. -/
def printing : ClassUnit := { ClassUnit.new "Print" with imports := ["java.io.Console"] }

/-- Rows of consoles and a text, the second time by the names that the machine has. -/
theorem descriptors_are_uniquely_decodable_printing :
    WithoutSemicolons printing.imports ∧
    textAll ([.array (.array (.object "Console")), .string].map printing.descriptor) =
      "[[Ljava/io/Console;Ljava/lang/String;" ∧
    List.Forall₂ (fun t t' => (printing.descriptor t).text = (printing.descriptor t').text)
      [.array (.array (.object "Console")), .string]
      [.array (.array (.classRef "java/io/Console")), .self "java/lang/String"] := by
  have himports : WithoutSemicolons printing.imports := by decide
  obtain ⟨hlists, -⟩ := descriptors_are_uniquely_decodable himports
  refine ⟨himports, by decide, ?_⟩
  exact (hlists _ _ (by decide) (by decide) (by decide)).2

end Assembly

end JavaMinus
