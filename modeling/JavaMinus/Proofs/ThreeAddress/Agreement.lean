/-
JavaMinus/Proofs/ThreeAddress/Agreement.lean

Types and tags agree.

Typing and lowering walk over an expression apart from each other.  Where the
walk over the types finds a type, the operand that the expression is lowered to
is written with the tag of that type; where any type is assumed for a call, it
is written with the tag of the type that is wanted
(`operand_is_written_with_its_type`).

No induction is needed: the tag of an operand is decided by the types of parts,
never by the tags that the parts were lowered to.
-/
import JavaMinus.Proofs.Grammar
import JavaMinus.Proofs.ThreeAddress.Consistency
import JavaMinus.Proofs.ThreeAddress.Expansion

namespace JavaMinus.ThreeAddress

open Declarations

/-! ### Operands as they are written -/

/-- What is written of an operand in front of its tag: a name or a literal. -/
def Operand.stem : Operand → String
  | cell c _ => c.text
  | number digits => digits
  | truth value => if value then "1" else "0"
  | self _ => "this"
  | classRef name => name

/-- An operand that has a tag is written with it. -/
theorem Operand.text_eq_stem_append {x : Operand} {tag : Tag} (h : x.tag? = some tag) :
    x.text = x.stem ++ tag.text := by
  cases x with
  | cell c tag' =>
    injection h with h
    rw [← h]
    rfl
  | number digits =>
    injection h with h
    rw [← h]
    rfl
  | truth value =>
    injection h with h
    rw [← h]
    cases value <;> rfl
  | self className =>
    injection h with h
    rw [← h]
    show "this." ++ className = "this" ++ ("." ++ className)
    rw [← String.append_assoc]
    rfl
  | classRef name => nomatch h

/-! ### The tag of a lowered expression -/

variable {d : Declarations} {scope : Option String} {t : Tree} {wanted : Option Ty}
  {c c' : Counters} {v : Value}

/-- The tag of a value agrees with what is known of the type of the expression
that it comes from. -/
structure Agrees (d : Declarations) (scope : Option String) (t : Tree) (wanted : Option Ty)
    (v : Value) : Prop where
  typed : ∀ ty, d.typeOf scope t = .ok (some ty) → v.operand.tag? = some (Tag.ofTy ty)
  assumed : d.typeOf scope t = .ok none → t.kind = .call →
    v.operand.tag? = some (Tag.ofTy (wanted.getD .int))

theorem agrees_of_typeOf {ty : Ty} (hty : d.typeOf scope t = .ok (some ty))
    (htag : v.operand.tag? = some (Tag.ofTy ty)) : Agrees d scope t wanted v where
  typed ty' hty' := by
    rw [hty] at hty'
    injection hty' with h
    injection h with h
    rw [htag, h]
  assumed hnone := by
    rw [hty] at hnone
    nomatch hnone

theorem YieldsArray.tag? {element : Ty} {ts : List Tree}
    (h : YieldsArray d scope element ts c v c') :
    v.operand.tag? = some (Tag.ofTy (.array element.name)) := by
  obtain ⟨-⟩ := h
  rfl

/-- A row with a first element starts with it. -/
theorem exists_eq_cons {ts : List Tree} {u : Tree} (h : ts[0]? = some u) :
    ∃ rest, ts = u :: rest := by
  rcases ts with - | ⟨first, rest⟩
  · nomatch h
  · injection h with h
    exact ⟨rest, by rw [h]⟩

theorem Yields.agrees_of_clear (hself : t.kind = .self → d.className ∉ Ty.reserved)
    (hnew : t.kind = .newObject → t.name ∉ Ty.reserved) (h : Yields d scope t wanted c v c')
    (hvalue : d.namesClass scope t = false) : Agrees d scope t wanted v := by
  cases h.expands with
  | integer hk => exact agrees_of_typeOf (typeOf_integer hk) rfl
  | boolean hk => exact agrees_of_typeOf (typeOf_boolean hk) rfl
  | self hk =>
    apply agrees_of_typeOf (typeOf_self hk)
    show some (Tag.object d.className) = some (Tag.ofName d.className)
    -- the name of the class is not one that has a tag of its own
    rw [ofName_of_not_reserved (hself hk)]
  | unbound hk hb => exact agrees_of_typeOf (typeOf_unbound hk hb) rfl
  | variable_ hk hb => exact agrees_of_typeOf (typeOf_identifier hk hb) rfl
  | field hk hb => exact agrees_of_typeOf (typeOf_identifier hk hb) rfl
  | classRef hk hb hclass =>
    rw [namesClass, hk, hb, Option.any_some, hclass] at hvalue
    nomatch hvalue
  | arithmetic hk hop => exact agrees_of_typeOf (typeOf_arithmetic hk hop) rfl
  | logical hk hop => exact agrees_of_typeOf (typeOf_logical hk hop) rfl
  | call hk hcall =>
    obtain ⟨-, hdeclared, -, -⟩ := hcall
    rw [← typeOf_call _ _ _ hk] at hdeclared
    constructor
    · intro ty hty
      rw [hdeclared] at hty
      injection hty with hty
      rw [hty]
      rfl
    · intro hnone _
      rw [hdeclared] at hnone
      injection hnone with hnone
      rw [hnone]
      rfl
  | @elementRead array _ found tag _ _ _ _ hk harray _ ha htag =>
    obtain ⟨rest, hcs⟩ := exists_eq_cons harray
    have hread := typeOf_elementRead_eq hk hcs ha
    constructor
    · intro ty hty
      rw [hread] at hty
      injection hty with hty
      obtain ⟨arrayType, rfl, rfl⟩ := Option.map_eq_some_iff.mp hty
      rw [htag]
      rfl
    · intro _ hcall
      rw [hk] at hcall
      nomatch hcall
  | emptyLiteral hk hcs hx => exact agrees_of_typeOf (typeOf_emptyLiteral hk hcs) hx.tag?
  | arrayLiteral hk hcs hfirst hx =>
    exact agrees_of_typeOf (typeOf_arrayLiteral hk hcs hfirst) hx.tag?
  | newObject hk =>
    apply agrees_of_typeOf (typeOf_newObject hk)
    show some (Tag.object t.name) = some (Tag.ofName t.name)
    rw [ofName_of_not_reserved (hnew hk)]
  | newArray hk => exact agrees_of_typeOf (typeOf_newArray hk) rfl
  | length hk => exact agrees_of_typeOf (typeOf_length hk) rfl

theorem Yields.agrees (hown : d.className ∉ Ty.reserved)
    (hnew : t.kind = .newObject → t.name ∉ Ty.reserved) (h : Yields d scope t wanted c v c')
    (hvalue : d.namesClass scope t = false) : Agrees d scope t wanted v :=
  h.agrees_of_clear (fun _ => hown) hnew hvalue

/-- **Typing and lowering agree.**  Where an expression has a type, and is not
the name of a class, the operand that it is lowered to is written as a name or a
literal with the tag of the type behind it.  Where any type is assumed for a
call, the tag is that of the type that is wanted, or that of `int`. -/
theorem operand_is_written_with_its_type (hown : d.className ∉ Ty.reserved)
    (hnew : t.kind = .newObject → t.name ∉ Ty.reserved)
    (h : (lower d scope t wanted).run c = .ok (v, c')) :
    (∀ ty, d.typeOf scope t = .ok (some ty) → d.namesClass scope t = false →
      v.operand.text = v.operand.stem ++ (Tag.ofTy ty).text) ∧
    (d.typeOf scope t = .ok none → t.kind = .call →
      v.operand.text = v.operand.stem ++ (Tag.ofTy (wanted.getD .int)).text) := by
  constructor
  · intro ty hty hvalue
    have hagrees := Yields.agrees hown hnew h hvalue
    exact Operand.text_eq_stem_append (hagrees.typed ty hty)
  · intro hnone hcall
    have hvalue : d.namesClass scope t = false := by rw [namesClass, hcall]; rfl
    have hagrees := Yields.agrees hown hnew h hvalue
    exact Operand.text_eq_stem_append (hagrees.assumed hnone hcall)

/-! ### An element of a field, and a call of which nothing is known

In a class `Flags extends Base` that declares `boolean[] flags`, the expression
`flags[0]` has a type, and `this.inherited()` has the one that is wanted.
-/

def flagsDeclarations : Declarations :=
  ⟨"Flags", some "Base", [], [⟨"flags", .array "boolean"⟩], []⟩

def flagRead : Tree :=
  (Form.elementRead (Form.identifier "flags").tree (Form.integer 0).tree).tree

def inheritedCall : Tree := (Form.call "inherited" Form.self.tree []).tree

theorem flags_are_written_with_their_types :
    (∃ v c', (lower flagsDeclarations none flagRead none).run ⟨0, 0⟩ = .ok (v, c') ∧
      v.operand.stem = "t2" ∧ v.operand.text = v.operand.stem ++ (Tag.ofTy .boolean).text) ∧
    ∃ v c', (lower flagsDeclarations none inheritedCall (some .boolean)).run ⟨0, 0⟩ = .ok (v, c') ∧
      v.operand.stem = "t0" ∧ v.operand.text = v.operand.stem ++ (Tag.ofTy .boolean).text := by
  have hown : flagsDeclarations.className ∉ Ty.reserved := by decide
  constructor
  · have hnew : flagRead.kind = .newObject → flagRead.name ∉ Ty.reserved := by decide
    obtain ⟨v, c', hrun, hstem⟩ : ∃ v c', (lower flagsDeclarations none flagRead none).run ⟨0, 0⟩ =
        .ok (v, c') ∧ v.operand.stem = "t2" := ⟨_, _, rfl, rfl⟩
    have hwritten := (operand_is_written_with_its_type hown hnew hrun).1 .boolean rfl rfl
    exact ⟨v, c', hrun, hstem, hwritten⟩
  · have hnew : inheritedCall.kind = .newObject → inheritedCall.name ∉ Ty.reserved := by decide
    obtain ⟨v, c', hrun, hstem⟩ : ∃ v c', (lower flagsDeclarations none inheritedCall
        (some .boolean)).run ⟨0, 0⟩ = .ok (v, c') ∧ v.operand.stem = "t0" := ⟨_, _, rfl, rfl⟩
    have hwritten := (operand_is_written_with_its_type hown hnew hrun).2 rfl rfl
    exact ⟨v, c', hrun, hstem, hwritten⟩

end JavaMinus.ThreeAddress
