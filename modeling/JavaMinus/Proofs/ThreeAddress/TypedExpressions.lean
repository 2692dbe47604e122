/-
JavaMinus/Proofs/ThreeAddress/TypedExpressions.lean

Well-typed expressions become consistent code.

A well-typed expression that has a value is always lowered
(`lowers_of_wellTyped`).  Its lines are consistent in whatever method they
stand, and behind them its operand is written with the tag of its type, or
with that of the type that is wanted where its own is not known (`Typed`).

The proof is by induction on the judgement.  Elements of arrays and arguments
of calls are lowered one after another, so what holds of each is carried
through the list first (`exists_storeFrom`, `exists_lowerEach`).
-/
import JavaMinus.Proofs.Declarations
import JavaMinus.Proofs.ThreeAddress.Consistency
import JavaMinus.Proofs.ThreeAddress.Expressions

namespace JavaMinus.ThreeAddress

open Declarations

variable {d : Declarations} {name : String} {result : Tag}

/-! ### Consistent lines -/

/-- Lines that are consistent wherever they stand in a method of the given name
and result. -/
def Sound (d : Declarations) (name : String) (result : Tag) (code : List Line) : Prop :=
  ∀ m : Method, m.name = name → m.result = result → code ⊆ m.body →
    ∀ l ∈ code, l.isConsistent d m

theorem sound_nil : Sound d name result [] := by
  intro m _ _ _ l hl
  cases hl

theorem Sound.append {code code' : List Line} (h : Sound d name result code)
    (h' : Sound d name result code') : Sound d name result (code ++ code') := by
  intro m hname hresult hbody l hl
  obtain ⟨hleft, hright⟩ := List.append_subset.mp hbody
  rcases List.mem_append.mp hl with hl | hl
  · exact h m hname hresult hleft l hl
  · exact h' m hname hresult hright l hl

/-- A line that is consistent behind those that it stands behind. -/
theorem Sound.concat {code : List Line} {l : Line} (h : Sound d name result code)
    (hl : ∀ m : Method, m.name = name → m.result = result → code ++ [l] ⊆ m.body →
      l.isConsistent d m) : Sound d name result (code ++ [l]) := by
  intro m hname hresult hbody l' hl'
  rcases List.mem_append.mp hl' with hl' | hl'
  · exact h m hname hresult (List.append_subset.mp hbody).1 l' hl'
  · rw [List.mem_singleton.mp hl']
    exact hl m hname hresult hbody

theorem sound_flatMap {xs : List Value} (h : ∀ x ∈ xs, Sound d name result x.code) :
    Sound d name result (xs.flatMap (·.code)) := by
  induction xs with
  | nil => exact sound_nil
  | cons x rest ih =>
    rw [List.flatMap_cons]
    exact (h x (List.mem_cons_self ..)).append (ih fun y hy => h y (List.mem_cons_of_mem _ hy))

/-! ### Typed operands -/

/-- An operand is the name of an array, behind the lines of its value. -/
def HoldsArray (d : Declarations) (name : String) (v : Value) : Prop :=
  ∀ m : Method, m.name = name → v.code ⊆ m.body → v.operand.isArray d m

/-- The lines of a value are consistent, and its operand has the type of an
expression. -/
structure Typed (d : Declarations) (name : String) (result : Tag) (t : Tree)
    (wanted : Option Ty) (v : Value) : Prop where
  sound : Sound d name result v.code
  tag? : d.namesClass (some name) t = false →
    v.operand.tag? = some (Tag.ofTy ((d.known? (some name) t).getD (wanted.getD .int)))
  isArray : ∀ ty, d.typeOf (some name) t = .ok (some ty) → ty.isArray → HoldsArray d name v

/-- An expression is lowered to a value of its type, whatever is wanted. -/
def Lowers (d : Declarations) (name : String) (result : Tag) (t : Tree) : Prop :=
  ∀ (wanted : Option Ty) (c : Counters), wanted ≠ some .void →
    ∃ v c', (lower d (some name) t wanted).run c = .ok (v, c') ∧
      Typed d name result t wanted v

/-- The name of a class is no number and no truth value. -/
theorem namesClass_eq_false (hd : d.ClearNames) {t : Tree} {ty : Ty} (hname : ty.name ∈ Ty.reserved)
    (h : d.MayBe (some name) t ty) : d.namesClass (some name) t = false := by
  rw [namesClass, Bool.and_eq_false_iff]
  by_cases hk : t.kind = .identifier
  · right
    rcases e : d.identifier? (some name) t with - | b
    · rfl
    · by_contra hclass
      have hclass := class?_of_identifier? e (by simpa using hclass)
      rw [MayBe, typeOf_identifier hk e, (class?_eq_some hclass).1] at h
      rcases h with h | h
      · cases h
      · injection h with h
        injection h with h
        rw [← h] at hname
        exact not_reserved_of_class? hd hclass hname
  · left
    exact beq_eq_false_iff_ne.mpr hk

section Operands

variable {t : Tree} {wanted : Option Ty} {v : Value}

/-- An operand of a type that is its own or that is wanted of it. -/
theorem Typed.carries (h : Typed d name result t wanted v) (hd : d.ClearNames) {ty : Ty}
    (hname : ty.name ∈ Ty.reserved) (hty : d.MayBe (some name) t ty)
    (hwanted : wanted.getD .int = ty) : v.operand.carries (Tag.ofTy ty) := by
  have htag := h.tag? (namesClass_eq_false hd hname hty)
  rw [Operand.carries, htag, beq_iff_eq]
  rcases hty with hnone | hty
  · rw [known?_eq hnone, Option.getD_none, hwanted]
  · rw [known?_eq hty, Option.getD_some]

/-- A value goes where a type is declared that it suits. -/
theorem Typed.fits {ty : Ty} (h : Typed d name result t (some ty) v) (hd : d.ClearNames)
    (hsuits : d.Suits (some name) t ty) : v.operand.fits d (Tag.ofTy ty) := by
  rw [Operand.fits, h.tag? hsuits.isValue]
  rcases e : d.known? (some name) t with - | found
  · exact Tag.fits_refl _
  · exact fits_of_compatible hd (hsuits.compatible found (typeOf_of_known? e))

/-- A value of a type that is wanted or its own is not without a value. -/
theorem not_isVoid_of_mayBe {ty : Ty} (hne : ty ≠ .void) (h : d.MayBe (some name) t ty) :
    ¬ d.IsVoid (some name) t := by
  intro hvoid
  rcases h with h | h
  · rw [IsVoid, h] at hvoid
    cases hvoid
  · rw [IsVoid, h] at hvoid
    injection hvoid with hvoid
    injection hvoid with hvoid
    exact hne hvoid

/-- The tag of an expression with a value where one is wanted. -/
theorem ofTy_ne_void (hvalue : ¬ d.IsVoid (some name) t) (hwanted : wanted ≠ some .void) :
    Tag.ofTy ((d.known? (some name) t).getD (wanted.getD .int)) ≠ .void := by
  intro hvoid
  have hvoid := ofTy_eq_void hvoid
  rcases e : d.known? (some name) t with - | ty
  · rw [e, Option.getD_none] at hvoid
    rcases wanted with - | ty
    · exact absurd hvoid (by decide)
    · exact hwanted (congrArg some hvoid)
  · rw [e, Option.getD_some] at hvoid
    subst hvoid
    exact hvalue (typeOf_of_known? e)

/-- A source that is computed into a temporary behind some lines. -/
theorem typed_compute {code : List Line} {tag : Tag} {source : Source} {n : Nat}
    (hcode : Sound d name result code)
    (hsource : ∀ m : Method, m.name = name → code ⊆ m.body → source.isConsistent d m tag)
    (hvalue : ¬ d.IsVoid (some name) t) (hwanted : wanted ≠ some .void)
    (htag : tag = Tag.ofTy ((d.known? (some name) t).getD (wanted.getD .int))) :
    Typed d name result t wanted
      ⟨.cell (.temporary n) tag, code ++ [.assign (.temporary n) tag source]⟩ where
  sound := by
    refine hcode.concat fun m hname _ hbody => ?_
    have hne : tag ≠ .void := htag ▸ ofTy_ne_void hvalue hwanted
    show (tag != .void && source.isConsistent d m tag) = true
    rw [bne_iff_ne.mpr hne, hsource m hname (List.append_subset.mp hbody).1]
    rfl
  tag? := fun _ => congrArg some htag
  isArray := by
    intro ty hty hisArray m _ hbody
    have htagArray : tag.isArray = true := by
      rw [htag, known?_eq hty, Option.getD_some, isArray_ofTy, hisArray]
    show (tag.isArray && m.body.any (·.setsArray n)) = true
    rw [htagArray, Bool.true_and, List.any_eq_true]
    -- the last line is the one that makes the array
    refine ⟨_, hbody (List.mem_append_right _ (List.mem_singleton_self _)), ?_⟩
    show (n == n && tag.isArray) = true
    rw [htagArray, beq_self_eq_true]
    rfl

end Operands

/-! ### Names and constants -/

section Leaves

variable {t : Tree}

theorem typed_plain {wanted : Option Ty} {x : Operand} {ty : Ty}
    (hty : d.typeOf (some name) t = .ok (some ty)) (htag : x.tag? = some (Tag.ofTy ty))
    (hisArray : ty.isArray → HoldsArray d name (.plain x)) :
    Typed d name result t wanted (.plain x) where
  sound := sound_nil
  tag? := fun _ => by
    rw [known?_eq hty, Option.getD_some]
    exact htag
  isArray := by
    intro ty' hty' h
    rw [hty] at hty'
    injection hty' with hty'
    injection hty' with hty'
    subst hty'
    exact hisArray h

theorem lowers_integer (hk : t.kind = .integer) : Lowers d name result t := by
  intro wanted c _
  refine ⟨_, c, by rw [lower_integer hk]; rfl, typed_plain (typeOf_integer hk) ?_ nofun⟩
  rw [Tag.ofTy_int]
  rfl

theorem lowers_boolean (hk : t.kind = .boolean) : Lowers d name result t := by
  intro wanted c _
  refine ⟨_, c, by rw [lower_boolean hk]; rfl, typed_plain (typeOf_boolean hk) ?_ nofun⟩
  rw [Tag.ofTy_boolean]
  rfl

theorem lowers_self (hd : d.ClearNames) (hk : t.kind = .self) : Lowers d name result t := by
  intro wanted c _
  refine ⟨_, c, by rw [lower_self hk]; rfl, typed_plain (typeOf_self hk) ?_ nofun⟩
  have hown : d.isOwnOrSuper d.className := by
    rw [isOwnOrSuper, beq_self_eq_true, Bool.true_or]
  rw [Tag.ofTy, ofName_of_not_reserved (not_reserved_of_isOwnOrSuper hd hown)]
  rfl

theorem lowers_identifier {b : Binding} (hk : t.kind = .identifier)
    (hb : d.identifier? (some name) t = some b) (hvalue : ¬ d.IsVoid (some name) t) :
    Lowers d name result t := by
  intro wanted c hwanted
  have hty := typeOf_identifier hk hb
  have hvariable : b.origin = .local ∨ b.origin = .parameter →
      Typed d name result t wanted (.plain (.cell (.named t.name) (Tag.ofTy b.ty))) := by
    intro horigin
    refine typed_plain hty rfl fun hisArray m hname _ => ?_
    have hb := variableOf?_of_identifier? hb (by rcases horigin with h | h <;> rw [h] <;> rfl)
    have hb := methodVariable?_of_variableOf? hb (by rcases horigin with h | h <;> rw [h] <;> nofun)
    show ((Tag.ofTy b.ty).isArray && (d.methodVariable? m.name t.name).any (·.ty.isArray)) = true
    rw [isArray_ofTy, hisArray, hname, hb, Option.any_some, hisArray]
    rfl
  have hclass : b.origin.isVariable = false →
      Typed d name result t wanted (.plain (.classRef t.name)) := by
    intro horigin
    refine ⟨sound_nil, fun hnot => ?_, fun ty hty' hisArray => ?_⟩
    · rw [namesClass, hk, hb] at hnot
      simp [horigin] at hnot
    · rw [hty, (class?_eq_some (class?_of_identifier? hb horigin)).1] at hty'
      injection hty' with hty'
      injection hty' with hty'
      rw [← hty'] at hisArray
      cases hisArray
  rw [lower_identifier hk, lowerIdentifier, hb]
  -- locals and parameters are read where they are, a field is fetched, a class is named
  obtain ⟨origin, ty⟩ := b
  cases origin
  · exact ⟨_, c, rfl, hvariable (Or.inl rfl)⟩
  · exact ⟨_, c, rfl, hvariable (Or.inr rfl)⟩
  · refine ⟨_, _, run_compute _ _ _ c, typed_compute sound_nil ?_ hvalue hwanted ?_⟩
    · intro m _ _
      exact beq_self_eq_true _
    · rw [known?_eq hty, Option.getD_some]
  · exact ⟨_, c, rfl, hclass rfl⟩
  · exact ⟨_, c, rfl, hclass rfl⟩
  · exact ⟨_, c, rfl, hclass rfl⟩

end Leaves

/-! ### Operations -/

theorem some_int_ne_void : (some .int : Option Ty) ≠ some .void := by decide

theorem some_boolean_ne_void : (some .boolean : Option Ty) ≠ some .void := by decide

section Operations

variable {t left right : Tree}

theorem lowers_arithmetic (hd : d.ClearNames) {op : ArithmeticOperator}
    (hk : t.kind = .arithmetic) (hop : ArithmeticOperator.ofTree t = .ok op)
    (hcs : t.children = [left, right]) (hleft : Lowers d name result left)
    (hright : Lowers d name result right) (hl : d.MayBe (some name) left .int)
    (hr : d.MayBe (some name) right .int) : Lowers d name result t := by
  intro wanted c hwanted
  obtain ⟨x, c₁, hx, hX⟩ := hleft (some .int) c some_int_ne_void
  obtain ⟨y, c₂, hy, hY⟩ := hright (some .int) c₁ some_int_ne_void
  have hty : d.typeOf (some name) t = .ok (some .int) := typeOf_arithmetic hk hop
  have hint : Ty.int.name ∈ Ty.reserved := by decide
  refine ⟨_, _, run_lower_arithmetic hk hop hcs hx hy,
    typed_compute (hX.sound.append hY.sound) ?_
      (not_isVoid_of_mayBe (by decide) (Or.inr hty)) hwanted ?_⟩
  · intro m _ _
    show (Tag.i32 == .i32 && x.operand.carries .i32 && y.operand.carries .i32) = true
    rw [← Tag.ofTy_int, hX.carries hd hint hl rfl, hY.carries hd hint hr rfl]
    rfl
  · rw [known?_eq hty, Option.getD_some, Tag.ofTy_int]

theorem lowers_logical (hd : d.ClearNames) {op : LogicalOperator} {operandType : Ty}
    (hk : t.kind = .logical) (hop : LogicalOperator.ofTree t = .ok op)
    (hcs : t.children = [left, right])
    (hoperand : operandType = if op.isConnective then .boolean else .int)
    (hleft : Lowers d name result left) (hright : Lowers d name result right)
    (hl : d.MayBe (some name) left operandType) (hr : d.MayBe (some name) right operandType) :
    Lowers d name result t := by
  -- connectives take truth values and comparisons take numbers
  have hcases : operandType = .boolean ∨ operandType = .int := by
    rw [hoperand]
    cases op.isConnective
    · exact Or.inr rfl
    · exact Or.inl rfl
  have hne : some operandType ≠ some .void := by
    rcases hcases with rfl | rfl
    · exact some_boolean_ne_void
    · exact some_int_ne_void
  have hreserved : operandType.name ∈ Ty.reserved := by
    rcases hcases with rfl | rfl <;> decide
  have htag : Tag.ofTy operandType = if op.isConnective then .bool else .i32 := by
    rw [hoperand]
    cases op.isConnective
    · exact Tag.ofTy_int
    · exact Tag.ofTy_boolean
  intro wanted c hwanted
  obtain ⟨x, c₁, hx, hX⟩ := hleft (some operandType) c hne
  obtain ⟨y, c₂, hy, hY⟩ := hright (some operandType) c₁ hne
  have hty : d.typeOf (some name) t = .ok (some .boolean) := typeOf_logical hk hop
  refine ⟨_, _, run_lower_logical hk hop hcs hoperand hx hy,
    typed_compute (hX.sound.append hY.sound) ?_
      (not_isVoid_of_mayBe (by decide) (Or.inr hty)) hwanted ?_⟩
  · intro m _ _
    show (Tag.bool == .bool && x.operand.carries (if op.isConnective then .bool else .i32) &&
      y.operand.carries (if op.isConnective then .bool else .i32)) = true
    rw [← htag, hX.carries hd hreserved hl rfl, hY.carries hd hreserved hr rfl]
    rfl
  · rw [known?_eq hty, Option.getD_some, Tag.ofTy_boolean]

end Operations

/-! ### Reading arrays -/

section Arrays

variable {t array index : Tree}

/-- An index is a number in a variable. -/
theorem run_lowerIndex (hd : d.ClearNames) (hindex : Lowers d name result index)
    (hi : d.MayBe (some name) index .int) (c : Counters) :
    ∃ v c', (lowerIndex ⟨index, lower d (some name) index⟩).run c = .ok (v, c') ∧
      Sound d name result v.code ∧ v.operand.carries .i32 := by
  obtain ⟨x, c₁, hx, hX⟩ := hindex none c nofun
  have hcarries : x.operand.carries .i32 := by
    rw [← Tag.ofTy_int]
    exact hX.carries hd (by decide) hi rfl
  -- a literal is put into a temporary, anything else is an index as it stands
  by_cases hliteral : index.kind = .integer
  · refine ⟨⟨.cell (.temporary c₁.temporaries) .i32, _⟩, ⟨c₁.temporaries + 1, c₁.labels⟩, ?_,
      hX.sound.concat (l := .assign (.temporary c₁.temporaries) .i32 (.operand x.operand)) ?_,
      rfl⟩
    · rw [lowerIndex, run_bind_ok hx]
      simp only [hliteral]
      exact run_compute ..
    · intro m _ _ _
      show (Tag.i32 != .void && x.operand.fits d .i32) = true
      rw [fits_of_carries hcarries]
      rfl
  · have hboolean : index.kind ≠ .boolean := by
      intro hk
      rcases hi with hi | hi
      · rw [typeOf_boolean hk] at hi
        cases hi
      · rw [typeOf_boolean hk] at hi
        injection hi with hi
        injection hi with hi
        exact absurd hi (by decide)
    refine ⟨x, c₁, ?_, hX.sound, hcarries⟩
    rw [lowerIndex, run_bind_ok hx]
    rcases e : index.kind <;> simp_all <;> rfl

theorem lowers_elementRead (hd : d.ClearNames) (hk : t.kind = .elementRead)
    (hcs : t.children = [array, index]) (harray : Lowers d name result array)
    (hindex : Lowers d name result index) {ty : Ty}
    (ha : d.typeOf (some name) array = .ok (some ty)) (hisArray : ty.isArray)
    (hi : d.MayBe (some name) index .int) (hvalue : ¬ d.IsVoid (some name) t) :
    Lowers d name result t := by
  intro wanted c hwanted
  obtain ⟨x, c₁, hx, hX⟩ := harray none c nofun
  obtain ⟨y, c₂, hy, hsound, hcarries⟩ := run_lowerIndex hd hindex hi c₁
  have hty : d.typeOf (some name) t = .ok (some (ty.element?.getD .int)) :=
    typeOf_elementRead hk hcs ha
  refine ⟨_, _, run_lower_elementRead hk hcs ha hx hy,
    typed_compute (hX.sound.append hsound) ?_ hvalue hwanted ?_⟩
  · intro m hname hbody
    have hholds := hX.isArray ty ha hisArray m hname (List.append_subset.mp hbody).1
    show (Tag.ofTy (ty.element?.getD .int) == Tag.ofTy (ty.element?.getD .int) &&
      x.operand.isArray d m && y.operand.carries .i32) = true
    rw [beq_self_eq_true, hholds, hcarries]
    rfl
  · rw [known?_eq hty]
    rfl

theorem lowers_length (hk : t.kind = .length) (hcs : t.children = [array])
    (harray : Lowers d name result array) {ty : Ty}
    (ha : d.typeOf (some name) array = .ok (some ty)) (hisArray : ty.isArray) :
    Lowers d name result t := by
  intro wanted c hwanted
  obtain ⟨x, c₁, hx, hX⟩ := harray none c nofun
  have hty : d.typeOf (some name) t = .ok (some .int) := typeOf_length hk
  refine ⟨_, _, run_lower_length hk hcs hx,
    typed_compute hX.sound ?_ (not_isVoid_of_mayBe (by decide) (Or.inr hty)) hwanted ?_⟩
  · intro m hname hbody
    show (Tag.i32 == .i32 && x.operand.isArray d m) = true
    rw [hX.isArray ty ha hisArray m hname hbody]
    rfl
  · rw [known?_eq hty, Option.getD_some, Tag.ofTy_int]

end Arrays

/-! ### New objects and arrays -/

section New

variable {t : Tree}

theorem lowers_newArray (hd : d.ClearNames) {size : Tree} (hk : t.kind = .newArray)
    (hcs : t.children = [size]) (hsize : Lowers d name result size)
    (hs : d.MayBe (some name) size .int) : Lowers d name result t := by
  intro wanted c hwanted
  obtain ⟨x, c₁, hx, hX⟩ := hsize none c nofun
  have hty : d.typeOf (some name) t = .ok (some .intArray) := typeOf_newArray hk
  refine ⟨_, _, run_lower_newArray hk hcs hx,
    typed_compute hX.sound ?_ (not_isVoid_of_mayBe (by decide) (Or.inr hty)) hwanted ?_⟩
  · intro m _ _
    show (Tag.array .i32 == .array .i32 && true && x.operand.carries .i32) = true
    rw [← Tag.ofTy_int, hX.carries hd (by decide) hs rfl, beq_self_eq_true]
    rfl
  · rw [known?_eq hty, Option.getD_some, Tag.ofTy_intArray]

theorem lowers_newObject (hk : t.kind = .newObject) (hname : t.name ∉ Ty.reserved) :
    Lowers d name result t := by
  intro wanted c hwanted
  have hty : d.typeOf (some name) t = .ok (some (.scalar t.name)) := typeOf_newObject hk
  have htag : Tag.ofTy (.scalar t.name) = .object t.name := ofName_of_not_reserved hname
  refine ⟨_, _, run_lower_newObject hk c, ?_, fun _ => ?_, ?_⟩
  · intro m _ _ _ l hl
    rcases List.mem_cons.mp hl with rfl | hl
    · show (Tag.object t.name != .void && Tag.object t.name == .object t.name) = true
      rw [beq_self_eq_true]
      rfl
    · rw [List.mem_singleton.mp hl]
      rfl
  · rw [known?_eq hty, Option.getD_some, htag]
    rfl
  · intro ty hty' hisArray
    rw [hty] at hty'
    injection hty' with hty'
    injection hty' with hty'
    rw [← hty'] at hisArray
    cases hisArray

end New

/-! ### Elements of arrays -/

section Elements

variable {us : List Tree} {element : Ty}

/-- An expression of a type suits that type. -/
theorem suits_of_mayBe {t : Tree} {ty : Ty} (hvalue : d.namesClass (some name) t = false)
    (h : d.MayBe (some name) t ty) : d.Suits (some name) t ty := by
  refine ⟨hvalue, fun found hfound => ?_⟩
  rcases h with h | h
  · rw [hfound] at h
    cases h
  · rw [hfound] at h
    injection h with h
    injection h with h
    rw [h, Declarations.compatible, Ty.sameShape, beq_self_eq_true, beq_self_eq_true]
    rfl

/-- Expressions that are put into the elements of an array are computed by
consistent lines, in a method that makes the array. -/
theorem exists_storeFrom (hd : d.ClearNames) (n : Nat) (hvoid : element ≠ .void)
    (h : ∀ u ∈ us, Lowers d name result u ∧ d.Suits (some name) u element) (i : Nat)
    (c : Counters) :
    ∃ code c', (storeFrom n element i (us.map fun u => ⟨u, lower d (some name) u⟩)).run c =
        .ok (code, c') ∧
      ∀ m : Method, m.name = name → m.result = result → m.body.any (·.setsArray n) →
        code ⊆ m.body → ∀ l ∈ code, l.isConsistent d m := by
  induction us generalizing i c with
  | nil => exact ⟨[], c, rfl, fun m _ _ _ _ l hl => nomatch hl⟩
  | cons u rest ih =>
    obtain ⟨hlowers, hsuits⟩ := h u (List.mem_cons_self ..)
    obtain ⟨x, c₁, hx, hX⟩ := hlowers (some element) c (by simpa using hvoid)
    obtain ⟨code, c₂, hcode, hsound⟩ := ih (fun v hv => h v (List.mem_cons_of_mem _ hv)) (i + 1)
      ⟨c₁.temporaries + 1, c₁.labels⟩
    refine ⟨_, c₂, run_storeFrom_cons hx hcode, ?_⟩
    intro m hname hresult harray hbody l hl
    obtain ⟨hfirst, hrest⟩ := List.append_subset.mp hbody
    -- the lines of the element, its position, the store, or a line of the rest
    rcases List.mem_append.mp hl with hl | hl
    · rcases List.mem_append.mp hl with hl | hl
      · exact hX.sound m hname hresult (List.append_subset.mp hfirst).1 l hl
      · rcases List.mem_cons.mp hl with rfl | hl
        · rfl
        · rw [List.mem_singleton.mp hl]
          have hne : (Tag.ofTy element != .void) = true :=
            bne_iff_ne.mpr fun h => hvoid (ofTy_eq_void h)
          show (Tag.ofTy element != .void && m.body.any (·.setsArray n) && true &&
            x.operand.fits d (Tag.ofTy element)) = true
          rw [hne, harray, hX.fits hd hsuits]
          rfl
    · exact hsound m hname hresult harray hrest l hl

/-- Expressions that suit the elements of an array are lowered to a new
array. -/
theorem exists_lowerArray (hd : d.ClearNames) (hvoid : element ≠ .void)
    (h : ∀ u ∈ us, Lowers d name result u ∧ d.Suits (some name) u element) (c : Counters) :
    ∃ v c', (lowerArray element (us.map fun u => ⟨u, lower d (some name) u⟩)).run c =
        .ok (v, c') ∧ Sound d name result v.code ∧
      v.operand.tag? = some (.array (Tag.ofName element.name)) ∧ HoldsArray d name v := by
  obtain ⟨code, c₁, hcode, hsound⟩ := exists_storeFrom hd c.temporaries hvoid h 0
    ⟨c.temporaries + 1, c.labels⟩
  -- the line that makes the array comes first
  have harray : ∀ (m : Method) (source : Source) (code : List Line),
      .assign (.temporary c.temporaries) (.array (Tag.ofName element.name)) source :: code ⊆
        m.body → m.body.any (·.setsArray c.temporaries) := by
    intro m source code hbody
    refine List.any_eq_true.mpr ⟨_, hbody (List.mem_cons_self ..), ?_⟩
    show (c.temporaries == c.temporaries && true) = true
    rw [beq_self_eq_true]
    rfl
  refine ⟨_, c₁, run_lowerArray hcode, ?_, rfl, ?_⟩
  · intro m hname hresult hbody l hl
    rcases List.mem_cons.mp hl with rfl | hl
    · show (true && (Tag.array _ == Tag.array _ && true && true)) = true
      rw [beq_self_eq_true]
      rfl
    · exact hsound m hname hresult (harray m _ _ hbody)
        (fun x hx => hbody (List.mem_cons_of_mem _ hx)) l hl
  · intro m _ hbody
    show (true && m.body.any (·.setsArray c.temporaries)) = true
    rw [harray m _ _ hbody]
    rfl

theorem lowers_emptyLiteral (hd : d.ClearNames) {t : Tree} (hk : t.kind = .arrayLiteral)
    (hcs : t.children = []) : Lowers d name result t := by
  intro wanted c _
  have hnone : ∀ u ∈ ([] : List Tree), Lowers d name result u ∧ d.Suits (some name) u .int :=
    nofun
  obtain ⟨v, c', hrun, hsound, htag, harray⟩ := exists_lowerArray hd (by decide) hnone c
  refine ⟨v, c', ?_, hsound, fun _ => ?_, fun _ _ _ => harray⟩
  · rw [lower_eq, lowerOver, hk, hcs]
    exact hrun
  · rw [known?_eq (typeOf_emptyLiteral hk hcs), htag]
    rfl

theorem lowers_arrayLiteral (hd : d.ClearNames) {t first : Tree} {rest : List Tree}
    {ty : Option Ty} (hk : t.kind = .arrayLiteral) (hcs : t.children = first :: rest)
    (hfirst : d.typeOf (some name) first = .ok ty)
    (helements : ∀ u ∈ first :: rest, Lowers d name result u ∧
      d.Suits (some name) u (ty.getD .int)) (hvoid : ty ≠ some .void) :
    Lowers d name result t := by
  intro wanted c _
  have hne : ty.getD .int ≠ .void := by
    rcases ty with - | ty
    · decide
    · exact fun h => hvoid (congrArg some h)
  obtain ⟨v, c', hrun, hsound, htag, harray⟩ := exists_lowerArray hd hne helements c
  refine ⟨v, c', ?_, hsound, fun _ => ?_, fun _ _ _ => harray⟩
  · rw [lower_eq, lowerOver, hk, hcs]
    exact (run_bind_ok (run_lift_ok c hfirst)).trans hrun
  · rw [known?_eq (typeOf_arrayLiteral hk hcs hfirst), htag]
    rfl

end Elements

/-! ### Calls -/

section Calls

variable {us : List Tree} {t receiver : Tree}

/-- The lines and the receiver of a call are consistent. -/
theorem exists_lowerReceiver (h : WellTyped d (some name) receiver)
    (hlowers : Lowers d name result receiver) {className : String}
    (hobject : d.typeOf (some name) receiver = .ok (some (.scalar className)))
    (hname : className ∉ Ty.reserved) (c : Counters) :
    ∃ code target c', (lowerReceiver d (some name) ⟨receiver, lower d (some name) receiver⟩).run c =
        .ok ((code, target), c') ∧ Sound d name result code ∧ target.isConsistent := by
  obtain ⟨x, c', hx, hX⟩ := hlowers none c nofun
  -- what does not name a class is an object with the tag of its class
  have hvalue : d.namesClass (some name) receiver = false → x.operand.isObject := by
    intro hclass
    rw [Operand.isObject, hX.tag? hclass, known?_eq hobject, Option.getD_some, Tag.ofTy,
      ofName_of_not_reserved hname]
    rfl
  have hrun : (do
      let x ← lower d (some name) receiver none
      pure (x.code, Receiver.object x.operand)).run c = .ok ((x.code, .object x.operand), c') := by
    rw [run_bind_ok hx]
    rfl
  by_cases hself : receiver.kind = .self
  · refine ⟨[], .self, c, ?_, sound_nil, rfl⟩
    simp only [lowerReceiver, hself]
    rfl
  · by_cases hidentifier : receiver.kind = .identifier
    · obtain ⟨b, hb⟩ := h.identifier?_isSome hidentifier
      by_cases hvariable : b.origin.isVariable
      · refine ⟨x.code, .object x.operand, c', ?_, hX.sound, hvalue ?_⟩
        · simp only [lowerReceiver, hidentifier, hb, hvariable, if_true]
          exact hrun
        · rw [namesClass, hb]
          simp [hvariable]
      · refine ⟨[], .classRef receiver.name, c, ?_, sound_nil, rfl⟩
        simp only [lowerReceiver, hidentifier, hb, hvariable]
        rfl
    · refine ⟨x.code, .object x.operand, c', ?_, hX.sound, hvalue ?_⟩
      · rw [← hrun]
        rcases e : receiver.kind <;> simp_all [lowerReceiver]
      · rw [namesClass, beq_eq_false_iff_ne.mpr hidentifier, Bool.false_and]

/-- Arguments for parameters that take one each are computed by consistent
lines. -/
theorem exists_lowerEach {parameters : List Variable}
    (hparameters : ∀ v ∈ parameters, v.ty.name ≠ "void")
    (h : ∀ u ∈ us, Lowers d name result u) (c : Counters) :
    ∃ xs c', (lowerEach parameters (us.map fun u => ⟨u, lower d (some name) u⟩)).run c =
        .ok (xs, c') ∧ ∀ x ∈ xs, Sound d name result x.code := by
  -- on the arguments; the parameters may end earlier, and then nothing is wanted
  induction us generalizing parameters c with
  | nil => exact ⟨[], c, rfl, nofun⟩
  | cons u rest ih =>
    have hwanted : parameters.head?.map (·.ty) ≠ some .void := by
      intro hvoid
      obtain ⟨v, hv, hty⟩ := Option.map_eq_some_iff.mp hvoid
      exact hparameters v (List.mem_of_head? hv) (congrArg Ty.name hty)
    obtain ⟨x, c₁, hx, hX⟩ := h u (List.mem_cons_self ..) _ c hwanted
    obtain ⟨xs, c₂, hxs, hsound⟩ := ih (fun v hv => hparameters v (List.mem_of_mem_tail hv))
      (fun v hv => h v (List.mem_cons_of_mem _ hv)) c₁
    refine ⟨x :: xs, c₂, ?_, ?_⟩
    · rw [List.map_cons, lowerEach, run_bind_ok hx, run_bind_ok hxs]
      rfl
    · intro y hy
      rcases List.mem_cons.mp hy with rfl | hy
      · exact hX.sound
      · exact hsound y hy

/-- Arguments that fill an open tail are computed by consistent lines. -/
theorem exists_lowerOpenTail (hd : d.ClearNames) (h : ∀ u ∈ us, Lowers d name result u)
    (hfill : d.FillTail (some name) us) (c : Counters) :
    ∃ x c', (lowerOpenTail d (some name) (us.map fun u => ⟨u, lower d (some name) u⟩)).run c =
        .ok (x, c') ∧ Sound d name result x.code := by
  rcases hfill with ⟨t, ty, rfl, hty, hisArray⟩ | hint
  · obtain ⟨x, c', hx, hX⟩ := h t (List.mem_singleton_self t) none c nofun
    refine ⟨x, c', ?_, hX.sound⟩
    rw [List.map_singleton, lowerOpenTail, run_bind_ok (run_lift_ok c hty), Option.any_some,
      if_pos hisArray]
    exact hx
  · have hparts : ∀ u ∈ us, Lowers d name result u ∧ d.Suits (some name) u .int := fun u hu =>
      ⟨h u hu, suits_of_mayBe (namesClass_eq_false hd (by decide) (hint u hu)) (hint u hu)⟩
    obtain ⟨x, c', hx, hsound, -⟩ := exists_lowerArray hd (by decide) hparts c
    refine ⟨x, c', ?_, hsound⟩
    rcases us with - | ⟨t, - | ⟨u, rest⟩⟩
    · exact hx
    · -- a single number is no array
      rcases hint t (List.mem_singleton_self t) with hty | hty
      · rw [List.map_singleton, lowerOpenTail, run_bind_ok (run_lift_ok c hty)]
        exact hx
      · rw [List.map_singleton, lowerOpenTail, run_bind_ok (run_lift_ok c hty)]
        exact hx
    · exact hx

theorem exists_lowerArguments (hd : d.ClearNames) {parameters : List Variable}
    (hparameters : ∀ v ∈ parameters, v.ty.name ≠ "void")
    (h : ∀ u ∈ us, Lowers d name result u)
    (hfill : ∀ tail, Parameters.openTail? parameters = some tail →
      d.FillTail (some name) (us.drop (Parameters.fixed parameters).length)) (c : Counters) :
    ∃ xs c', (lowerArguments d (some name) parameters
        (us.map fun u => ⟨u, lower d (some name) u⟩)).run c = .ok (xs, c') ∧
      ∀ x ∈ xs, Sound d name result x.code := by
  rcases e : Parameters.openTail? parameters with - | tail
  · rw [lowerArguments, e]
    exact exists_lowerEach hparameters h c
  · obtain ⟨xs, c₁, hxs, hsound⟩ := exists_lowerEach
      (fun v hv => hparameters v (Parameters.mem_of_mem_fixed hv))
      (fun u hu => h u (List.mem_of_mem_take hu)) c
    obtain ⟨x, c₂, hx, hX⟩ := exists_lowerOpenTail hd
      (fun u hu => h u (List.mem_of_mem_drop hu)) (hfill tail e) c₁
    refine ⟨xs ++ [x], c₂, ?_, ?_⟩
    · rw [lowerArguments, e]
      simp only
      rw [← List.map_take, ← List.map_drop, run_bind_ok hxs, run_bind_ok hx]
      rfl
    · intro y hy
      rcases List.mem_append.mp hy with hy | hy
      · exact hsound y hy
      · rw [List.mem_singleton.mp hy]
        exact hX

/-- A call whose receiver and arguments are lowered is lowered to a consistent
invocation behind consistent lines. -/
theorem exists_lowerCall (hd : d.ClearNames) (hk : t.kind = .call)
    (hcs : t.children = receiver :: us) (hreceiver : WellTyped d (some name) receiver)
    (hlowers : Lowers d name result receiver) {className : String}
    (hobject : d.typeOf (some name) receiver = .ok (some (.scalar className)))
    (hname : className ∉ Ty.reserved) (h : ∀ u ∈ us, Lowers d name result u)
    (htail : d.FitsTail (some name) t us) (wanted : Option Ty) (c : Counters) :
    ∃ call c', (lowerCall d (some name) t
        (t.children.map fun u => ⟨u, lower d (some name) u⟩) wanted).run c = .ok (call, c') ∧
      Sound d name result call.code ∧ call.invocation.receiver.isConsistent ∧
      call.invocation.result = Tag.ofTy (((d.known? (some name) t).or wanted).getD .void) := by
  have hcall := callType_ok hcs hobject
  obtain ⟨declared, hdeclared⟩ : ∃ declared, d.callType (some name) t = .ok declared := ⟨_, hcall⟩
  have hknown : d.known? (some name) t = declared := by
    refine known?_eq ?_
    rw [typeOf_call _ _ _ hk, hdeclared]
  obtain ⟨code, target, c₁, htarget, hcode, hconsistent⟩ :=
    exists_lowerReceiver hreceiver hlowers hobject hname c
  -- the parameters are known just for methods of the class itself
  have hparameters : ∀ v ∈ (if declared.isSome then d.parameters t.name else []),
      v.ty.name ≠ "void" := by
    intro v hv
    split at hv
    · exact hd.notVoid_of_parameters hv
    · cases hv
  have hfill : ∀ tail, Parameters.openTail? (if declared.isSome then d.parameters t.name else []) =
      some tail → d.FillTail (some name) (us.drop
        (Parameters.fixed (if declared.isSome then d.parameters t.name else [])).length) := by
    intro tail h
    rcases declared with - | ty
    · cases h
    · exact htail ty tail hdeclared h
  obtain ⟨xs, c₂, hxs, hsound⟩ := exists_lowerArguments hd hparameters h hfill c₁
  refine ⟨_, c₂, run_lowerCall hcs hdeclared htarget hxs,
    hcode.append (sound_flatMap hsound), hconsistent, ?_⟩
  rw [hknown]

theorem lowers_call (hd : d.ClearNames) (hk : t.kind = .call)
    (hcs : t.children = receiver :: us) (hreceiver : WellTyped d (some name) receiver)
    (hlowers : Lowers d name result receiver) {className : String}
    (hobject : d.typeOf (some name) receiver = .ok (some (.scalar className)))
    (hname : className ∉ Ty.reserved) (h : ∀ u ∈ us, Lowers d name result u)
    (htail : d.FitsTail (some name) t us) (hvalue : ¬ d.IsVoid (some name) t) :
    Lowers d name result t := by
  intro wanted c hwanted
  obtain ⟨call, c₁, hcall, hsound, hconsistent, hresult⟩ := exists_lowerCall hd hk hcs hreceiver
    hlowers hobject hname h htail (some (wanted.getD .int)) c
  have htag : call.invocation.result =
      Tag.ofTy ((d.known? (some name) t).getD (wanted.getD .int)) := by
    rw [hresult]
    cases d.known? (some name) t <;> rfl
  refine ⟨_, _, run_lower_call hk hcall, typed_compute hsound ?_ hvalue hwanted htag⟩
  intro m _ _
  show (call.invocation.result == call.invocation.result &&
    call.invocation.receiver.isConsistent) = true
  rw [beq_self_eq_true, hconsistent]
  rfl

end Calls

/-! ### All expressions -/

/-- A well-typed expression with a value is lowered to consistent lines and an
operand of its type. -/
theorem lowers_of_wellTyped (hd : d.ClearNames) {t : Tree} (h : WellTyped d (some name) t)
    (hvalue : ¬ d.IsVoid (some name) t) : Lowers d name result t := by
  induction h with
  | integer hk => exact lowers_integer hk
  | boolean hk => exact lowers_boolean hk
  | self hk => exact lowers_self hd hk
  | identifier hk hb => exact lowers_identifier hk hb hvalue
  | arithmetic hk hop hcs _ _ hl hr ihl ihr =>
    exact lowers_arithmetic hd hk hop hcs (ihl (not_isVoid_of_mayBe (by decide) hl))
      (ihr (not_isVoid_of_mayBe (by decide) hr)) hl hr
  | @logical t left right op wanted hk hop hcs hw _ _ hl hr ihl ihr =>
    have hne : wanted ≠ .void := by
      rw [hw]
      cases op.isConnective <;> decide
    exact lowers_logical hd hk hop hcs hw (ihl (not_isVoid_of_mayBe hne hl))
      (ihr (not_isVoid_of_mayBe hne hr)) hl hr
  | @call t receiver arguments className hk hcs hreceiver hobject hname _ hvalues htail ihr ihs =>
    have hr : ¬ d.IsVoid (some name) receiver := by
      refine not_isVoid_of_mayBe ?_ (Or.inr hobject)
      rintro ⟨⟩
      exact hname (by decide)
    exact lowers_call hd hk hcs hreceiver (ihr hr) hobject hname
      (fun u hu => ihs u hu (hvalues u hu)) htail hvalue
  | @elementRead t array index ty hk hcs _ _ ha hty hi iha ihi =>
    have harray : ¬ d.IsVoid (some name) array := by
      refine not_isVoid_of_mayBe ?_ (Or.inr ha)
      rintro rfl
      cases hty
    exact lowers_elementRead hd hk hcs (iha harray) (ihi (not_isVoid_of_mayBe (by decide) hi)) ha
      hty hi hvalue
  | emptyLiteral hk hcs => exact lowers_emptyLiteral hd hk hcs
  | @arrayLiteral t first rest element hk hcs hfirst _ hvalues hvoid ih =>
    have hne : element.getD .int ≠ .void := by
      rcases element with - | ty
      · decide
      · exact fun h => hvoid (congrArg some h)
    refine lowers_arrayLiteral hd hk hcs hfirst (fun u hu => ?_) hvoid
    obtain ⟨hmay, hclass⟩ := hvalues u hu
    exact ⟨ih u hu (not_isVoid_of_mayBe hne hmay), suits_of_mayBe hclass hmay⟩
  | newObject hk hname => exact lowers_newObject hk hname
  | newArray hk hcs _ hs ih =>
    exact lowers_newArray hd hk hcs (ih (not_isVoid_of_mayBe (by decide) hs)) hs
  | @length t array ty hk hcs _ ha hty ih =>
    have harray : ¬ d.IsVoid (some name) array := by
      refine not_isVoid_of_mayBe ?_ (Or.inr ha)
      rintro rfl
      cases hty
    exact lowers_length hk hcs (ih harray) ha hty

/-- A well-typed call is lowered to a consistent invocation, also where its
result is not used. -/
theorem exists_lowerCall_of_wellTyped (hd : d.ClearNames) {t : Tree}
    (h : WellTyped d (some name) t) (hk : t.kind = .call) (wanted : Option Ty) (c : Counters) :
    ∃ call c', (lowerCall d (some name) t
        (t.children.map fun u => ⟨u, lower d (some name) u⟩) wanted).run c = .ok (call, c') ∧
      Sound d name result call.code ∧ call.invocation.receiver.isConsistent := by
  cases h with
  | @call _ receiver arguments className _ hcs hreceiver hobject hname harguments hvalues htail =>
    have hr : ¬ d.IsVoid (some name) receiver := by
      refine not_isVoid_of_mayBe ?_ (Or.inr hobject)
      rintro ⟨⟩
      exact hname (by decide)
    obtain ⟨call, c', hrun, hsound, hconsistent, -⟩ := exists_lowerCall hd hk hcs hreceiver
      (lowers_of_wellTyped hd hreceiver hr) hobject hname
      (fun u hu => lowers_of_wellTyped hd (harguments u hu) (hvalues u hu)) htail wanted c
    exact ⟨call, c', hrun, hsound, hconsistent⟩
  | _ => simp_all

end JavaMinus.ThreeAddress
