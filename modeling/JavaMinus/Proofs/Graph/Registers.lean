/-
JavaMinus/Proofs/Graph/Registers.lean

The registers of the variables of a method.

A method is put together by edits in any order.  The register of a new
variable is told by how many variables there are and by whether the method
works on an object *at that moment*; nothing is renumbered when the method
becomes static later.  So the variables are in two groups (`Numbered`): those
declared before the method became static leave register zero to the object,
and those declared after it count from zero.

A variable keeps its register, and while the method works on an object no
variable has register zero.  Two variables share a register exactly when the
method became static between two declarations (`registers_built`): the last
variable of the first group and the first of the second are numbered alike.
-/
import JavaMinus.Graph.Method
import JavaMinus.Proofs.Listing

namespace JavaMinus.Graph

/-- One of the calls by which a method is put together. -/
inductive Edit where
  | flags (isStatic isFinal : Bool)
  | access (access : Access)
  | parameter (name : String) (type : ValueType)
  | declaration (name : String) (type : ValueType)
  | instruction (instruction : Instruction)
  | label (name : String)
  deriving DecidableEq

/-- The variable that an edit declares, unless there is one of that name. -/
def Edit.declared? : Edit → Option (String × ValueType)
  | .parameter name type | .declaration name type => some (name, type)
  | .instruction i => Method.assigned? i
  | .flags .. | .access _ | .label _ => none

/-- Whether an edit makes the method static. -/
def Edit.setsStatic : Edit → Bool
  | .flags isStatic _ => isStatic
  | _ => false

namespace Method

def edit (m : Method) : Edit → Method
  | .flags isStatic isFinal => m.withFlags isStatic isFinal
  | .access access => m.withAccess access
  | .parameter name type => m.addParameter name type
  | .declaration name type => m.declare name type
  | .instruction i => m.push i
  | .label name => m.label name

/-- A method after edits, one after the other. -/
def edited (m : Method) (edits : List Edit) : Method := edits.foldl edit m

/-- A method that is put together from nothing. -/
def built (name : String) (result : ValueType) (edits : List Edit) : Method :=
  (new name result).edited edits

/-- Different variables have different registers. -/
def RegistersApart (m : Method) : Prop :=
  ∀ x y r, m.register? x = some r → m.register? y = some r → x = y

variable {m m' : Method} {e : Edit} {edits : List Edit} {name x : String} {type : ValueType}

theorem edited_append (m : Method) (edits more : List Edit) :
    m.edited (edits ++ more) = (m.edited edits).edited more := List.foldl_append

/-! ### What one edit does -/

@[simp] theorem declare_isStatic : (m.declare name type).isStatic = m.isStatic := by
  rw [declare]
  split <;> rfl

theorem declare_registers : (m.declare name type).registers =
    if m.registers.has name then m.registers
    else m.registers.insert name ⟨m.nextRegister, type⟩ := by
  rw [declare]
  split <;> rfl

/-- No edit takes back that a method is static. -/
theorem edit_isStatic (m : Method) (e : Edit) :
    (m.edit e).isStatic = (m.isStatic || e.setsStatic) := by
  cases e with
  | flags isStatic isFinal => rfl
  | access access => exact (Bool.or_false _).symm
  | parameter name type => exact declare_isStatic.trans (Bool.or_false _).symm
  | declaration name type => exact declare_isStatic.trans (Bool.or_false _).symm
  | label name => exact (Bool.or_false _).symm
  | instruction i =>
    show (push m i).isStatic = (m.isStatic || false)
    rw [push, Bool.or_false]
    split
    · exact declare_isStatic
    · rfl

/-- An edit changes the registers by the declaration that it makes, if it
makes one. -/
theorem edit_registers (m : Method) (e : Edit) : (m.edit e).registers =
    match e.declared? with
    | some (name, type) => (m.declare name type).registers
    | none => m.registers := by
  cases e with
  | flags isStatic isFinal => rfl
  | access access => rfl
  | parameter name type =>
    show ((_ : Method).declare name type).registers = (m.declare name type).registers
    rw [declare_registers, declare_registers]
    rfl
  | declaration name type => rfl
  | label name => rfl
  | instruction i =>
    show (push m i).registers = _
    rw [push, Edit.declared?]
    cases assigned? i <;> rfl

/-! ### The numbers of the variables -/

/-- The register of the variable that was declared at a place of the order,
when so many were declared before the method became static. -/
def registerAt (early place : Nat) : UInt16 :=
  UInt16.ofNat (if place < early then place + 1 else place)

/-- The variables in the order of their declarations, numbered; so many of
them were declared before the method became static. -/
structure Numbered (m : Method) (names : List String) (early : Nat) : Prop where
  nodup : names.Nodup
  size : m.registers.size = names.length
  register : ∀ x, m.register? x = (names.idxOf? x).map (registerAt early)
  le : early ≤ names.length
  all : m.isStatic = false → early = names.length

theorem has_iff_register? : m.registers.has x = (m.register? x).isSome := by
  rw [register?, Option.isSome_map]
  rfl

variable {names : List String} {early : Nat}

theorem numbered_new (name : String) (result : ValueType) : (new name result).Numbered [] 0 where
  nodup := .nil
  size := rfl
  register _ := rfl
  le := Nat.le_refl 0
  all _ := rfl

/-- The next register is the one of the place behind the last. -/
theorem Numbered.nextRegister_eq (h : m.Numbered names early) :
    m.nextRegister = registerAt (if m.isStatic then early else early + 1) names.length := by
  rw [nextRegister, registerAt, h.size]
  cases hstatic : m.isStatic with
  | true =>
    rw [if_pos rfl, if_pos rfl, if_neg (Nat.not_lt.mpr h.le)]
    exact UInt16.add_zero _
  | false =>
    rw [if_neg Bool.false_ne_true, if_neg Bool.false_ne_true, h.all hstatic,
      if_pos (Nat.lt_succ_self _)]
    exact (UInt16.ofNat_add _ _).symm

theorem idxOf?_concat {name : String} (hname : name ∉ names) (x : String) :
    (names ++ [name]).idxOf? x = if x = name then some names.length else names.idxOf? x := by
  rw [List.idxOf?, List.findIdx?_append]
  show (names.idxOf? x).or (([name].idxOf? x).map (· + names.length)) = _
  rw [List.idxOf?_singleton]
  by_cases hx : x = name
  · subst hx
    rw [if_pos rfl, List.idxOf?_eq_none_iff.mpr hname, if_pos (beq_self_eq_true _)]
    exact congrArg some (Nat.zero_add _)
  · rw [if_neg hx, if_neg (by simpa using Ne.symm hx)]
    exact Option.or_none

/-- The numbers of earlier places stay when a variable is declared. -/
theorem Numbered.registerAt_eq (h : m.Numbered names early) {place : Nat}
    (hplace : place < names.length) :
    registerAt (if m.isStatic then early else early + 1) place = registerAt early place := by
  cases hstatic : m.isStatic with
  | true => rfl
  | false =>
    have hearly : place < early := by rwa [h.all hstatic]
    rw [if_neg Bool.false_ne_true, registerAt, registerAt, if_pos hearly,
      if_pos (Nat.lt_succ_of_lt hearly)]

theorem Numbered.mem_iff (h : m.Numbered names early) :
    name ∈ names ↔ m.registers.has name = true := by
  rw [has_iff_register?, h.register, Option.isSome_map, List.isSome_idxOf?]

/-- A new variable stands at the end of the order. -/
theorem Numbered.declare_new (h : m.Numbered names early) (type : ValueType)
    (hnew : m.registers.has name = false) :
    (m.declare name type).Numbered (names ++ [name])
      (if m.isStatic then early else early + 1) := by
  have hname : name ∉ names := by
    rw [h.mem_iff, hnew]
    exact Bool.false_ne_true
  have hregisters : (m.declare name type).registers =
      m.registers.insert name ⟨m.nextRegister, type⟩ := by
    rw [declare_registers, hnew]
    rfl
  refine ⟨?_, ?_, ?_, ?_, ?_⟩
  · rw [← List.concat_eq_append]
    exact h.nodup.concat hname
  · rw [hregisters, Listing.size_insert _ hnew, h.size, List.length_append]
    rfl
  · intro x
    rw [register?, hregisters, Listing.get?_insert, idxOf?_concat hname]
    split
    · exact congrArg some h.nextRegister_eq
    · show m.register? x = _
      rw [h.register]
      apply Option.map_congr
      intro place hplace
      obtain ⟨hlt, -, -⟩ := List.idxOf?_eq_some_iff.mp hplace
      exact (h.registerAt_eq hlt).symm
  · rw [List.length_append]
    -- only a method of an object makes room for one more early variable
    have := h.le
    split <;> simp only [List.length_singleton] <;> omega
  · rw [declare_isStatic]
    intro hstatic
    rw [hstatic, if_neg Bool.false_ne_true, h.all hstatic, List.length_append]
    rfl

theorem declare_of_has (h : m.registers.has name = true) : m.declare name type = m := by
  rw [declare, if_pos h]

/-- Only the registers count, and that a method of an object was one before. -/
theorem Numbered.of_eq (h : m.Numbered names early) (hregisters : m'.registers = m.registers)
    (hstatic : m'.isStatic = false → m.isStatic = false) : m'.Numbered names early where
  nodup := h.nodup
  size := hregisters ▸ h.size
  register x := by
    rw [register?, hregisters]
    exact h.register x
  le := h.le
  all hfalse := h.all (hstatic hfalse)

/-- An edit adds names at the end of the order, if it adds any.  In a static
method none of them is early. -/
theorem Numbered.edit (h : m.Numbered names early) (e : Edit) :
    ∃ more early', (m.edit e).Numbered (names ++ more) early' ∧
      (m.isStatic = true → early' = early) := by
  have hback : (m.edit e).isStatic = false → m.isStatic = false := by
    rw [edit_isStatic, Bool.or_eq_false_iff]
    exact And.left
  have hregisters := edit_registers m e
  cases hdeclared : e.declared? with
  | none =>
    rw [hdeclared] at hregisters
    exact ⟨[], early, (List.append_nil names).symm ▸ h.of_eq hregisters hback, fun _ => rfl⟩
  | some declared =>
    obtain ⟨x, type⟩ := declared
    rw [hdeclared] at hregisters
    replace hregisters : (m.edit e).registers = (m.declare x type).registers := hregisters
    -- a name that is declared once more keeps its number
    cases hhas : m.registers.has x with
    | true =>
      rw [declare_of_has hhas] at hregisters
      exact ⟨[], early, (List.append_nil names).symm ▸ h.of_eq hregisters hback, fun _ => rfl⟩
    | false =>
      refine ⟨[x], _, (h.declare_new type hhas).of_eq hregisters ?_, fun htrue => if_pos htrue⟩
      rw [declare_isStatic]
      exact hback

/-- What one edit keeps, all of them keep. -/
theorem Numbered.edited (h : m.Numbered names early) (edits : List Edit) :
    ∃ more early', (m.edited edits).Numbered (names ++ more) early' ∧
      (m.isStatic = true → early' = early) := by
  induction edits generalizing m names early with
  | nil => exact ⟨[], early, (List.append_nil names).symm ▸ h, fun _ => rfl⟩
  | cons e rest ih =>
    obtain ⟨some, early₁, hfirst, hearly₁⟩ := h.edit e
    obtain ⟨more, early₂, hrest, hearly₂⟩ := ih hfirst
    refine ⟨some ++ more, early₂, List.append_assoc .. ▸ hrest, fun htrue => ?_⟩
    have hstatic : (m.edit e).isStatic = true := by rw [edit_isStatic, htrue, Bool.true_or]
    exact (hearly₂ hstatic).trans (hearly₁ htrue)

/-! ### Which registers are shared -/

/-- A variable keeps its register through a declaration. -/
theorem declare_register? {r : UInt16} (h : m.register? x = some r) :
    (m.declare name type).register? x = some r := by
  cases hhas : m.registers.has name with
  | true => rwa [declare_of_has hhas]
  | false =>
    have hne : x ≠ name := by
      rintro rfl
      rw [has_iff_register?, h] at hhas
      contradiction
    rw [declare, hhas, if_neg Bool.false_ne_true, register?, Listing.get?_insert, if_neg hne]
    exact h

/-- A variable keeps the register that it has got. -/
theorem edited_register? {r : UInt16} (h : m.register? x = some r) :
    (m.edited edits).register? x = some r := by
  induction edits generalizing m with
  | nil => exact h
  | cons e rest ih =>
    apply ih
    rw [register?, edit_registers]
    cases e.declared? with
    | none => exact h
    | some declared => exact declare_register? h

variable {place place' : Nat}

theorem toNat_registerAt (hplace : place < 65535) :
    (registerAt early place).toNat = if place < early then place + 1 else place := by
  rw [registerAt, UInt16.toNat_ofNat']
  apply Nat.mod_eq_of_lt
  split <;> omega

/-- The two groups of places are numbered apart but for the last place of the
first group and the first of the second. -/
theorem registerAt_inj (hplace : place < 65535) (hplace' : place' < 65535)
    (h : registerAt early place = registerAt early place') :
    place = place' ∨ (place + 1 = early ∧ place' = early) ∨
      (place' + 1 = early ∧ place = early) := by
  have hnat := congrArg UInt16.toNat h
  rw [toNat_registerAt hplace, toNat_registerAt hplace'] at hnat
  split at hnat <;> split at hnat <;> omega

/-- Of a name the place is known by its register, and of a place the name. -/
theorem Numbered.register?_eq_some_iff (h : m.Numbered names early) {r : UInt16} :
    m.register? x = some r ↔ ∃ place, names[place]? = some x ∧ registerAt early place = r := by
  rw [h.register, Option.map_eq_some_iff]
  apply exists_congr
  intro place
  apply and_congr_left
  intro
  rw [List.idxOf?_eq_some_iff, List.getElem?_eq_some_iff]
  constructor
  · rintro ⟨hlt, heq, -⟩
    exact ⟨hlt, heq⟩
  · rintro ⟨hlt, heq⟩
    refine ⟨hlt, heq, fun j hj hjeq => ?_⟩
    have hsame : j = place := h.nodup.getElem_inj_iff.mp (hjeq.trans heq.symm)
    omega

theorem Numbered.registersApart_iff (h : m.Numbered names early)
    (hsize : m.registers.size < 65535) :
    m.RegistersApart ↔ early = 0 ∨ early = names.length := by
  have hbound := h.size
  have hle := h.le
  constructor
  · intro hapart
    by_contra hmiddle
    rw [not_or] at hmiddle
    -- the last early variable and the first late one
    have hlast : early - 1 < names.length := by omega
    have hfirst : early < names.length := by omega
    have hsame : registerAt early (early - 1) = registerAt early early := by
      rw [registerAt, registerAt, if_pos (by omega), if_neg (Nat.lt_irrefl _),
        Nat.sub_add_cancel (by omega)]
    have hnames := hapart names[early - 1] names[early] (registerAt early early)
      (h.register?_eq_some_iff.mpr ⟨_, List.getElem?_eq_getElem hlast, hsame⟩)
      (h.register?_eq_some_iff.mpr ⟨_, List.getElem?_eq_getElem hfirst, rfl⟩)
    have := h.nodup.getElem_inj_iff.mp hnames
    omega
  · intro hends x y r hx hy
    obtain ⟨i, hi, hri⟩ := h.register?_eq_some_iff.mp hx
    obtain ⟨j, hj, hrj⟩ := h.register?_eq_some_iff.mp hy
    have hilt := (List.getElem?_eq_some_iff.mp hi).1
    have hjlt := (List.getElem?_eq_some_iff.mp hj).1
    have hij : i = j := by
      rcases registerAt_inj (by omega) (by omega) (hri.trans hrj.symm) with heq | hcross | hcross
      · exact heq
      · omega
      · omega
    rw [hij] at hi
    exact Option.some_inj.mp (hi.symm.trans hj)

/-- Register zero is the one of the object. -/
theorem Numbered.register?_ne_zero (h : m.Numbered names early) (hsize : m.registers.size < 65535)
    (hstatic : m.isStatic = false) : m.register? x ≠ some 0 := by
  intro hzero
  obtain ⟨place, hplace, hnumber⟩ := h.register?_eq_some_iff.mp hzero
  have hlt : place < names.length := (List.getElem?_eq_some_iff.mp hplace).1
  have hbound := h.size
  have hnat := congrArg UInt16.toNat hnumber
  rw [toNat_registerAt (by omega), h.all hstatic, if_pos hlt, UInt16.toNat_zero] at hnat
  omega

/-! ### Methods that are put together from nothing -/

/-- A method that has become static did so by one of the edits. -/
theorem exists_flags (hstatic : (m.edited edits).isStatic = true) (hm : m.isStatic = false) :
    ∃ before isFinal after, edits = before ++ .flags true isFinal :: after ∧
      (m.edited before).isStatic = false := by
  induction edits generalizing m with
  | nil =>
    have hm' : m.isStatic = true := hstatic
    rw [hm] at hm'
    contradiction
  | cons e rest ih =>
    -- by the first edit behind which the method is static
    cases he : (m.edit e).isStatic with
    | false =>
      obtain ⟨before, isFinal, after, rfl, hbefore⟩ := ih hstatic he
      exact ⟨e :: before, isFinal, after, rfl, hbefore⟩
    | true =>
      rw [edit_isStatic, hm, Bool.false_or] at he
      cases e with
      | flags isStatic isFinal =>
        cases (show isStatic = true from he)
        exact ⟨[], isFinal, rest, rfl, hm⟩
      | _ => exact nomatch he

/-- When a method becomes static, the variables that it has are the early
ones. -/
theorem numbered_of_flags (name : String) (result : ValueType) {before after : List Edit}
    {isFinal : Bool} (hbefore : (built name result before).isStatic = false) :
    ∃ names, (built name result (before ++ .flags true isFinal :: after)).Numbered names
      (built name result before).registers.size := by
  obtain ⟨names, early, hnames, -⟩ := (numbered_new name result).edited before
  have hearly : early = (built name result before).registers.size :=
    (hnames.all hbefore).trans hnames.size.symm
  have hflags : ((built name result before).edit (.flags true isFinal)).isStatic = true := by
    rw [edit_isStatic]
    exact Bool.or_true _
  have hedit : ((built name result before).edit (.flags true isFinal)).Numbered ([] ++ names)
      early := hnames.of_eq rfl fun hfalse => by
    rw [hflags] at hfalse
    contradiction
  obtain ⟨more, early', hafter, hkept⟩ := hedit.edited after
  rw [hkept hflags, hearly] at hafter
  exact ⟨_, edited_append (new name result) before (.flags true isFinal :: after) ▸ hafter⟩

/-- What the registers of a method are to its variables.  A variable keeps the
register that it was given first; in a method of an object no variable has
register zero; and different variables have different registers exactly when
the method did not become static between two declarations. -/
theorem registers_built (name : String) (result : ValueType) (edits : List Edit)
    (hsize : (built name result edits).registers.size < 65535) :
    (∀ before after, edits = before ++ after → ∀ x r,
        (built name result before).register? x = some r →
        (built name result edits).register? x = some r) ∧
      ((built name result edits).isStatic = false →
        ∀ x, (built name result edits).register? x ≠ some 0) ∧
      ((built name result edits).RegistersApart ↔
        ∀ before isFinal after, edits = before ++ .flags true isFinal :: after →
          (built name result before).isStatic = false →
          (built name result before).registers.size = 0 ∨
            (built name result before).registers.size =
              (built name result edits).registers.size) := by
  obtain ⟨names, early, hnames, -⟩ := (numbered_new name result).edited edits
  refine ⟨?_, fun hstatic x => hnames.register?_ne_zero hsize hstatic, ?_, ?_⟩
  · rintro before after rfl x r hx
    rw [built, edited_append]
    exact edited_register? hx
  · rintro hapart before isFinal after rfl hbefore
    obtain ⟨names', hnumbered⟩ := numbered_of_flags name result hbefore
    rw [hnumbered.size]
    exact (hnumbered.registersApart_iff hsize).mp hapart
  · intro hends
    cases hstatic : (built name result edits).isStatic with
    | false => exact (hnames.registersApart_iff hsize).mpr (Or.inr (hnames.all hstatic))
    | true =>
      -- the edit that made the method static tells how many variables are early
      obtain ⟨before, isFinal, after, rfl, hbefore⟩ := exists_flags hstatic rfl
      obtain ⟨names', hnumbered⟩ := numbered_of_flags name result hbefore
      refine (hnumbered.registersApart_iff hsize).mpr ?_
      rw [← hnumbered.size]
      exact hends before isFinal after rfl hbefore

/-! ### A method that becomes static too late -/

/-- Edits of a method of an object. -/
def running : List Edit :=
  [.parameter "a" .int, .access .classItself, .declaration "b" .boolean,
    .instruction (.assign (.named "t0" .int) (.single (.named "a" .int))), .flags false true]

theorem registers_built_running :
    (built "run" .void running).RegistersApart ∧
      ∀ x, (built "run" .void running).register? x ≠ some 0 := by
  have hsize : (built "run" .void running).registers.size < 65535 := by decide
  obtain ⟨-, hzero, hapart⟩ := registers_built "run" .void running hsize
  refine ⟨hapart.mpr fun before isFinal after hedits => ?_, hzero rfl⟩
  -- none of the edits makes the method static
  have hnone : ∀ isFinal, Edit.flags true isFinal ∉ running := by decide
  exact absurd (hedits ▸ List.mem_append_cons_self) (hnone isFinal)

/-- Edits that make a method static between its parameters. -/
def sharing : List Edit :=
  [.parameter "a" .int, .flags true false, .parameter "b" .int]

/-- Two parameters of a method have one register. -/
theorem sharing_not_registersApart :
    ¬ ∀ (name : String) (result : ValueType) (edits : List Edit),
      (built name result edits).registers.size < 65535 →
        (built name result edits).RegistersApart := by
  intro h
  have hapart := h "main" .void sharing (by decide)
  have hsame : "a" = "b" := hapart "a" "b" 1 (by decide) (by decide)
  exact absurd hsame (by decide)

end Method

end JavaMinus.Graph
