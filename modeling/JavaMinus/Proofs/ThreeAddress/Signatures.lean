/-
JavaMinus/Proofs/ThreeAddress/Signatures.lean

The tags at a call and the tags in the head of the method.

What is called is told apart by the tags of the arguments, so they should be those
that the head of the method has for its parameters.  An argument is written with
the tag of what it is, though, and the declared type is only asked for where
nothing is known of a call.  So the tags are the same just if each argument is
written as its parameter is declared (`tags_agree_iff`), and the checks do not make
sure of that: they let an object of one class go where another one is declared, and
the name of a class, which has no tag at all, where an object is
(`checked_signatures_disagree`).

For an open tail the tags always agree.
-/
import JavaMinus.Proofs.ThreeAddress.Agreement
import JavaMinus.Proofs.ThreeAddress.Headers
import JavaMinus.Proofs.ThreeAddress.Passing

namespace JavaMinus.ThreeAddress

/-! ### Tags of types -/

/-- The name that a tag was made of. -/
def Tag.sourceName : Tag → String
  | i32 => "int"
  | bool => "boolean"
  | void => "void"
  | object name => name
  | array element => element.sourceName

theorem sourceName_ofName (name : String) : (Tag.ofName name).sourceName = name := by
  rw [Tag.ofName]
  split
  · next h => exact (eq_of_beq h).symm
  · split
    · next h => exact (eq_of_beq h).symm
    · split
      · next h => exact (eq_of_beq h).symm
      · rfl

theorem sourceName_ofTy (ty : Ty) : (Tag.ofTy ty).sourceName = ty.name := by
  cases ty <;> exact sourceName_ofName _

/-- Types have one tag just if they have one shape. -/
theorem ofTy_eq_ofTy_iff {s t : Ty} : Tag.ofTy s = Tag.ofTy t ↔ s.sameShape t := by
  constructor
  · intro h
    have hname : s.name = t.name := by rw [← sourceName_ofTy, h, sourceName_ofTy]
    have hisArray : s.isArray = t.isArray := by rw [← isArray_ofTy, h, isArray_ofTy]
    rw [Ty.sameShape, hname, hisArray, beq_self_eq_true, beq_self_eq_true]
    rfl
  · exact ofTy_of_sameShape

theorem ofTy_eq_int_iff {ty : Ty} : Tag.i32 = Tag.ofTy ty ↔ ty = .int := by
  constructor
  · intro h
    rw [← Tag.ofTy_int, ofTy_eq_ofTy_iff] at h
    obtain ⟨hname, hisArray⟩ := Bool.and_eq_true_iff.mp h
    rw [Ty.isArray_eq_false_iff.mp (eq_of_beq hisArray).symm, ← eq_of_beq hname]
    rfl
  · rintro rfl
    exact Tag.ofTy_int.symm

/-- The tag of a class belongs to the type of its objects, unless its name is one
that the language reserves. -/
theorem ofTy_eq_object_iff {ty : Ty} {name : String} :
    Tag.object name = Tag.ofTy ty ↔ (Ty.scalar name).sameShape ty ∧ ty.name ∉ Ty.reserved := by
  by_cases hreserved : name ∈ Ty.reserved
  · apply iff_of_false
    · intro h
      have hname : ty.name = name := by rw [← sourceName_ofTy, ← h]; rfl
      -- the reserved names have tags of their own, and arrays have other tags
      rcases ty with x | x | x
      · obtain rfl : x = name := hname
        simp only [Ty.reserved, List.mem_cons, List.not_mem_nil, or_false] at hreserved
        rcases hreserved with rfl | rfl | rfl <;> revert h <;> decide
      · cases h
      · cases h
    · rintro ⟨hshape, hclear⟩
      rw [← eq_of_beq (Bool.and_eq_true_iff.mp hshape).1] at hclear
      exact hclear hreserved
  · rw [← ofName_of_not_reserved hreserved]
    show Tag.ofTy (.scalar name) = _ ↔ _
    rw [ofTy_eq_ofTy_iff]
    refine ⟨fun hshape => ⟨hshape, ?_⟩, And.left⟩
    rwa [← eq_of_beq (Bool.and_eq_true_iff.mp hshape).1]

/-! ### The tag of an argument -/

/-- An argument is written with the tag of a declared type.  It has a value; its
type has the shape of the declared one, where it is known; where it is not, the
argument is a call, of which the declared type is assumed, or is read from an
array, and then it is taken for a number.  An object that is told by the name of
its class only is not of a class with a reserved name. -/
structure WrittenAs (d : Declarations) (scope : Option String) (t : Tree) (declared : Ty) :
    Prop where
  value : d.namesClass scope t = false
  typed : ∀ ty, d.typeOf scope t = .ok (some ty) → ty.sameShape declared
  assumed : d.typeOf scope t = .ok none → t.kind = .call ∨ declared = .int
  clear : t.kind = .self ∨ t.kind = .newObject → declared.name ∉ Ty.reserved

variable {d : Declarations} {scope : Option String} {t : Tree} {wanted : Option Ty}
  {c c' : Counters} {v : Value}

theorem writtenAs_iff_of_typed {ty declared : Ty} (hvalue : d.namesClass scope t = false)
    (hty : d.typeOf scope t = .ok (some ty)) : WrittenAs d scope t declared ↔
      ty.sameShape declared ∧ (t.kind = .self ∨ t.kind = .newObject →
        declared.name ∉ Ty.reserved) := by
  constructor
  · intro h
    exact ⟨h.typed ty hty, h.clear⟩
  · rintro ⟨hshape, hclear⟩
    refine ⟨hvalue, ?_, ?_, hclear⟩
    · intro ty' hty'
      rw [hty] at hty'
      injection hty' with hty'
      injection hty' with hty'
      rwa [← hty']
    · intro hnone
      rw [hty] at hnone
      nomatch hnone

theorem writtenAs_iff_of_assumed {declared : Ty} (hvalue : d.namesClass scope t = false)
    (hnone : d.typeOf scope t = .ok none) (hobject : ¬ (t.kind = .self ∨ t.kind = .newObject)) :
    WrittenAs d scope t declared ↔ t.kind = .call ∨ declared = .int := by
  refine ⟨fun h => h.assumed hnone, fun h => ⟨hvalue, ?_, fun _ => h, fun hk => absurd hk hobject⟩⟩
  intro ty hty
  rw [hnone] at hty
  nomatch hty

/-- The name of a class is written without a tag. -/
theorem Yields.tag?_of_namesClass (h : Yields d scope t wanted c v c')
    (hclass : d.namesClass scope t) : v.operand.tag? = none := by
  obtain ⟨hk, hbinding⟩ := Bool.and_eq_true_iff.mp hclass
  have hk := eq_of_beq hk
  have hnot : ∀ {b : Binding}, d.identifier? scope t = some b → b.origin.isVariable = false := by
    intro b hb
    rw [hb] at hbinding
    simpa using hbinding
  cases h.expands with
  | classRef => rfl
  | unbound _ hb =>
    rw [hb] at hbinding
    nomatch hbinding
  | variable_ _ hb hvariable =>
    rw [hnot hb] at hvariable
    nomatch hvariable
  | field _ hb horigin =>
    have hvariable := hnot hb
    rw [horigin] at hvariable
    nomatch hvariable
  | _ => simp_all

theorem typeOf_of_namesClass (h : d.namesClass scope t) :
    d.typeOf scope t = .ok (some (.scalar t.name)) := by
  obtain ⟨hk, hbinding⟩ := Bool.and_eq_true_iff.mp h
  obtain ⟨b, hb, hclass⟩ := (Option.any_eq_true _ _).mp hbinding
  have hclass := Declarations.class?_of_identifier? hb (by simpa using hclass)
  rw [Declarations.typeOf_identifier (eq_of_beq hk) hb, (Declarations.class?_eq_some hclass).1]

/-- An expression that was lowered has a type, or is one of which any type is
assumed: a call, or an element of an array of which nothing is known. -/
theorem Yields.exists_typeOf (h : Yields d scope t wanted c v c') :
    ∃ found, d.typeOf scope t = .ok found ∧
      (found = none → t.kind = .call ∨ t.kind = .elementRead ∧ v.operand.tag? = some .i32) := by
  cases h.expands with
  | integer hk => exact ⟨_, Declarations.typeOf_integer hk, nofun⟩
  | boolean hk => exact ⟨_, Declarations.typeOf_boolean hk, nofun⟩
  | self hk => exact ⟨_, Declarations.typeOf_self hk, nofun⟩
  | unbound hk hb => exact ⟨_, Declarations.typeOf_unbound hk hb, nofun⟩
  | variable_ hk hb | field hk hb | classRef hk hb =>
    exact ⟨_, Declarations.typeOf_identifier hk hb, nofun⟩
  | arithmetic hk hop => exact ⟨_, Declarations.typeOf_arithmetic hk hop, nofun⟩
  | logical hk hop => exact ⟨_, Declarations.typeOf_logical hk hop, nofun⟩
  | call hk hcall =>
    obtain ⟨-, hdeclared, -, -⟩ := hcall
    exact ⟨_, (Declarations.typeOf_call _ _ _ hk).trans hdeclared, fun _ => Or.inl hk⟩
  | @elementRead array _ found tag _ _ _ _ hk harray _ ha htag =>
    obtain ⟨rest, hcs⟩ := exists_eq_cons harray
    refine ⟨_, Declarations.typeOf_elementRead_eq hk hcs ha, ?_⟩
    intro hnone
    -- without a type the element is taken for a number
    refine Or.inr ⟨hk, ?_⟩
    rw [Option.map_eq_none_iff.mp hnone] at htag
    show some tag = _
    rw [htag]
    rfl
  | emptyLiteral hk hcs => exact ⟨_, Declarations.typeOf_emptyLiteral hk hcs, nofun⟩
  | arrayLiteral hk hcs hfirst => exact ⟨_, Declarations.typeOf_arrayLiteral hk hcs hfirst, nofun⟩
  | newObject hk => exact ⟨_, Declarations.typeOf_newObject hk, nofun⟩
  | newArray hk => exact ⟨_, Declarations.typeOf_newArray hk, nofun⟩
  | length hk => exact ⟨_, Declarations.typeOf_length hk, nofun⟩

/-- An object that is told by the name of its class is written with this name,
whatever it is. -/
theorem Yields.tag?_of_object (h : Yields d scope t wanted c v c')
    (hk : t.kind = .self ∨ t.kind = .newObject) : ∃ name,
      d.typeOf scope t = .ok (some (.scalar name)) ∧ v.operand.tag? = some (.object name) := by
  cases h.expands with
  | self hself => exact ⟨_, Declarations.typeOf_self hself, rfl⟩
  | newObject hnew => exact ⟨_, Declarations.typeOf_newObject hnew, rfl⟩
  | _ => simp_all

/-- An argument that was lowered where a type is declared has the tag of this type
just if it is written as it is declared. -/
theorem Yields.tag?_eq_iff {declared : Ty} (h : Yields d scope t (some declared) c v c') :
    v.operand.tag? = some (Tag.ofTy declared) ↔ WrittenAs d scope t declared := by
  by_cases hclass : d.namesClass scope t
  · rw [h.tag?_of_namesClass hclass]
    refine iff_of_false nofun ?_
    intro hwritten
    rw [hwritten.value] at hclass
    nomatch hclass
  have hvalue : d.namesClass scope t = false := by simpa using hclass
  -- objects of the class and new ones are written with its name, reserved or not
  by_cases hobject : t.kind = .self ∨ t.kind = .newObject
  · obtain ⟨name, hty, htag⟩ := h.tag?_of_object hobject
    rw [htag, Option.some_inj, ofTy_eq_object_iff, writtenAs_iff_of_typed hvalue hty]
    exact and_congr_right fun _ => ⟨fun hclear _ => hclear, fun hclear => hclear hobject⟩
  have hagrees := h.agrees_of_clear (fun hk => absurd (Or.inl hk) hobject)
    (fun hk => absurd (Or.inr hk) hobject) hvalue
  obtain ⟨found, hfound, hassumed⟩ := h.exists_typeOf
  rcases found with - | ty
  · rw [writtenAs_iff_of_assumed hvalue hfound hobject]
    rcases hassumed rfl with hcall | ⟨hread, htag⟩
    · rw [hagrees.assumed hfound hcall]
      exact iff_of_true rfl (Or.inl hcall)
    · rw [htag, Option.some_inj, ofTy_eq_int_iff, hread]
      exact (or_iff_right nofun).symm
  · rw [hagrees.typed ty hfound, Option.some_inj, ofTy_eq_ofTy_iff,
      writtenAs_iff_of_typed hvalue hfound]
    exact (and_iff_left fun hk => absurd hk hobject).symm

/-- An array is written with its tag, wherever it stands. -/
theorem Yields.tag?_of_isArray (h : Yields d scope t wanted c v c') {ty : Ty}
    (hty : d.typeOf scope t = .ok (some ty)) (hisArray : ty.isArray) :
    v.operand.tag? = some (Tag.ofTy ty) := by
  -- neither the name of a class nor what is told by one is an array
  have hscalar : ∀ name, d.typeOf scope t ≠ .ok (some (.scalar name)) := by
    intro name h
    rw [hty] at h
    injection h with h
    injection h with h
    rw [h] at hisArray
    nomatch hisArray
  have hobject : ¬ (t.kind = .self ∨ t.kind = .newObject) := by
    intro hk
    obtain ⟨name, h, -⟩ := h.tag?_of_object hk
    exact hscalar name h
  have hvalue : d.namesClass scope t = false := by
    by_contra hclass
    exact hscalar _ (typeOf_of_namesClass (by simpa using hclass))
  have hagrees := h.agrees_of_clear (fun hk => absurd (Or.inl hk) hobject)
    (fun hk => absurd (Or.inr hk) hobject) hvalue
  exact hagrees.typed ty hty

/-! ### The tags of a call -/

variable {ts : List Tree} {parameters : List Variable} {ls : List Line} {xs : List Value}

/-- Values that are passed one by one have the tags of the parameters just if each
argument is written as its parameter is declared. -/
theorem tags_eq_iff_of_each {vs : List Variable} (hlength : xs.length = vs.length)
    (hpassed : ∀ (i : Nat) (v : Variable), vs[i]? = some v → ∃ t x c c', ts[i]? = some t ∧
      xs[i]? = some x ∧ (lower d scope t (some v.ty)).run c = .ok (x, c')) :
    xs.map (·.operand.tag?) = vs.map (fun v => some (Tag.ofTy v.ty)) ↔
      ∀ (i : Nat) v t, vs[i]? = some v → ts[i]? = some t → WrittenAs d scope t v.ty := by
  constructor
  · intro htags i v t hv ht
    obtain ⟨t', x, c, c', ht', hx, hrun⟩ := hpassed i v hv
    obtain rfl : t' = t := Option.some.inj (ht'.symm.trans ht)
    apply (Yields.tag?_eq_iff hrun).mp
    have hi := congrArg (·[i]?) htags
    simp only [List.getElem?_map, hx, hv, Option.map_some] at hi
    exact Option.some.inj hi
  · intro hwritten
    -- place by place; there are as many values as parameters
    apply List.ext_getElem?
    intro i
    rw [List.getElem?_map, List.getElem?_map]
    rcases e : vs[i]? with - | v
    · rw [List.getElem?_eq_none_iff] at e
      rw [List.getElem?_eq_none (hlength ▸ e)]
      rfl
    · obtain ⟨t, x, c, c', ht, hx, hrun⟩ := hpassed i v e
      rw [hx]
      exact congrArg some ((Yields.tag?_eq_iff hrun).mpr (hwritten i v t e ht))

/-- What is passed for an open tail has the tag of an array of numbers. -/
theorem PassesTail.tag? {x : Value} (h : PassesTail d scope ts ls x) :
    x.operand.tag? = some (Tag.ofTy .intVarargs) := by
  cases h with
  | single hone hsingle hrun =>
    obtain ⟨t, ty, hone', hty, hisArray, hname⟩ := hsingle
    obtain ⟨rfl, -⟩ := List.cons.inj (hone.symm.trans hone')
    rw [Yields.tag?_of_isArray hrun hty hisArray]
    refine congrArg some (ofTy_of_sameShape ?_)
    rw [Ty.sameShape, hname, hisArray]
    rfl
  | packed _ hpacks =>
    rw [hpacks.operand]
    rfl

theorem PassesArguments.tags_eq_iff (h : PassesArguments d scope parameters ts ls xs)
    (hopen : ∀ v, Parameters.openTail? parameters = some v → v.ty = .intVarargs) :
    xs.map (·.operand.tag?) = parameters.map (fun v => some (Tag.ofTy v.ty)) ↔
      ∀ (i : Nat) v t, (Parameters.fixed parameters)[i]? = some v → ts[i]? = some t →
        WrittenAs d scope t v.ty := by
  rcases htail : Parameters.openTail? parameters with - | tail
  · have hfixed := Parameters.fixed_of_openTail?_eq_none htail
    have hpassed := h.fixed
    rw [hfixed] at hpassed ⊢
    exact tags_eq_iff_of_each h.length hpassed
  · obtain ⟨x, hlast, hx⟩ := h.tail tail htail
    -- the last value is the array of the tail, which always has the tag of the tail
    obtain ⟨front, rfl⟩ := List.getLast?_eq_some_iff.mp hlast
    have hsplit := Parameters.eq_concat_of_openTail?_eq_some htail
    have hlength : front.length = (Parameters.fixed parameters).length := by
      have hall := h.length
      rw [hsplit, List.length_append, List.length_append] at hall
      exact Nat.add_right_cancel hall
    rw [← tags_eq_iff_of_each hlength]
    · conv_lhs => rw [hsplit]
      rw [List.map_append, List.map_append, List.map_singleton, List.map_singleton, hx.tag?,
        hopen tail htail]
      exact List.append_left_inj _
    · intro i v hv
      obtain ⟨t, y, c, c', ht, hy, hrun⟩ := h.fixed i v hv
      refine ⟨t, y, c, c', ht, ?_, hrun⟩
      rwa [List.getElem?_append_left (hlength ▸ (List.getElem?_eq_some_iff.mp hv).1)] at hy

/-- **Signatures.**  In a program without findings, whose class has not the name of
an import, a call of one of the class's own methods has the tags that the head of
the method has, parameter by parameter, just if each argument for a parameter that
takes one is written as this is declared. -/
theorem tags_agree_iff {root : Tree} (hgrammar : root.isGrammatical)
    (hroot : Declarations.ofTree root = .ok d) (hclean : d.analyze (.top root) = .ok .empty)
    (himported : d.isImported d.className = false) :
    ∃ p, Program.ofTree d root = .ok p ∧
      ∀ q ∈ (Place.top root).preorder, q.IsOwnCall d →
        (∃ m ∈ p.methods, q.method? = some m.name ∧ HasCallIn d q.method? m.body q.tree) ∧
        (∃ callee ∈ p.methods, callee.name = q.tree.name) ∧
        ∀ callee ∈ p.methods, callee.name = q.tree.name → ∀ wanted c call c',
          (lowerCall d q.method? q.tree (partsOfEach d q.method? q.tree.children) wanted).run c =
              .ok (call, c') →
            (call.invocation.arguments.map (·.tag?) = callee.parameters.map (some ·.2) ↔
              ∀ (i : Nat) v t, (Parameters.fixed (d.parameters q.tree.name))[i]? = some v →
                (q.tree.children.drop 1)[i]? = some t → WrittenAs d q.method? t v.ty) := by
  obtain ⟨p, hp⟩ := exists_ofTree_of_clean hgrammar hclean
  refine ⟨p, hp, ?_⟩
  intro q hq hcall
  refine ⟨exists_hasCallIn hgrammar hp hq hcall,
    exists_mem_of_hasMethod hgrammar hroot hclean hp hcall.declared, ?_⟩
  intro callee hcallee hname wanted c call c' hrun
  obtain ⟨-, -, code, xs, -, harguments, hpasses⟩ :=
    fillsParameters_of_isOwnCall hgrammar hroot hclean himported hq hcall hrun
  obtain ⟨s, hs, hhead⟩ := exists_method?_of_mem hgrammar hroot hclean hp hcallee
  have hparameters : callee.parameters = (d.parameters q.tree.name).map tagged := by
    rw [hhead.parameters, Declarations.parameters, ← hname, hs]
    rfl
  have hopen : ∀ v, Parameters.openTail? (d.parameters q.tree.name) = some v →
      v.ty = .intVarargs := by
    intro v hv
    obtain ⟨hlast, hvarargs⟩ := Option.filter_eq_some_iff.mp hv
    exact Declarations.eq_intVarargs_of_parameters hroot (List.mem_of_getLast? hlast) hvarargs
  rw [harguments, hparameters, List.map_map, List.map_map]
  exact hpasses.tags_eq_iff hopen

/-! ### An argument that is not written as it is declared

    class Shop extends Base {
      int take(Base b, int... n) { return this.take(b, 1, 2); }
      int run() { return this.take(this); }
    }
-/

def takenWith (arguments : List Tree) : Tree :=
  (Form.call "take" Form.self.tree arguments).tree

def takenAsDeclared : Tree :=
  takenWith [(Form.identifier "b").tree, (Form.integer 1).tree, (Form.integer 2).tree]

def takenAlike : Tree := takenWith [Form.self.tree]

def shop : Tree :=
  let int := (Form.typeName "int" false false).tree
  let take := (Form.methodDecl "take" int false
    [(Form.parameter "b" (Form.typeName "Base" false false).tree).tree,
      (Form.parameter "n" (Form.typeName "int" false true).tree).tree,
      (Form.returnStmt (some takenAsDeclared)).tree]).tree
  let run := (Form.methodDecl "run" int false [(Form.returnStmt (some takenAlike)).tree]).tree
  (Form.program [(Form.classDecl "Shop" (some "Base") [take, run]).tree]).tree

def shopDeclarations : Declarations :=
  ⟨"Shop", some "Base", [], [],
    [⟨"take", .int, [⟨"b", .scalar "Base"⟩, ⟨"n", .intVarargs⟩], [], false⟩,
      ⟨"run", .int, [], [], false⟩]⟩

/-- The calls of `shop`, with the methods that they stand in. -/
def shopCalls : List (Tree × Option String) :=
  [(takenAsDeclared, some "take"), (takenAlike, some "run")]

/-- Each of them is one of the class's own, at its place. -/
theorem exists_place_of_shopCalls {t : Tree} {scope : Option String} (ht : (t, scope) ∈ shopCalls) :
    ∃ q ∈ (Place.top shop).preorder, q.tree = t ∧ q.method? = scope ∧
      q.IsOwnCall shopDeclarations := by
  refine Place.exists_isOwnCall shopCalls rfl (by decide) ?_ ht
  exact List.forall_mem_cons.mpr
    ⟨⟨_, _, rfl, rfl⟩, List.forall_mem_singleton.mpr ⟨_, _, rfl, rfl⟩⟩

/-- In `take` the tags of the call are those of the head of `take`; in `run` they are
not. -/
theorem shop_tags_agree : ∃ p, Program.ofTree shopDeclarations shop = .ok p ∧
    ∃ callee ∈ p.methods, callee.name = "take" ∧
      (∃ call c', (lowerCall shopDeclarations (some "take") takenAsDeclared
          (partsOfEach shopDeclarations (some "take") takenAsDeclared.children) none).run ⟨0, 0⟩ =
            .ok (call, c') ∧
        call.invocation.arguments.map (·.tag?) = callee.parameters.map (some ·.2)) ∧
      ∃ call c', (lowerCall shopDeclarations (some "run") takenAlike
          (partsOfEach shopDeclarations (some "run") takenAlike.children) none).run ⟨0, 0⟩ =
            .ok (call, c') ∧
        call.invocation.arguments.map (·.tag?) ≠ callee.parameters.map (some ·.2) := by
  have hgrammar : shop.isGrammatical := by decide
  obtain ⟨p, hp, hcalls⟩ := tags_agree_iff (d := shopDeclarations) hgrammar rfl rfl rfl
  refine ⟨p, hp, ?_⟩
  obtain ⟨q, hq, htree, hmethod, hown⟩ :=
    exists_place_of_shopCalls (show (takenAsDeclared, some "take") ∈ shopCalls from .head _)
  obtain ⟨q', hq', htree', hmethod', hown'⟩ :=
    exists_place_of_shopCalls (show (takenAlike, some "run") ∈ shopCalls from .tail _ (.head _))
  obtain ⟨-, ⟨callee, hcallee, hname⟩, hagree⟩ := hcalls q hq hown
  obtain ⟨-, -, hagree'⟩ := hcalls q' hq' hown'
  rw [htree] at hname
  refine ⟨callee, hcallee, hname, ?_, ?_⟩
  · obtain ⟨call, c', hrun⟩ : ∃ call c', (lowerCall shopDeclarations (some "take") takenAsDeclared
        (partsOfEach shopDeclarations (some "take") takenAsDeclared.children) none).run ⟨0, 0⟩ =
          .ok (call, c') := ⟨_, _, rfl⟩
    refine ⟨call, c', hrun, ?_⟩
    rw [htree, hmethod] at hagree
    apply (hagree callee hcallee hname none ⟨0, 0⟩ call c' hrun).mpr
    -- the only parameter that takes one argument is `b`, and `b` is what it gets
    intro i v t hv ht
    obtain - | i := i
    · obtain rfl : (⟨"b", .scalar "Base"⟩ : Variable) = v := Option.some.inj hv
      obtain rfl : (Form.identifier "b").tree = t := Option.some.inj ht
      refine ⟨rfl, ?_, nofun, by decide⟩
      intro ty hty
      obtain rfl : Ty.scalar "Base" = ty := Option.some.inj (Except.ok.inj hty)
      rfl
    · nomatch hv
  · obtain ⟨call, c', hrun⟩ : ∃ call c', (lowerCall shopDeclarations (some "run") takenAlike
        (partsOfEach shopDeclarations (some "run") takenAlike.children) none).run ⟨0, 0⟩ =
          .ok (call, c') := ⟨_, _, rfl⟩
    refine ⟨call, c', hrun, ?_⟩
    rw [htree', hmethod'] at hagree'
    intro htags
    have hwritten := (hagree' callee hcallee hname none ⟨0, 0⟩ call c' hrun).mp htags
    have hthis := (hwritten 0 ⟨"b", .scalar "Base"⟩ Form.self.tree rfl rfl).typed
      (.scalar "Shop") rfl
    nomatch hthis

/-- Not every call of a program that passes the checks has the tags of the method that
it calls: an object of the class is written with the name of the class where the
class that it extends is declared. -/
theorem checked_signatures_disagree :
    ¬ ∀ (root : Tree) (d : Declarations) (p : Program), root.isGrammatical →
      Declarations.ofTree root = .ok d → d.analyze (.top root) = .ok .empty →
      d.isImported d.className = false → Program.ofTree d root = .ok p →
      ∀ q ∈ (Place.top root).preorder, q.IsOwnCall d →
      ∀ callee ∈ p.methods, callee.name = q.tree.name → ∀ wanted c call c',
        (lowerCall d q.method? q.tree (partsOfEach d q.method? q.tree.children) wanted).run c =
            .ok (call, c') →
          call.invocation.arguments.map (·.tag?) = callee.parameters.map (some ·.2) := by
  intro h
  obtain ⟨q, hq, htree, hmethod, hown⟩ :=
    exists_place_of_shopCalls (show (takenAlike, some "run") ∈ shopCalls from .tail _ (.head _))
  obtain ⟨p, hp⟩ : ∃ p, Program.ofTree shopDeclarations shop = .ok p := ⟨_, rfl⟩
  have hgrammar : shop.isGrammatical := by decide
  have htags := h shop shopDeclarations p hgrammar rfl rfl rfl hp q hq hown
  rw [htree, hmethod] at htags
  obtain rfl : _ = p := Except.ok.inj hp
  have hagree := htags _ (List.mem_cons_self ..) rfl none ⟨0, 0⟩ _ _ rfl
  revert hagree
  decide

end JavaMinus.ThreeAddress
