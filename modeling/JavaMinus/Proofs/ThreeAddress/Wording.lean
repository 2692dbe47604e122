/-
JavaMinus/Proofs/ThreeAddress/Wording.lean

What three-address code is written with.

Whatever is written in the lines of a program comes from a name, a type or a numeral of
the source, or is a number of the lowering itself.  So code is in the vocabulary that its
source is written with (`lowersIn`, `lowersLinesIn`, `isIn_of_lowerMethod`).  The object
that a method works on enters the code through a node that is the object, or reads or
assigns one of its fields, and nowhere else: code that is lowered from a tree without
such nodes (`Silent`) is in a vocabulary without the object.
-/
import JavaMinus.Proofs.ThreeAddress.Emitted
import JavaMinus.Proofs.Vocabulary

namespace JavaMinus.ThreeAddress

variable {V : Vocabulary}

/-! ### Code in a vocabulary -/

/-- The names in a tag are in a vocabulary. -/
def Tag.IsIn (V : Vocabulary) : Tag → Prop
  | .i32 | .bool | .void => True
  | .object name => V.Has name
  | .array element => element.IsIn V

def Cell.IsIn (V : Vocabulary) : Cell → Prop
  | .temporary _ => True
  | .named name => V.Has name

def Operand.IsIn (V : Vocabulary) : Operand → Prop
  | .cell c tag => c.IsIn V ∧ tag.IsIn V
  | .number digits => V.Has digits
  | .truth _ => True
  | .self className => V.object ∧ V.Has className
  | .classRef name => V.Has name

def Receiver.IsIn (V : Vocabulary) : Receiver → Prop
  | .classRef name => V.Has name
  | .self => V.object
  | .object x => x.IsIn V

structure Invocation.IsIn (V : Vocabulary) (i : Invocation) : Prop where
  receiver : i.receiver.IsIn V
  method : V.Has i.method
  arguments : ∀ x ∈ i.arguments, x.IsIn V
  result : i.result.IsIn V

def Source.IsIn (V : Vocabulary) : Source → Prop
  | .operand x | .length x => x.IsIn V
  | .arithmetic _ x y | .logical _ x y => x.IsIn V ∧ y.IsIn V
  | .fieldRead name tag => V.object ∧ V.Has name ∧ tag.IsIn V
  | .call i => i.IsIn V
  | .newArray x tag => x.IsIn V ∧ tag.IsIn V
  | .newObject name => V.Has name
  | .element x y tag => x.IsIn V ∧ y.IsIn V ∧ tag.IsIn V

/-- The names and numerals in a line are in a vocabulary, and it uses the object that the
method works on only if that is there. -/
def Line.IsIn (V : Vocabulary) : Line → Prop
  | .label _ | .jump _ => True
  | .assign c tag source => c.IsIn V ∧ tag.IsIn V ∧ source.IsIn V
  | .store c x tag y => c.IsIn V ∧ x.IsIn V ∧ tag.IsIn V ∧ y.IsIn V
  | .fieldWrite name tag x => V.object ∧ V.Has name ∧ tag.IsIn V ∧ x.IsIn V
  | .call i => i.IsIn V
  | .construct x | .branch x _ => x.IsIn V
  | .ret tag none => tag.IsIn V
  | .ret tag (some x) => tag.IsIn V ∧ x.IsIn V

def LinesIn (V : Vocabulary) (ls : List Line) : Prop := ∀ l ∈ ls, l.IsIn V

/-- The names and tags of some variables in code are in a vocabulary. -/
def VariablesIn (V : Vocabulary) (vs : List (String × Tag)) : Prop :=
  ∀ v ∈ vs, V.Has v.1 ∧ v.2.IsIn V

structure Method.IsIn (V : Vocabulary) (m : Method) : Prop where
  name : V.Has m.name
  parameters : VariablesIn V m.parameters
  result : m.result.IsIn V
  body : LinesIn V m.body

theorem Tag.isIn_ofName {name : String} (h : V.Has name) : (Tag.ofName name).IsIn V := by
  rw [Tag.ofName]
  split
  · trivial
  · split
    · trivial
    · split
      · trivial
      · exact h

theorem Tag.isIn_ofTy {ty : Ty} (h : V.Has ty.name) : (Tag.ofTy ty).IsIn V := by
  cases ty with
  | scalar name => exact Tag.isIn_ofName h
  | array name | varargs name => exact Tag.isIn_ofName h

theorem isIn_label (l : Label) : (Line.label l).IsIn V := trivial

theorem isIn_jump (l : Label) : (Line.jump l).IsIn V := trivial

theorem isIn_branch {x : Operand} (h : x.IsIn V) (l : Label) : (Line.branch x l).IsIn V := h

namespace LinesIn

theorem nil : LinesIn V [] := List.forall_mem_nil _

theorem cons {l : Line} {ls : List Line} (h : LinesIn V ls) (hl : l.IsIn V) :
    LinesIn V (l :: ls) := List.forall_mem_cons.mpr ⟨hl, h⟩

theorem append {ls ls' : List Line} (h : LinesIn V ls) (h' : LinesIn V ls') :
    LinesIn V (ls ++ ls') := List.forall_mem_append.mpr ⟨h, h'⟩

theorem concat {ls : List Line} {l : Line} (h : LinesIn V ls) (hl : l.IsIn V) :
    LinesIn V (ls ++ [l]) := h.append (nil.cons hl)

end LinesIn

theorem variablesIn_map_tagged {vs : List Variable} (h : ∀ v ∈ vs, v.IsIn V) :
    VariablesIn V (vs.map tagged) := by
  intro q hq
  obtain ⟨v, hv, rfl⟩ := List.mem_map.mp hq
  exact ⟨(h v hv).name, Tag.isIn_ofTy (h v hv).type⟩

/-- An operand in a vocabulary, behind lines in it. -/
structure Value.IsIn (V : Vocabulary) (v : Value) : Prop where
  operand : v.operand.IsIn V
  code : LinesIn V v.code

theorem isIn_plain {x : Operand} (h : x.IsIn V) : (Value.plain x).IsIn V := ⟨h, .nil⟩

theorem isIn_computed {before : List Line} {n : Nat} {tag : Tag} {source : Source}
    (hbefore : LinesIn V before) (htag : tag.IsIn V) (hsource : source.IsIn V) :
    (Value.computed before n tag source).IsIn V where
  operand := ⟨trivial, htag⟩
  code := hbefore.concat ⟨trivial, htag, hsource⟩

/-- The type that is wanted, if there is one, has its name in a vocabulary. -/
def WantsIn (V : Vocabulary) (wanted : Option Ty) : Prop := ∀ ty ∈ wanted, V.Has ty.name

theorem wantsIn_none : WantsIn V none := nofun

theorem wantsIn_some {ty : Ty} (h : V.Has ty.name) : WantsIn V (some ty) := by
  intro found heq
  rwa [← Option.some.inj heq]

theorem WantsIn.getD {wanted : Option Ty} (h : WantsIn V wanted) {ty : Ty}
    (hty : V.Has ty.name) : V.Has (wanted.getD ty).name := by
  cases wanted with
  | none => exact hty
  | some found => exact h found rfl

/-! ### Silent trees -/

/-- A node of a method that neither is the object nor reads or assigns one of its
fields. -/
structure IsSilent (d : Declarations) (scope : Option String) (t : Tree) : Prop where
  kind : t.kind ≠ .self
  read : t.kind = .identifier → ∀ b, d.identifier? scope t = some b → b.origin ≠ .field
  assigned : t.kind ∈ [.assignment, .elementAssignment] →
    ∀ b, assigned? d scope t = some b → b.origin ≠ .field

/-- A tree of a method that does not use the object. -/
def Silent (d : Declarations) (scope : Option String) (t : Tree) : Prop :=
  ∀ u ∈ t.preorder, IsSilent d scope u

/-- A tree is written in a vocabulary: its names and numerals are, and it uses the object
only if that is there. -/
structure Speaks (V : Vocabulary) (d : Declarations) (scope : Option String) (t : Tree) :
    Prop where
  names : t.IsIn V
  silent : ¬ V.object → Silent d scope t

namespace Speaks

variable {d : Declarations} {scope : Option String} {t u : Tree}

theorem child (h : Speaks V d scope t) (hu : u ∈ t.children) : Speaks V d scope u where
  names := h.names.child hu
  silent hobject v hv := h.silent hobject v (Tree.mem_preorder_of_child hu hv)

theorem getElem? (h : Speaks V d scope t) {i : Nat} (hu : t.children[i]? = some u) :
    Speaks V d scope u := h.child (List.mem_of_getElem? hu)

/-- The object is in the vocabulary of a tree that uses it. -/
theorem object_of_not_isSilent (h : Speaks V d scope t) (hnot : ¬ IsSilent d scope t) :
    V.object := by
  by_contra hobject
  exact hnot (h.silent hobject t t.mem_preorder_self)

theorem object_of_assigned (h : Speaks V d scope t)
    (hk : t.kind ∈ [.assignment, .elementAssignment]) {b : Binding}
    (hb : assigned? d scope t = some b) (hfield : b.origin = .field) : V.object :=
  h.object_of_not_isSilent fun hsilent => hsilent.assigned hk b hb hfield

end Speaks

/-! ### Expressions -/

/-- Whatever an expression is lowered to, where no type or one in a vocabulary is wanted,
is in the vocabulary. -/
def LowersIn (V : Vocabulary) (d : Declarations) (scope : Option String) (t : Tree) : Prop :=
  ∀ wanted c v c', WantsIn V wanted → Yields d scope t wanted c v c' → v.IsIn V

section Lowered

variable {d : Declarations} {scope : Option String} {t : Tree} {ts : List Tree}
  {c c' : Counters} {v : Value}

theorem YieldsIndex.isIn (h : YieldsIndex d scope t c v c') (ht : LowersIn V d scope t) :
    v.IsIn V := by
  cases h with
  | literal htag hx =>
    have hX := ht _ _ _ _ wantsIn_none hx
    refine isIn_computed hX.code ?_ hX.operand
    rcases htag with ⟨-, rfl⟩ | ⟨-, rfl⟩ <;> trivial
  | other _ hx => exact ht _ _ _ _ wantsIn_none hx

theorem YieldsStores.linesIn {array : Nat} {element : Ty} {i : Nat} {stores : List Line}
    (h : YieldsStores d scope array element i ts c stores c') (helement : V.Has element.name)
    (hts : ∀ u ∈ ts, LowersIn V d scope u) : LinesIn V stores := by
  induction h with
  | nil => exact .nil
  | @cons i _ _ _ x c₁ more _ hx _ ih =>
    have hX := hts _ (List.mem_cons_self ..) _ _ _ _ (wantsIn_some helement) hx
    have hmore := ih fun u hu => hts u (List.mem_cons_of_mem _ hu)
    have hassign : (Line.assign (.temporary c₁.temporaries) .i32
        (.operand (.number (toString i)))).IsIn V := ⟨trivial, trivial, V.number i⟩
    have hstore : (Line.store (.temporary array) (.cell (.temporary c₁.temporaries) .i32)
        (Tag.ofTy element) x.operand).IsIn V :=
      ⟨trivial, ⟨trivial, trivial⟩, Tag.isIn_ofTy helement, hX.operand⟩
    exact (hX.code.append ((LinesIn.nil.cons hstore).cons hassign)).append hmore

theorem YieldsArray.isIn {element : Ty} (h : YieldsArray d scope element ts c v c')
    (helement : V.Has element.name) (hts : ∀ u ∈ ts, LowersIn V d scope u) : v.IsIn V := by
  obtain ⟨hstores⟩ := h
  have htag : (Tag.array (Tag.ofName element.name)).IsIn V := Tag.isIn_ofName helement
  constructor
  · exact ⟨trivial, htag⟩
  · exact (hstores.linesIn helement hts).cons ⟨trivial, htag, V.number ts.length, htag⟩

theorem YieldsReceiver.isIn {code : List Line} {receiver : Receiver}
    (h : YieldsReceiver d scope t c code receiver c') (hspeaks : Speaks V d scope t)
    (ht : LowersIn V d scope t) : LinesIn V code ∧ receiver.IsIn V := by
  cases h with
  | self hk => exact ⟨.nil, hspeaks.object_of_not_isSilent fun hsilent => hsilent.kind hk⟩
  | classRef => exact ⟨.nil, hspeaks.names.name⟩
  | object _ hx =>
    have hX := ht _ _ _ _ wantsIn_none hx
    exact ⟨hX.code, hX.operand⟩

/-- Values in a vocabulary, one for each of some expressions. -/
def ValuesIn (V : Vocabulary) (xs : List Value) : Prop := ∀ x ∈ xs, x.IsIn V

theorem ValuesIn.code {xs : List Value} (h : ValuesIn V xs) :
    LinesIn V (xs.flatMap (·.code)) := by
  intro l hl
  obtain ⟨x, hx, hl⟩ := List.mem_flatMap.mp hl
  exact (h x hx).code l hl

theorem YieldsEach.valuesIn {parameters : List Variable} {xs : List Value}
    (h : YieldsEach d scope parameters ts c xs c') (hparameters : ∀ p ∈ parameters, p.IsIn V)
    (hts : ∀ u ∈ ts, LowersIn V d scope u) : ValuesIn V xs := by
  induction h with
  | nil => exact List.forall_mem_nil _
  | @cons parameters _ _ _ _ _ _ _ hx _ ih =>
    have hwanted : WantsIn V (parameters.head?.map (·.ty)) := by
      intro ty hty
      obtain ⟨p, hp, rfl⟩ := Option.map_eq_some_iff.mp hty
      exact (hparameters p (List.mem_of_head? hp)).type
    refine List.forall_mem_cons.mpr ⟨hts _ (List.mem_cons_self ..) _ _ _ _ hwanted hx, ?_⟩
    exact ih (fun p hp => hparameters p (List.mem_of_mem_tail hp))
      fun u hu => hts u (List.mem_cons_of_mem _ hu)

theorem YieldsTail.isIn (h : YieldsTail d scope ts c v c')
    (hts : ∀ u ∈ ts, LowersIn V d scope u) : v.IsIn V := by
  cases h with
  | single hone _ _ hx =>
    subst hone
    exact hts _ (List.mem_singleton_self _) _ _ _ _ wantsIn_none hx
  | packed _ hx => exact hx.isIn V.int hts

theorem YieldsArguments.valuesIn {parameters : List Variable} {xs : List Value}
    (h : YieldsArguments d scope parameters ts c xs c')
    (hparameters : ∀ p ∈ parameters, p.IsIn V) (hts : ∀ u ∈ ts, LowersIn V d scope u) :
    ValuesIn V xs := by
  cases h with
  | each _ hxs => exact hxs.valuesIn hparameters hts
  | tail _ hxs hx =>
    have hXs := hxs.valuesIn (fun p hp => hparameters p (Parameters.mem_of_mem_fixed hp))
      fun u hu => hts u (List.mem_of_mem_take hu)
    have hX := hx.isIn fun u hu => hts u (List.mem_of_mem_drop hu)
    exact List.forall_mem_append.mpr ⟨hXs, List.forall_mem_singleton.mpr hX⟩

theorem YieldsCall.isIn (hd : d.AreIn V) {wanted : Option Ty} {call : Call}
    (h : YieldsCall d scope t wanted c call c') (hspeaks : Speaks V d scope t)
    (hwanted : WantsIn V wanted) (ht : ∀ u ∈ t.children, LowersIn V d scope u) :
    LinesIn V call.code ∧ call.invocation.IsIn V := by
  rcases h with @⟨receiver, arguments, declared, code, target, c₁, xs, c₂, hcs, hdeclared,
    hreceiver, hxs⟩
  have hmem : receiver ∈ t.children := Tree.mem_children_of_eq_cons hcs
  obtain ⟨hcode, htarget⟩ := hreceiver.isIn (hspeaks.child hmem) (ht receiver hmem)
  -- of other classes no parameters are known, so none of their types is written
  have hparameters : ∀ p ∈ (if declared.isSome then d.parameters t.name else []), p.IsIn V := by
    split
    · exact hd.ofParameters t.name
    · exact List.forall_mem_nil _
  rw [hcs] at ht
  have hXs := hxs.valuesIn hparameters fun u hu => ht u (List.mem_cons_of_mem _ hu)
  refine ⟨hcode.append hXs.code, htarget, hspeaks.names.name, ?_, ?_⟩
  · intro x hx
    obtain ⟨v, hv, rfl⟩ := List.mem_map.mp hx
    exact (hXs v hv).operand
  · apply Tag.isIn_ofTy
    cases declared with
    | none => exact hwanted.getD V.void
    | some ty => exact hd.callType hdeclared

/-- **Expressions.**  An expression is lowered to a value in its vocabulary. -/
theorem lowersIn (hd : d.AreIn V) : ∀ t : Tree, Speaks V d scope t → LowersIn V d scope t := by
  refine Tree.induction ?_
  intro t ih hspeaks wanted c v c' hwanted h
  have hname := hspeaks.names.name
  have hparts : ∀ u ∈ t.children, LowersIn V d scope u :=
    fun u hu => ih u hu (hspeaks.child hu)
  have hpart : ∀ {i : Nat} {u : Tree}, t.children[i]? = some u → LowersIn V d scope u :=
    fun hu => hparts _ (List.mem_of_getElem? hu)
  -- by form; the parts are in the vocabulary by induction, and the object is used by two forms
  cases h.expands with
  | integer hk => exact isIn_plain (hspeaks.names.digits hk)
  | boolean => exact isIn_plain trivial
  | self hk =>
    have hobject := hspeaks.object_of_not_isSilent fun hsilent => hsilent.kind hk
    exact isIn_plain ⟨hobject, hd.className⟩
  | unbound => exact isIn_plain ⟨hname, trivial⟩
  | variable_ _ hb =>
    exact isIn_plain ⟨hname, Tag.isIn_ofTy (hd.identifier? hspeaks.names hb)⟩
  | classRef => exact isIn_plain hname
  | field hk hb hfield =>
    have htag := Tag.isIn_ofTy (hd.identifier? hspeaks.names hb)
    have hobject := hspeaks.object_of_not_isSilent fun hsilent => hsilent.read hk _ hb hfield
    exact isIn_computed .nil htag ⟨hobject, hname, htag⟩
  | arithmetic _ _ hleft hright hx hy =>
    have hX := hpart hleft _ _ _ _ (wantsIn_some V.int) hx
    have hY := hpart hright _ _ _ _ (wantsIn_some V.int) hy
    exact isIn_computed (hX.code.append hY.code) trivial ⟨hX.operand, hY.operand⟩
  | @logical op _ _ _ _ _ _ _ _ hleft hright hx hy =>
    have hoperands : WantsIn V (some (if op.isConnective then .boolean else .int)) := by
      apply wantsIn_some
      split
      · exact V.boolean
      · exact V.int
    have hX := hpart hleft _ _ _ _ hoperands hx
    have hY := hpart hright _ _ _ _ hoperands hy
    exact isIn_computed (hX.code.append hY.code) trivial ⟨hX.operand, hY.operand⟩
  | call hk hcall =>
    obtain ⟨hcode, hinvocation⟩ := hcall.isIn hd hspeaks
      (wantsIn_some (hwanted.getD V.int)) hparts
    exact isIn_computed hcode hinvocation.result hinvocation
  | @elementRead array _ ty _ _ _ _ _ _ harray hindex hty heq hx hi =>
    have hX := hpart harray _ _ _ _ wantsIn_none hx
    have hI := hi.isIn (hpart hindex)
    have htag : (Tag.ofTy ((ty.bind (·.element?)).getD .int)).IsIn V := by
      apply Tag.isIn_ofTy
      cases ty with
      | none => exact V.int
      | some held =>
        exact Vocabulary.element (hd.typeOf (hspeaks.getElem? harray).names held hty)
    rw [← heq] at htag
    exact isIn_computed (hX.code.append hI.code) htag ⟨hX.operand, hI.operand, htag⟩
  | emptyLiteral _ _ hx => exact hx.isIn V.int nofun
  | @arrayLiteral first _ element _ _ _ hcs helement hx =>
    have hmem : first ∈ t.children := Tree.mem_children_of_eq_cons hcs
    refine hx.isIn ?_ hparts
    -- the elements are written with the type of the first one
    cases element with
    | none => exact V.int
    | some held => exact hd.typeOf (hspeaks.child hmem).names held helement
  | newObject =>
    have hcell : (Operand.cell (.temporary c.temporaries) (.object t.name)).IsIn V :=
      ⟨trivial, hname⟩
    constructor
    · exact hcell
    · have hconstruct : (Line.construct (.cell (.temporary c.temporaries)
          (.object t.name))).IsIn V := hcell
      exact (LinesIn.nil.cons hconstruct).cons ⟨trivial, hname, hname⟩
  | newArray _ hsize hx =>
    have hX := hpart hsize _ _ _ _ wantsIn_none hx
    exact isIn_computed hX.code trivial ⟨hX.operand, trivial⟩
  | length _ harray hx =>
    have hX := hpart harray _ _ _ _ wantsIn_none hx
    exact isIn_computed hX.code trivial hX.operand

theorem Yields.isIn (hd : d.AreIn V) {wanted : Option Ty} (hwanted : WantsIn V wanted)
    (hspeaks : Speaks V d scope t) (h : Yields d scope t wanted c v c') : v.IsIn V :=
  lowersIn hd t hspeaks wanted c v c' hwanted h

/-! ### Statements -/

variable {result : Ty} {ls : List Line}

theorem linesIn_conditionalLines {n : Nat} {x : Value} {thenLines elseLines : List Line}
    (hx : x.IsIn V) (hthen : LinesIn V thenLines) (helse : LinesIn V elseLines) :
    LinesIn V (conditionalLines n x thenLines elseLines) := by
  have hbranch := hx.code.concat (isIn_branch hx.operand ⟨.thenBranch, n⟩)
  have hbetween := (LinesIn.nil.cons (isIn_label (V := V) ⟨.thenBranch, n⟩)).cons
    (isIn_jump ⟨.conditionalEnd, n⟩)
  exact (((hbranch.append helse).append hbetween).append hthen).concat
    (isIn_label ⟨.conditionalEnd, n⟩)

theorem linesIn_loopLines {n : Nat} {x : Value} {bodyLines : List Line} (hx : x.IsIn V)
    (hbody : LinesIn V bodyLines) : LinesIn V (loopLines n x bodyLines) := by
  have hhead := LinesIn.nil.cons (isIn_label (V := V) ⟨.loopCondition, n⟩)
  have hbranch := ((LinesIn.nil.cons (isIn_label ⟨.loopBody, n⟩)).cons
    (isIn_jump ⟨.loopEnd, n⟩)).cons (isIn_branch hx.operand ⟨.loopBody, n⟩)
  have hend := (LinesIn.nil.cons (isIn_label (V := V) ⟨.loopEnd, n⟩)).cons
    (isIn_jump ⟨.loopCondition, n⟩)
  exact (((hhead.append hx.code).append hbranch).append hbody).append hend

/-- Whatever a statement is lowered to, its lines are in a vocabulary. -/
def LowersLinesIn (V : Vocabulary) (d : Declarations) (scope : Option String) (result : Ty)
    (t : Tree) : Prop :=
  ∀ c ls c', YieldsLines d scope result t c ls c' → LinesIn V ls

theorem YieldsBlock.linesIn (h : YieldsBlock d scope result ts c ls c')
    (hts : ∀ u ∈ ts, LowersLinesIn V d scope result u) : LinesIn V ls := by
  induction h with
  | nil => exact .nil
  | cons hls _ ih =>
    have hLs := hts _ (List.mem_cons_self ..) _ _ _ hls
    exact hLs.append (ih fun u hu => hts u (List.mem_cons_of_mem _ hu))

/-- What is assigned to has a type with a name in the vocabulary, or none is known. -/
theorem has_assigned (hd : d.AreIn V) {ty : Ty} (hty : V.Has ty.name) :
    V.Has (((assigned? d scope t).map (·.ty)).getD ty).name := by
  rcases e : assigned? d scope t with - | b
  · exact hty
  · exact hd.variableOf? e

/-- **Statements.**  A statement is lowered to lines in its vocabulary. -/
theorem lowersLinesIn (hd : d.AreIn V) (hresult : V.Has result.name) :
    ∀ t : Tree, Speaks V d scope t → LowersLinesIn V d scope result t := by
  refine Tree.induction ?_
  intro t ih hspeaks c ls c' h
  have hname := hspeaks.names.name
  have hstatement : ∀ u ∈ t.children, LowersLinesIn V d scope result u :=
    fun u hu => ih u hu (hspeaks.child hu)
  cases h.expands with
  | @assignment ty _ _ _ _ _ hty hvalue hx =>
    have hnamed : V.Has ty.name := by
      rw [hty]
      exact has_assigned hd V.int
    have hX := hx.isIn hd (wantsIn_some hnamed) (hspeaks.getElem? hvalue)
    exact hX.code.concat ⟨hname, Tag.isIn_ofTy hnamed, hX.operand⟩
  | fieldAssignment hk hb hfield hvalue hx =>
    have hnamed := hd.variableOf? hb
    have hobject := hspeaks.object_of_assigned (by rw [hk]; decide) hb hfield
    have hX := hx.isIn hd (wantsIn_some hnamed) (hspeaks.getElem? hvalue)
    exact hX.code.concat ⟨hobject, hname, Tag.isIn_ofTy hnamed, hX.operand⟩
  | @elementAssignment element _ _ _ _ _ _ _ _ helement hindex hvalue hi hx =>
    have hnamed : V.Has element.name := by
      rw [helement]
      exact Vocabulary.element (has_assigned hd V.int)
    have hI := hi.isIn (lowersIn hd _ (hspeaks.getElem? hindex))
    have hX := hx.isIn hd (wantsIn_some hnamed) (hspeaks.getElem? hvalue)
    exact (hI.code.append hX.code).concat
      ⟨hname, hI.operand, Tag.isIn_ofTy hnamed, hX.operand⟩
  | @fieldElementAssignment b element _ _ _ _ _ _ hk hb hfield helement hindex hvalue hi hx =>
    have harray := hd.variableOf? hb
    have hnamed : V.Has element.name := by
      rw [helement]
      exact Vocabulary.element harray
    have hI := hi.isIn (lowersIn hd _ (hspeaks.getElem? hindex))
    have hX := hx.isIn hd (wantsIn_some hnamed) (hspeaks.getElem? hvalue)
    -- the array is fetched from the object before the index is computed
    have hobject := hspeaks.object_of_assigned (by rw [hk]; decide) hb hfield
    have hfetch : LinesIn V [.assign (.temporary c.temporaries) (Tag.ofTy b.ty)
        (.fieldRead t.name (Tag.ofTy b.ty))] :=
      LinesIn.nil.cons
        ⟨trivial, Tag.isIn_ofTy harray, hobject, hname, Tag.isIn_ofTy harray⟩
    exact ((hfetch.append hI.code).append hX.code).concat
      ⟨trivial, hI.operand, Tag.isIn_ofTy hnamed, hX.operand⟩
  | callStmt _ he _ hcall =>
    -- the call is not lowered as a value, so its parts are asked for
    have hE := hspeaks.getElem? he
    obtain ⟨hcode, hinvocation⟩ := hcall.isIn hd hE wantsIn_none
      fun u hu => lowersIn hd u (hE.child hu)
    exact hcode.concat hinvocation
  | expressionStmt _ he _ hx => exact (hx.isIn hd wantsIn_none (hspeaks.getElem? he)).code
  | returnNothing =>
    have hret : (Line.ret (Tag.ofTy result) none).IsIn V := Tag.isIn_ofTy hresult
    exact LinesIn.nil.cons hret
  | returnValue _ hvalue hx =>
    have hX := hx.isIn hd (wantsIn_some hresult) (hspeaks.getElem? hvalue)
    exact hX.code.concat ⟨Tag.isIn_ofTy hresult, hX.operand⟩
  | @conditional condition thenPart rest _ _ _ _ _ _ _ hcs hx hthen helse =>
    rw [hcs] at hstatement
    have hcondition : condition ∈ t.children := Tree.mem_children_of_eq_cons hcs
    have hX := hx.isIn hd (wantsIn_some V.boolean) (hspeaks.child hcondition)
    refine linesIn_conditionalLines hX (hstatement thenPart (by simp) _ _ _ hthen)
      (helse.linesIn fun u hu => hstatement u ?_)
    exact List.mem_cons_of_mem _ (List.mem_cons_of_mem _ (List.mem_of_mem_take hu))
  | @loop condition body rest _ _ _ _ _ hcs hx hbody =>
    rw [hcs] at hstatement
    have hcondition : condition ∈ t.children := Tree.mem_children_of_eq_cons hcs
    have hX := hx.isIn hd (wantsIn_some V.boolean) (hspeaks.child hcondition)
    exact linesIn_loopLines hX (hstatement body (by simp) _ _ _ hbody)
  | block _ hls => exact hls.linesIn hstatement

end Lowered

/-! ### Methods -/

section Method

variable {d : Declarations} {t : Tree} {c c' : Counters}

theorem linesIn_addedReturn (result : Ty) (body : List Tree) :
    LinesIn V (addedReturn result body) := by
  rw [addedReturn]
  split
  · have hret : (Line.ret .void none).IsIn V := trivial
    exact LinesIn.nil.cons hret
  · exact .nil

/-- **Methods.**  A method is in the vocabulary that its head and its statements are
written in. -/
theorem isIn_of_lowerMethod (hd : d.AreIn V) (ht : t.IsIn V)
    (hstatements : ∀ u ∈ statements t, Speaks V d (t.get? "name") u) {m : Method}
    (h : (lowerMethod d t).run c = .ok (m, c')) : m.IsIn V := by
  obtain ⟨ls, c₁, hls, h⟩ := run_bind_eq_ok h
  obtain ⟨rfl, rfl⟩ := run_pure_eq_ok h
  have hresult := hd.resultType t.name
  constructor
  · exact ht.name
  · apply variablesIn_map_tagged
    intro v hv
    -- a parameter that is not well formed does not come into the head
    obtain ⟨u, hu, hread⟩ := List.mem_filterMap.mp hv
    have hdeclared : u.declaredVariable = .ok v := by
      rcases e : u.declaredVariable with fault | v'
      · rw [e] at hread
        nomatch hread
      · rw [e] at hread
        rw [Option.some.inj hread]
    exact (ht.child (Tree.mem_childrenOf.mp hu).1).declaredVariable hdeclared
  · exact Tag.isIn_ofTy hresult
  · have hLs := (yieldsBlock_of_run hls).linesIn fun u hu =>
      lowersLinesIn hd hresult u (hstatements u hu)
    exact hLs.append (linesIn_addedReturn _ _)

end Method

end JavaMinus.ThreeAddress
