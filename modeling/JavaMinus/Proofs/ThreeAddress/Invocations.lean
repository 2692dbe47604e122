/-
JavaMinus/Proofs/ThreeAddress/Invocations.lean

Calls of the class's own methods that are static, and those that are not.

A method is declared static or not, and a call of it should be of the same kind.  The kind
of a call is told by what it is made on, though: a call on the name of a class is static,
and every other call is made on an object, be that the object of the method itself, a
variable, a new object or the result of another call (`MadeOn`).  The declaration is not
asked, and the checks let a method be called on either.  So a call is of the kind of the
method just if static methods are called on the class and all others on an object
(`invocations_follow_receivers`), and not every call is (`tool_mistakes_static`).
-/
import JavaMinus.Proofs.ThreeAddress.Signatures

namespace JavaMinus.ThreeAddress

/-! ### Kinds of invocations -/

def Receiver.isClass : Receiver → Bool
  | classRef _ => true
  | self | object _ => false

/-- Whether a call works on no object. -/
def Invocation.isStatic (i : Invocation) : Bool := i.receiver.isClass

/-- What the text of an invocation begins with. -/
def Invocation.opening (i : Invocation) : String :=
  if i.isStatic then "invokestatic(" else "invokevirtual("

theorem Invocation.exists_text_eq (i : Invocation) : ∃ rest, i.text = i.opening ++ rest := by
  obtain ⟨receiver, method, arguments, result⟩ := i
  have hthis : "invokevirtual(this" = "invokevirtual(" ++ "this" := rfl
  cases receiver <;>
    simp only [text, opening, isStatic, Receiver.isClass, hthis, toString, String.append_assoc] <;>
    exact ⟨_, rfl⟩

/-! ### Receivers -/

variable {d : Declarations} {scope : Option String} {t : Tree} {c c' : Counters}

theorem lowerReceiver_of_self {part : Part} (hk : part.tree.kind = .self) :
    lowerReceiver d scope part = pure ([], .self) := by
  simp only [lowerReceiver, hk]

theorem lowerReceiver_of_namesClass {part : Part} (h : d.namesClass scope part.tree) :
    lowerReceiver d scope part = pure ([], .classRef part.tree.name) := by
  obtain ⟨hk, hbinding⟩ := Bool.and_eq_true_iff.mp h
  obtain ⟨b, hb, hclass⟩ := (Option.any_eq_true _ _).mp hbinding
  simp only [lowerReceiver, eq_of_beq hk, hb]
  rw [if_neg (by simpa using hclass)]

theorem lowerReceiver_of_value {part : Part} (hself : part.tree.kind ≠ .self)
    (hvalue : d.namesClass scope part.tree = false) :
    lowerReceiver d scope part = (do
      let x ← part.lower none
      pure (x.code, .object x.operand)) := by
  rw [lowerReceiver.eq_def]
  split
  case h_1 hk => exact absurd hk hself
  case h_2 hk =>
    split
    case h_2 => rfl
    case h_1 b hb =>
      -- what the name denotes is no class, or it would name one
      rw [Declarations.namesClass, hk, hb] at hvalue
      exact if_pos (by simpa using hvalue)
  case h_3 => rfl

/-- What a call is made on, by the expression that it is made on: the name of a class, the
object of the method, or the value of any other expression. -/
inductive MadeOn (d : Declarations) (scope : Option String) (t : Tree) : Receiver → Prop
  | classRef : d.namesClass scope t → MadeOn d scope t (.classRef t.name)
  | self : t.kind = .self → MadeOn d scope t .self
  | object {x c c'} : t.kind ≠ .self → d.namesClass scope t = false →
      (lower d scope t none).run c = .ok (x, c') → MadeOn d scope t (.object x.operand)

theorem madeOn_of_run {code : List Line} {target : Receiver}
    (h : (lowerReceiver d scope ⟨t, lower d scope t⟩).run c = .ok ((code, target), c')) :
    MadeOn d scope t target := by
  by_cases hself : t.kind = .self
  · rw [lowerReceiver_of_self hself] at h
    obtain ⟨-, rfl, -⟩ := run_pure_pair_eq_ok h
    exact .self hself
  rcases hvalue : d.namesClass scope t with - | -
  · rw [lowerReceiver_of_value hself hvalue] at h
    obtain ⟨x, c₁, hx, h⟩ := run_bind_eq_ok h
    obtain ⟨-, rfl, -⟩ := run_pure_pair_eq_ok h
    exact .object hself hvalue hx
  · rw [lowerReceiver_of_namesClass hvalue] at h
    obtain ⟨-, rfl, -⟩ := run_pure_pair_eq_ok h
    exact .classRef hvalue

theorem MadeOn.isClass_eq {target : Receiver} (h : MadeOn d scope t target) :
    target.isClass = d.namesClass scope t := by
  cases h with
  | classRef hclass => exact hclass.symm
  | self hk =>
    rw [Declarations.namesClass, hk]
    rfl
  | object _ hvalue => exact hvalue.symm

theorem MadeOn.eq_classRef {target : Receiver} (h : MadeOn d scope t target)
    (hclass : d.namesClass scope t) : target = .classRef t.name := by
  have hisClass := h.isClass_eq.trans hclass
  cases h with
  | classRef => rfl
  | self | object => nomatch hisClass

/-- A call is made on what its first part says. -/
theorem madeOn_of_lowerCall {r : Tree} {rest : List Tree} (hcs : t.children = r :: rest)
    {wanted : Option Ty} {call : Call}
    (h : (lowerCall d scope t (partsOfEach d scope t.children) wanted).run c = .ok (call, c')) :
    MadeOn d scope r call.invocation.receiver := by
  obtain ⟨part, hpart, h⟩ := run_lift_bind_eq_ok h
  obtain ⟨receiver, hreceiver, rfl⟩ := partGet_eq_ok hpart
  obtain ⟨declared, -, h⟩ := run_lift_bind_eq_ok h
  obtain ⟨⟨code, target⟩, c₃, htarget, h⟩ := run_bind_eq_ok h
  obtain ⟨xs, c₄, -, h⟩ := run_bind_eq_ok h
  obtain ⟨rfl, rfl⟩ := run_pure_eq_ok h
  rw [hcs] at hreceiver
  obtain rfl : r = receiver := Option.some.inj hreceiver
  exact madeOn_of_run htarget

/-! ### Programs -/

/-- Every method of a program without findings is static just if it is declared so. -/
theorem isStatic_of_mem {root : Tree} {p : Program} (hgrammar : root.isGrammatical)
    (hroot : Declarations.ofTree root = .ok d) (hclean : d.analyze (.top root) = .ok .empty)
    (hp : Program.ofTree d root = .ok p) {m : Method} (hm : m ∈ p.methods) :
    m.isStatic = d.isStatic m.name := by
  obtain ⟨s, hs, hhead⟩ := exists_method?_of_mem hgrammar hroot hclean hp hm
  rw [hhead.isStatic, Declarations.isStatic, hs, Option.any_some]

/-- **Kinds of calls.**  In a program without findings a call of one of the class's own
methods stands in the method that it belongs to, and the method that it calls is emitted as
it is declared.  Wherever the call is lowered it is made on what its first part says:
it is static just if that is the name of the class, and otherwise it is made on an
object, and its text begins with the word for it.  So it is of the kind of the method just
if a static method is called on the class and one that is not static on an object. -/
theorem invocations_follow_receivers {root : Tree} (hgrammar : root.isGrammatical)
    (hroot : Declarations.ofTree root = .ok d) (hclean : d.analyze (.top root) = .ok .empty) :
    ∃ p, Program.ofTree d root = .ok p ∧
      ∀ q ∈ (Place.top root).preorder, q.IsOwnCall d →
        (∃ m ∈ p.methods, q.method? = some m.name ∧ HasCallIn d q.method? m.body q.tree) ∧
        (∃ callee ∈ p.methods, callee.name = q.tree.name) ∧
        ∀ callee ∈ p.methods, callee.name = q.tree.name →
          callee.isStatic = d.isStatic q.tree.name ∧
          ∀ r ∈ q.tree.children.head?, ∀ wanted c call c',
            (lowerCall d q.method? q.tree (partsOfEach d q.method? q.tree.children) wanted).run c =
                .ok (call, c') →
              MadeOn d q.method? r call.invocation.receiver ∧
              (d.namesClass q.method? r → call.invocation.receiver = .classRef d.className) ∧
              call.invocation.isStatic = d.namesClass q.method? r ∧
              (∃ rest, call.invocation.text =
                (if d.namesClass q.method? r then "invokestatic(" else "invokevirtual(") ++ rest) ∧
              (call.invocation.isStatic = callee.isStatic ↔
                (d.namesClass q.method? r ↔ d.isStatic q.tree.name)) := by
  obtain ⟨p, hp⟩ := exists_ofTree_of_clean hgrammar hclean
  refine ⟨p, hp, ?_⟩
  intro q hq hcall
  refine ⟨exists_hasCallIn hgrammar hp hq hcall,
    exists_mem_of_hasMethod hgrammar hroot hclean hp hcall.declared, ?_⟩
  intro callee hcallee hname
  have hstatic : callee.isStatic = d.isStatic q.tree.name := by
    rw [← hname]
    exact isStatic_of_mem hgrammar hroot hclean hp hcallee
  refine ⟨hstatic, ?_⟩
  intro r hr wanted c call c' hrun
  obtain ⟨receiver, rest, hcs, htype⟩ := hcall.receiver
  obtain rfl : receiver = r := by
    rw [hcs] at hr
    exact Option.some.inj hr
  have hmade := madeOn_of_lowerCall hcs hrun
  have hkind : call.invocation.isStatic = d.namesClass q.method? receiver := hmade.isClass_eq
  refine ⟨hmade, ?_, hkind, ?_, ?_⟩
  · intro hclass
    rw [typeOf_of_namesClass hclass] at htype
    injection htype with htype
    injection htype with htype
    injection htype with hclassName
    rw [hmade.eq_classRef hclass, hclassName]
  · rw [← hkind]
    exact call.invocation.exists_text_eq
  · rw [hkind, hstatic]
    exact Bool.eq_iff_iff

/-! ### Calls on either

    class Tool {
      static int size() { return 1; }
      int one() { return Tool.size(); }
      int two() { return this.size(); }
      int three() { return Tool.one(); }
      int four() { return this.one(); }
    }
-/

def onClass (name : String) : Tree := (Form.call name (Form.identifier "Tool").tree []).tree

def onObject (name : String) : Tree := (Form.call name Form.self.tree []).tree

def tool : Tree :=
  let method (name : String) (isStatic : Bool) (value : Tree) : Tree :=
    (Form.methodDecl name (Form.typeName "int" false false).tree isStatic
      [(Form.returnStmt (some value)).tree]).tree
  (Form.program [(Form.classDecl "Tool" none
    [method "size" true (Form.integer 1).tree, method "one" false (onClass "size"),
      method "two" false (onObject "size"), method "three" false (onClass "one"),
      method "four" false (onObject "one")]).tree]).tree

def toolDeclarations : Declarations :=
  ⟨"Tool", none, [], [],
    [⟨"size", .int, [], [], true⟩, ⟨"one", .int, [], [], false⟩, ⟨"two", .int, [], [], false⟩,
      ⟨"three", .int, [], [], false⟩, ⟨"four", .int, [], [], false⟩]⟩

/-- The calls of `tool`, with the methods that they stand in. -/
def toolCalls : List (Tree × Option String) :=
  [(onClass "size", some "one"), (onObject "size", some "two"), (onClass "one", some "three"),
    (onObject "one", some "four")]

theorem exists_place_of_toolCalls {t : Tree} {scope : Option String} (ht : (t, scope) ∈ toolCalls) :
    ∃ q ∈ (Place.top tool).preorder, q.tree = t ∧ q.method? = scope ∧
      q.IsOwnCall toolDeclarations := by
  refine Place.exists_isOwnCall toolCalls rfl (by decide) ?_ ht
  simp only [toolCalls, List.forall_mem_cons]
  exact ⟨⟨_, _, rfl, rfl⟩, ⟨_, _, rfl, rfl⟩, ⟨_, _, rfl, rfl⟩, ⟨_, _, rfl, rfl⟩,
    List.forall_mem_nil _⟩

/-- The static method is called as one on the class, and as one that is not static on the
object. -/
theorem tool_follows_receivers : ∃ p, Program.ofTree toolDeclarations tool = .ok p ∧
    ∃ callee ∈ p.methods, callee.name = "size" ∧ callee.isStatic ∧
      (∃ call c', (lowerCall toolDeclarations (some "one") (onClass "size")
          (partsOfEach toolDeclarations (some "one") (onClass "size").children) none).run ⟨0, 0⟩ =
            .ok (call, c') ∧
        call.invocation.receiver = .classRef "Tool" ∧
        call.invocation.isStatic = callee.isStatic) ∧
      ∃ call c', (lowerCall toolDeclarations (some "two") (onObject "size")
          (partsOfEach toolDeclarations (some "two") (onObject "size").children) none).run ⟨0, 0⟩ =
            .ok (call, c') ∧
        call.invocation.isStatic ≠ callee.isStatic := by
  have hgrammar : tool.isGrammatical := by decide
  obtain ⟨p, hp, hcalls⟩ :=
    invocations_follow_receivers (d := toolDeclarations) hgrammar rfl rfl
  obtain ⟨q, hq, htree, hmethod, hown⟩ :=
    exists_place_of_toolCalls (show (onClass "size", some "one") ∈ toolCalls from .head _)
  obtain ⟨q', hq', htree', hmethod', hown'⟩ :=
    exists_place_of_toolCalls (show (onObject "size", some "two") ∈ toolCalls from
      .tail _ (.head _))
  obtain ⟨-, hcallee, hkinds⟩ := hcalls q hq hown
  obtain ⟨-, -, hkinds'⟩ := hcalls q' hq' hown'
  rw [htree, hmethod] at hkinds
  rw [htree', hmethod'] at hkinds'
  rw [htree] at hcallee
  obtain ⟨callee, hcallee, hname⟩ := hcallee
  obtain ⟨hstatic, hkind⟩ := hkinds callee hcallee hname
  obtain ⟨-, hkind'⟩ := hkinds' callee hcallee hname
  refine ⟨p, hp, callee, hcallee, hname, hstatic, ?_, ?_⟩
  · obtain ⟨call, c', hrun⟩ : ∃ call c', (lowerCall toolDeclarations (some "one") (onClass "size")
        (partsOfEach toolDeclarations (some "one") (onClass "size").children) none).run ⟨0, 0⟩ =
          .ok (call, c') := ⟨_, _, rfl⟩
    obtain ⟨-, hclass, -, -, hmatches⟩ := hkind _ rfl none ⟨0, 0⟩ call c' hrun
    exact ⟨call, c', hrun, hclass rfl, hmatches.mpr (iff_of_true rfl rfl)⟩
  · obtain ⟨call, c', hrun⟩ : ∃ call c', (lowerCall toolDeclarations (some "two") (onObject "size")
        (partsOfEach toolDeclarations (some "two") (onObject "size").children) none).run ⟨0, 0⟩ =
          .ok (call, c') := ⟨_, _, rfl⟩
    obtain ⟨-, -, -, -, hmatches⟩ := hkind' _ rfl none ⟨0, 0⟩ call c' hrun
    refine ⟨call, c', hrun, fun hmatch => ?_⟩
    nomatch (hmatches.mp hmatch).mpr rfl

/-- Not every call of a program without findings is of the kind of the method: a static
method is called on the object. -/
theorem tool_mistakes_static :
    ¬ ∀ (root : Tree) (d : Declarations) (p : Program), root.isGrammatical →
      Declarations.ofTree root = .ok d → d.analyze (.top root) = .ok .empty →
      Program.ofTree d root = .ok p →
      ∀ q ∈ (Place.top root).preorder, q.IsOwnCall d →
      ∀ callee ∈ p.methods, callee.name = q.tree.name → ∀ wanted c call c',
        (lowerCall d q.method? q.tree (partsOfEach d q.method? q.tree.children) wanted).run c =
            .ok (call, c') →
          call.invocation.isStatic = callee.isStatic := by
  intro h
  obtain ⟨q, hq, htree, hmethod, hown⟩ :=
    exists_place_of_toolCalls (show (onObject "size", some "two") ∈ toolCalls from
      .tail _ (.head _))
  obtain ⟨p, hp⟩ : ∃ p, Program.ofTree toolDeclarations tool = .ok p := ⟨_, rfl⟩
  have hgrammar : tool.isGrammatical := by decide
  have hkinds := h tool toolDeclarations p hgrammar rfl rfl hp q hq hown
  rw [htree, hmethod] at hkinds
  obtain rfl : _ = p := Except.ok.inj hp
  nomatch hkinds _ (List.mem_cons_self ..) rfl none ⟨0, 0⟩ _ _ rfl

end JavaMinus.ThreeAddress
