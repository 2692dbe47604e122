/-
JavaMinus/Proofs/ThreeAddress/Static.lean

Static methods do not mention the object.

The statements of the static methods of a program without findings are silent, so they
are lowered to code in a vocabulary without the object.  If the names and literals of the
program are clear, that vocabulary can be the one of clear texts, and then the text of
the code is clear (`clear_of_lowerMethod`).  So what a program without findings has for
its static methods does not mention the object, unless a name or a literal of the source
does (`static_methods_are_clear`).
-/
import JavaMinus.Proofs.ThreeAddress.Meaning
import JavaMinus.Proofs.ThreeAddress.Passing
import JavaMinus.Proofs.ThreeAddress.Silent

namespace JavaMinus.ThreeAddress

/-! ### Methods and programs -/

section Program

variable {d : Declarations} {root t : Tree} {m : Method} {c c' : Counters}

variable (hgrammar : root.isGrammatical) (hroot : Declarations.ofTree root = .ok d)
  (hclean : d.analyze (.top root) = .ok .empty) (hclear : root.IsClear)
include hgrammar hroot hclean hclear

/-- What a method that is declared static is lowered to does not mention the
object. -/
theorem clear_of_lowerMethod (ht : t ∈ root.methodTrees) (hstatic : t.flag "isStatic")
    (hrun : (lowerMethod d t).run c = .ok (m, c')) : Clear m.text := by
  have hd := Declarations.areIn_of_isIn hroot hclear.isIn
  obtain ⟨s, hs, hsignature⟩ :=
    exists_of_forall₂ (Declarations.forall₂_signatures hgrammar hroot) ht
  have hname := Tree.get?_name_of_signature hsignature
  -- the checks ask for the first method of the name, and this is it
  have hfound := Declarations.method?_of_mem (Declarations.nodup_methods hroot hclean) hs
  have hscope : d.isStatic s.name := by
    rw [Declarations.isStatic, hfound, Option.any_some, (Tree.signature_ok hsignature).2.2.2.2]
    exact hstatic
  have hmethod : t.IsIn .clear :=
    (hclear.of_mem_preorder (Tree.mem_preorder_of_methodTrees ht t.mem_preorder_self)).isIn
  have hstatements : ∀ u ∈ statements t, Speaks .clear d (t.get? "name") u := by
    intro u hu
    rw [hname]
    exact ⟨hmethod.child (Tree.mem_statements.mp hu).1,
      fun _ => silent_of_isStatic hgrammar hclean ht hname hscope hu⟩
  exact (isIn_of_lowerMethod hd hmethod hstatements hrun).clear

/-- **Static methods.**  In a program without findings none of whose names, types and
literals mentions the object, the text that is emitted for a method that is declared
static does not mention it either.  So none of the lines reads or writes a field, makes
a call on the object or has it for an operand. -/
theorem static_methods_are_clear :
    ∃ p, Program.ofTree d root = .ok p ∧
      (∀ m ∈ p.methods, ∃ before after, p.text = before ++ m.text ++ after) ∧
      List.Forall₂ (fun t m => m.name = t.name ∧ (t.flag "isStatic" →
        Clear m.text ∧ ∀ l ∈ m.body, l.usesObject = false)) root.methodTrees p.methods := by
  obtain ⟨p, hp⟩ := exists_ofTree_of_clean hgrammar hclean
  refine ⟨p, hp, ?_, ?_⟩
  · intro m hm
    obtain ⟨code, hcode, hm⟩ := List.mem_flatMap.mp hm
    exact exists_text_eq hcode hm
  · have hmethods := (List.forall₂_and_left _ _).mpr ⟨fun _ ht => ht, forall₂_methods hp⟩
    refine hmethods.imp ?_
    rintro t m ⟨ht, c, c', hrun⟩
    refine ⟨(lowerMethod_eq_ok hrun).1, ?_⟩
    intro hstatic
    have htext := clear_of_lowerMethod hgrammar hroot hclean hclear ht hstatic hrun
    exact ⟨htext, fun l hl => usesObject_eq_false_of_clear (clear_of_mem_body htext hl)⟩

end Program

/-! ### Static methods beside others

    class Dial {
      int turns;
      int turned() { return turns; }
      boolean moved() { return 0 < this.turned(); }
      static int twice(int n) { int m; m = n + n; return m; }
      static int fourfold(int n) { return Dial.twice(Dial.twice(n)); }
    }
-/

def dial : Tree :=
  let int := (Form.typeName "int" false false).tree
  let name (x : String) := (Form.identifier x).tree
  let turned := (Form.methodDecl "turned" int false
    [(Form.returnStmt (some (name "turns"))).tree]).tree
  let moved := (Form.methodDecl "moved" (Form.typeName "boolean" false false).tree false
    [(Form.returnStmt (some (Form.logical "<" (Form.integer 0).tree
      (Form.call "turned" Form.self.tree []).tree).tree)).tree]).tree
  let twice := (Form.methodDecl "twice" int true
    [(Form.parameter "n" int).tree, (Form.variableDecl "m" int).tree,
      (Form.assignment "m" (Form.arithmetic "+" (name "n") (name "n")).tree).tree,
      (Form.returnStmt (some (name "m"))).tree]).tree
  let fourfold := (Form.methodDecl "fourfold" int true
    [(Form.parameter "n" int).tree,
      (Form.returnStmt (some (Form.call "twice" (name "Dial")
        [(Form.call "twice" (name "Dial") [name "n"]).tree]).tree)).tree]).tree
  (Form.program [(Form.classDecl "Dial" none
    [(Form.variableDecl "turns" int).tree, turned, moved, twice, fourfold]).tree]).tree

def dialDeclarations : Declarations :=
  ⟨"Dial", none, [], [⟨"turns", .int⟩],
    [⟨"turned", .int, [], [], false⟩, ⟨"moved", .boolean, [], [], false⟩,
      ⟨"twice", .int, [⟨"n", .int⟩], [⟨"m", .int⟩], true⟩,
      ⟨"fourfold", .int, [⟨"n", .int⟩], [], true⟩]⟩

theorem isClear_dial : dial.IsClear := by
  have hall : dial.preorder.all fun u =>
      ["name", "value"].all fun key => (u.get? key).all lacksLetter := by decide +kernel
  intro u hu key hkey x hx
  have hnode := List.all_eq_true.mp (List.all_eq_true.mp hall u hu) key hkey
  rw [hx] at hnode
  exact clear_of_lacksLetter hnode

theorem dial_static_methods_are_clear :
    ∃ p, Program.ofTree dialDeclarations dial = .ok p ∧
      ∀ name ∈ ["twice", "fourfold"], ∃ m ∈ p.methods, m.name = name ∧
        Clear m.text ∧ ∀ l ∈ m.body, l.usesObject = false := by
  have hgrammar : dial.isGrammatical := by decide
  obtain ⟨p, hp, -, hmethods⟩ :=
    static_methods_are_clear (d := dialDeclarations) hgrammar rfl rfl isClear_dial
  refine ⟨p, hp, ?_⟩
  intro name hname
  have hdeclared : ∀ name ∈ ["twice", "fourfold"],
      ∃ t ∈ dial.methodTrees, t.name = name ∧ t.flag "isStatic" := by decide +kernel
  obtain ⟨t, ht, rfl, hstatic⟩ := hdeclared name hname
  obtain ⟨m, hm, heq, hclear⟩ := exists_of_forall₂ hmethods ht
  exact ⟨m, hm, heq, hclear hstatic⟩

/-- The other two methods of the class need the object. -/
example : (Program.ofTree dialDeclarations dial).toOption.map
    (fun p => p.methods.map fun m => (m.name, m.body.any (·.usesObject))) =
    some [("turned", true), ("moved", true), ("twice", false), ("fourfold", false)] := by
  decide +kernel

end JavaMinus.ThreeAddress
