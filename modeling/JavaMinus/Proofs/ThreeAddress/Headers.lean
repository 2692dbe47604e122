/-
JavaMinus/Proofs/ThreeAddress/Headers.lean

The heads of methods.

A method in three-address code has the name and the parameters that the class
declares for it, and is static if it is declared static (`HasHead`).  Names are
looked up in the order of the declarations, so this says what the head of the
method of a given name is only where no name is declared twice.  Of a program
without findings that is so (`Declarations.nodup_methods`), and a method is declared in it
just as its head says (`exists_method?_of_mem`).
-/
import JavaMinus.Proofs.Arguments
import JavaMinus.Proofs.Scopes
import JavaMinus.Proofs.ThreeAddress.Emitted

namespace JavaMinus

namespace ThreeAddress

/-! ### Heads as they are declared -/

/-- A method has the head that a declaration says. -/
structure HasHead (s : Signature) (m : Method) : Prop where
  name : m.name = s.name
  isStatic : m.isStatic = s.isStatic
  parameters : m.parameters = s.parameters.map tagged
  result : m.result = Tag.ofTy s.returnType

variable {d : Declarations} {root t : Tree} {p : Program} {c c' : Counters}

/-- A method has the head that it is declared with, if this is what is found under
its name. -/
theorem hasHead_of_lowerMethod {m : Method} (h : (lowerMethod d t).run c = .ok (m, c'))
    {s : Signature} (hsignature : t.signature = .ok s) (hfound : d.method? s.name = some s) :
    HasHead s m := by
  obtain ⟨ls, c₁, -, h⟩ := run_bind_eq_ok h
  obtain ⟨rfl, -⟩ := run_pure_eq_ok h
  obtain ⟨-, -, hparameters, -, hstatic⟩ := Tree.signature_ok hsignature
  have hname := Tree.name_of_signature hsignature
  refine ⟨hname, hstatic.symm, ?_, ?_⟩
  · exact congrArg (List.map tagged) (filterMap_toOption_of_mapM hparameters)
  · show Tag.ofTy ((d.returnType? t.name).getD .void) = _
    rw [hname, Declarations.returnType?, hfound]
    rfl

/-- What a program declares, method by method, is what its methods are headed
with. -/
theorem forall₂_heads (hgrammar : root.isGrammatical) (hroot : Declarations.ofTree root = .ok d)
    (hclean : d.analyze (.top root) = .ok .empty) (hp : Program.ofTree d root = .ok p) :
    List.Forall₂ HasHead d.methods p.methods := by
  have hnames := Declarations.nodup_methods hroot hclean
  have hsignatures := Declarations.forall₂_signatures hgrammar hroot
  have hfound : ∀ s ∈ d.methods, d.method? s.name = some s :=
    fun s hs => Declarations.method?_of_mem hnames hs
  have hmethods := forall₂_methods hp
  generalize d.methods = ss at hsignatures hfound
  generalize p.methods = ms at hmethods
  generalize root.methodTrees = ts at hsignatures hmethods
  induction hsignatures generalizing ms with
  | nil =>
    cases hmethods
    exact .nil
  | cons hs _ ih =>
    rcases hmethods with - | ⟨⟨c, c', hm⟩, hrest⟩
    refine .cons (hasHead_of_lowerMethod hm hs (hfound _ (List.mem_cons_self ..))) ?_
    exact ih (fun s hs => hfound s (List.mem_cons_of_mem _ hs)) _ hrest

/-- A method of a program without findings is declared as its head says. -/
theorem exists_method?_of_mem (hgrammar : root.isGrammatical)
    (hroot : Declarations.ofTree root = .ok d) (hclean : d.analyze (.top root) = .ok .empty)
    (hp : Program.ofTree d root = .ok p) {m : Method} (hm : m ∈ p.methods) :
    ∃ s, d.method? m.name = some s ∧ HasHead s m := by
  obtain ⟨s, hs, hhead⟩ :=
    exists_of_forall₂ (forall₂_heads hgrammar hroot hclean hp).flip hm
  refine ⟨s, ?_, hhead⟩
  rw [hhead.name]
  exact Declarations.method?_of_mem (Declarations.nodup_methods hroot hclean) hs

/-- A method that a program without findings declares is one of its methods. -/
theorem exists_mem_of_hasMethod (hgrammar : root.isGrammatical)
    (hroot : Declarations.ofTree root = .ok d) (hclean : d.analyze (.top root) = .ok .empty)
    (hp : Program.ofTree d root = .ok p) {name : String} (h : d.hasMethod name) :
    ∃ m ∈ p.methods, m.name = name := by
  obtain ⟨s, hs⟩ := Option.isSome_iff_exists.mp h
  obtain ⟨m, hm, hhead⟩ :=
    exists_of_forall₂ (forall₂_heads hgrammar hroot hclean hp) (List.mem_of_find?_eq_some hs)
  refine ⟨m, hm, ?_⟩
  have hname := List.find?_some (show d.methods.find? (·.name == name) = some s from hs)
  rw [hhead.name, eq_of_beq hname]

end ThreeAddress

end JavaMinus
