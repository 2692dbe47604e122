/-
JavaMinus/Proofs/Declarations.lean

Facts about what a program declares.

The declarations of a program are read by functions that may stop at a
malformed node; if they do not stop, every part was read.  The names of
methods are looked up in order, so a method is found under its name if no two
methods share one (`method?_of_mem`).
-/
import JavaMinus.Declarations
import JavaMinus.Proofs.Computation

namespace JavaMinus

/-! ### Names that are looked up -/

/-- In a list in which no key stands twice, each entry is found by its key. -/
theorem find?_of_nodup {α : Type} {key : α → String} {xs : List α} (h : (xs.map key).Nodup)
    {x : α} (hx : x ∈ xs) : xs.find? (key · == key x) = some x := by
  obtain ⟨before, after, rfl⟩ := List.append_of_mem hx
  have hbefore : before.find? (key · == key x) = none := by
    rw [List.find?_eq_none]
    intro y hy heq
    rw [List.map_append, List.map_cons] at h
    have hne := (List.nodup_append.mp h).2.2 (key y) (List.mem_map_of_mem hy) (key x)
      (List.mem_cons_self ..)
    exact hne (eq_of_beq heq)
  rw [List.find?_append, hbefore, Option.none_or]
  exact List.find?_cons_of_pos (beq_self_eq_true _)

/-- In a list of variables of different names, each is found under its own. -/
theorem Variable.find?_of_mem {vs : List Variable} (h : (vs.map (·.name)).Nodup) {v : Variable}
    (hv : v ∈ vs) : find? vs v.name = some v :=
  find?_of_nodup h hv

/-! ### What nodes declare -/

theorem Tree.get?_of_require {t : Tree} {key value : String} (h : t.require key = .ok value) :
    t.get? key = some value := by
  rw [Tree.require] at h
  split at h
  · next e =>
    injection h with h
    rw [e, h]
  · nomatch h

namespace Tree

variable {t : Tree} {s : Signature}

/-- The parts of a signature. -/
theorem signature_ok (h : t.signature = .ok s) :
    t.require "name" = .ok s.name ∧ t.declaredReturnType = .ok s.returnType ∧
      (t.childrenOf .parameter).mapM declaredVariable = .ok s.parameters ∧
      (t.childrenOf .variableDecl).mapM declaredVariable = .ok s.locals ∧
      s.isStatic = t.flag "isStatic" := by
  obtain ⟨name, hname, h⟩ := bind_eq_ok h
  obtain ⟨returnType, hreturn, h⟩ := bind_eq_ok h
  obtain ⟨parameters, hparameters, h⟩ := bind_eq_ok h
  obtain ⟨locals, hlocals, h⟩ := bind_eq_ok h
  injection h with h
  subst h
  exact ⟨hname, hreturn, hparameters, hlocals, rfl⟩

theorem get?_name_of_signature (h : t.signature = .ok s) : t.get? "name" = some s.name :=
  get?_of_require (signature_ok h).1

theorem name_of_signature (h : t.signature = .ok s) : t.name = s.name := by
  rw [name, get?_name_of_signature h, Option.getD_some]

theorem get?_name_of_declaredVariable {v : Variable} (h : t.declaredVariable = .ok v) :
    t.get? "name" = some v.name := by
  rw [declaredVariable] at h
  split at h
  · nomatch h
  · obtain ⟨ty, -, h⟩ := bind_eq_ok h
    obtain ⟨name, hname, h⟩ := bind_eq_ok h
    injection h with h
    subst h
    exact get?_of_require hname

theorem name_of_declaredVariable {v : Variable} (h : t.declaredVariable = .ok v) :
    t.name = v.name := by
  rw [name, get?_name_of_declaredVariable h, Option.getD_some]

theorem eq_intVarargs_of_declaredVariable {v : Variable} (h : t.declaredVariable = .ok v)
    (hopen : v.ty.isVarargs) : v.ty = .intVarargs := by
  rw [declaredVariable] at h
  split at h
  · cases h
  · obtain ⟨ty, hty, h⟩ := bind_eq_ok h
    obtain ⟨name, -, h⟩ := bind_eq_ok h
    injection h with h
    subst h
    obtain ⟨typeName, -, hty⟩ := bind_eq_ok hty
    injection hty with hty
    subst hty
    simp only [Ty.denoted] at hopen ⊢
    split at hopen
    · next hvarargs => rw [if_pos hvarargs]
    · split at hopen <;> cases hopen

end Tree

theorem Parameters.mem_of_mem_fixed {parameters : List Variable} {v : Variable}
    (hv : v ∈ fixed parameters) : v ∈ parameters := by
  rw [fixed] at hv
  split at hv
  · exact (List.dropLast_sublist parameters).subset hv
  · exact hv

namespace Declarations

variable {d : Declarations} {root cls : Tree}

/-- The parts of what a program declares.  Its class is the last child of the root. -/
theorem ofTree_ok (hd : ofTree root = .ok d) (hcls : root.children.getLast? = some cls) :
    cls.kind = .classDecl ∧
      (root.childrenOf .importDecl).mapM (·.require "value") = .ok d.imports ∧
      (cls.childrenOf .variableDecl).mapM (·.declaredVariable) = .ok d.fields ∧
      (cls.childrenOf .methodDecl).mapM (·.signature) = .ok d.methods ∧
      cls.require "name" = .ok d.className ∧ cls.get? "superName" = d.superName := by
  rw [ofTree, hcls] at hd
  simp only at hd
  split at hd
  · nomatch hd
  · next hkind =>
    obtain ⟨imports, himports, hd⟩ := bind_eq_ok hd
    obtain ⟨fields, hfields, hd⟩ := bind_eq_ok hd
    obtain ⟨methods, hmethods, hd⟩ := bind_eq_ok hd
    obtain ⟨className, hname, hd⟩ := bind_eq_ok hd
    injection hd with hd
    subst hd
    exact ⟨not_not.mp hkind, himports, hfields, hmethods, hname, rfl⟩

/-- What the class of a program declares is read from the last child of the
root. -/
theorem read_of_ofTree (hd : ofTree root = .ok d) (hcls : root.children.getLast? = some cls) :
    cls.kind = .classDecl ∧
      (cls.childrenOf .variableDecl).mapM (·.declaredVariable) = .ok d.fields ∧
      (cls.childrenOf .methodDecl).mapM (·.signature) = .ok d.methods := by
  obtain ⟨hkind, -, hfields, hmethods, -⟩ := ofTree_ok hd hcls
  exact ⟨hkind, hfields, hmethods⟩

/-- The methods of a program are those of its last child, a class. -/
theorem methods_of_ofTree (hd : ofTree root = .ok d) (hcls : root.children.getLast? = some cls) :
    cls.kind = .classDecl ∧ (cls.childrenOf .methodDecl).mapM (·.signature) = .ok d.methods :=
  ⟨(read_of_ofTree hd hcls).1, (read_of_ofTree hd hcls).2.2⟩

theorem exists_class_of_ofTree (hd : ofTree root = .ok d) :
    ∃ cls, root.children.getLast? = some cls := by
  rcases e : root.children.getLast? with - | cls
  · rw [ofTree, e] at hd
    nomatch hd
  · exact ⟨cls, rfl⟩

/-- An open tail of arguments holds numbers. -/
theorem eq_intVarargs_of_parameters (hd : ofTree root = .ok d) {method : String} {v : Variable}
    (hv : v ∈ d.parameters method) (hopen : v.ty.isVarargs) : v.ty = .intVarargs := by
  rw [parameters] at hv
  rcases e : d.method? method with - | s
  · rw [e] at hv
    cases hv
  · rw [e] at hv
    have hs : s ∈ d.methods := List.mem_of_find?_eq_some e
    obtain ⟨cls, hcls⟩ := exists_class_of_ofTree hd
    obtain ⟨m, -, hsignature⟩ :=
      exists_of_forall₂ (forall₂_of_mapM_ok (methods_of_ofTree hd hcls).2).flip hs
    obtain ⟨t, -, ht⟩ :=
      exists_of_forall₂ (forall₂_of_mapM_ok (Tree.signature_ok hsignature).2.2.1).flip hv
    exact Tree.eq_intVarargs_of_declaredVariable ht hopen

/-- When no two methods share a name, each is found under its own. -/
theorem method?_of_mem (hnames : (d.methods.map (·.name)).Nodup) {s : Signature}
    (hs : s ∈ d.methods) : d.method? s.name = some s :=
  find?_of_nodup hnames hs

/-- A method of the class is found under its name. -/
theorem method?_of_signature (hd : ofTree root = .ok d)
    (hcls : root.children.getLast? = some cls) (hnames : (d.methods.map (·.name)).Nodup)
    {t : Tree} {s : Signature} (ht : t ∈ cls.childrenOf .methodDecl)
    (hsig : t.signature = .ok s) : d.method? s.name = some s := by
  have hmethods := forall₂_of_mapM_ok (methods_of_ofTree hd hcls).2
  obtain ⟨s', hmem, hs'⟩ := exists_of_forall₂ hmethods ht
  rw [hsig] at hs'
  injection hs' with hs'
  subst hs'
  exact method?_of_mem hnames hmem

end Declarations

end JavaMinus
