/-
JavaMinus/Proofs/Reports.lean

The messages of a report, told apart by how they begin.

The message of a broken rule begins with a fixed text (`Problem.opening`), and no such
text is the beginning of a longer one of another rule that is asked for here.  So the
messages of a report that begin in one way are those of the rules with this opening,
and they are made at the nodes one after another
(`Declarations.startingWith_of_analyze`).
-/
import JavaMinus.Proofs.Findings

namespace JavaMinus

/-! ### How messages begin -/

namespace Problem

/-- The fixed text that the message of a broken rule begins with. -/
def opening : Problem → String
  | undefinedVariable _ => "Variable not defined: "
  | undefinedMethod _ => "Method not defined: "
  | duplicate scope _ => "Duplicated " ++ scope.member ++ ": "
  | fieldRead _ => "Can't use field in static method: "
  | fieldWrite _ => "Can't assign to field in static method: "
  | selfUse => "Can't use this in static method"
  | incompatible .. => "Incompatible types: "
  | different .. => "Different types: "
  | booleanToInt _ => "Can't assign bool to int: "
  | intToBoolean _ => "Can't assign int to bool: "
  | argumentCount .. => "Wrong number of arguments for "
  | notAnArray _ => "Can't do an array expression with non array: "
  | lengthOfNonArray _ => "Can't get the length of a non array: "
  | literalForNonArray _ => "Can't initiate an array when it does not exist: "
  | indexType _ => "Can't do an array expression with non int: "
  | loopWithArray _ => "Can't do a while statement with array: "
  | varargsVariable _ => "Invalid use of varargs: "
  | varargsReturn _ => "Invalid use of varargs: return type of "
  | varargsNotLast _ => "Varargs must be the last parameter: "

theorem exists_message_eq (problem : Problem) :
    ∃ rest, problem.message = problem.opening ++ rest := by
  cases problem <;> delta message opening <;> dsimp only
  case selfUse => exact ⟨"", String.append_empty.symm⟩
  -- what is behind the opening is itself put together of several texts
  case incompatible | different | argumentCount =>
    simp only [String.append_assoc]
    exact ⟨_, rfl⟩
  all_goals exact ⟨_, rfl⟩

/-- A message begins with a text just if its opening does, unless the text goes on
where the opening ends. -/
theorem isPrefixOf_message_of_opening {start : String} {problem : Problem} {answer : Bool}
    (h : start.toList.isPrefixOf problem.opening.toList = answer)
    (hshort : answer = false → problem.opening.toList.isPrefixOf start.toList = false) :
    start.toList.isPrefixOf problem.message.toList = answer := by
  obtain ⟨rest, hmessage⟩ := problem.exists_message_eq
  rw [hmessage, String.toList_append]
  cases answer with
  | true =>
    rw [List.isPrefixOf_iff_prefix] at h ⊢
    exact h.trans (List.prefix_append ..)
  | false =>
    rw [← Bool.not_eq_true, List.isPrefixOf_iff_prefix] at h ⊢
    have hshort := hshort rfl
    rw [← Bool.not_eq_true, List.isPrefixOf_iff_prefix] at hshort
    intro hstart
    rcases List.prefix_or_prefix_of_prefix hstart (List.prefix_append _ rest.toList) with hp | hp
    · exact h hp
    · exact hshort hp

/-- A text and an opening that are written out are compared letter by letter. -/
theorem isPrefixOf_message_of_letters {start opening : List Char} {problem : Problem}
    {answer : Bool} (hopening : problem.opening = String.ofList opening)
    (h : start.isPrefixOf opening = answer)
    (hshort : (answer || !opening.isPrefixOf start) = true) :
    (String.ofList start).toList.isPrefixOf problem.message.toList = answer := by
  apply isPrefixOf_message_of_opening <;> rw [hopening, String.toList_ofList, String.toList_ofList]
  · exact h
  · rintro rfl
    simpa using hshort

/-- What is written about names declared twice is told apart by its first letter. -/
theorem isPrefixOf_message_duplicate_eq_false {letter : Char} {start : List Char}
    (h : (letter == 'D') = false) (scope : DeclarationScope) (name : String) :
    (String.ofList (letter :: start)).toList.isPrefixOf
      (duplicate scope name).message.toList = false := by
  obtain ⟨rest, hmessage⟩ := (duplicate scope name).exists_message_eq
  have hletters : "Duplicated ".toList = ['D', 'u', 'p', 'l', 'i', 'c', 'a', 't', 'e', 'd', ' '] :=
    String.toList_ofList
  rw [hmessage, opening, String.append_assoc, String.append_assoc, String.toList_append, hletters,
    String.toList_ofList, List.cons_append, List.isPrefixOf_cons_cons, h, Bool.false_and]

end Problem

/-! ### Findings of one sort -/

/-- Rules of one sort find nothing of another sort. -/
theorem Place.filter_eq_nil_of_isAbout {p : Place} {fs : List Finding}
    {sort other : Problem → Bool} (h : ∀ f ∈ fs, p.IsAbout sort f)
    (hother : ∀ problem, sort problem → ¬ other problem) :
    fs.filter (other ·.problem) = [] := by
  apply List.filter_eq_nil_iff.mpr
  intro f hf
  obtain ⟨q, -, problem, hproblem, rfl⟩ := h f hf
  exact hother problem hproblem

/-! ### Messages of a report -/

/-- The diagnostics whose message begins with the given text. -/
def Diagnostics.startingWith (ds : Diagnostics) (start : String) : List Diagnostic :=
  ds.toList.filter fun x => start.toList.isPrefixOf x.message.toList

/-- What is made of some elements of a list, and nothing of all others. -/
theorem flatMap_ite_eq_flatMap_filter {α β : Type} (p : α → Bool) (f : α → List β) (xs : List α) :
    (xs.flatMap fun x => if p x then f x else []) = (xs.filter p).flatMap f := by
  induction xs with
  | nil => rfl
  | cons x rest ih =>
    rw [List.flatMap_cons, List.filter_cons, ih]
    split
    · rw [List.flatMap_cons]
    · rfl

/-- In the report of a program the messages of one beginning are those of one sort of
problems.  If only some nodes have such problems, the messages are, in reading order,
what is made of these nodes. -/
theorem Declarations.startingWith_of_analyze {d : Declarations} {root : Place}
    {ds : Diagnostics} (h : d.analyze root = .ok ds) {start : String} {sort : Problem → Bool}
    (hsort : ∀ problem : Problem, start.toList.isPrefixOf problem.message.toList = sort problem)
    {concerned : Place → Bool} {made : Place → List Diagnostic}
    (hmade : ∀ p : Place, ((p.check d).findings.filter (sort ·.problem)).map (·.diagnostic) =
      if concerned p then made p else []) :
    ds.startingWith start = (root.preorder.filter concerned).flatMap made := by
  have hmessage : (fun x : Diagnostic => start.toList.isPrefixOf x.message.toList) ∘
      Finding.diagnostic = fun f => sort f.problem := by
    funext f
    exact hsort f.problem
  rw [Diagnostics.startingWith, toList_of_analyze h, List.filter_map, hmessage,
    List.filter_flatMap, List.map_flatMap, ← flatMap_ite_eq_flatMap_filter]
  exact List.flatMap_congr fun p _ => hmade p

end JavaMinus
