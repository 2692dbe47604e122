/-
JavaMinus/Proofs/ThreeAddress/Consistency.lean

Consistent three-address code.

Every operand is written with a tag, except the name of a class.  Code is
consistent if the tags agree: what is put somewhere or returned has the tag of
the place that it goes to, every operation has operands of the tags that it
works on, and only what was declared or set as an array is used as one.

Two classes of which the program does not show how they are related are taken
for each other, as the checks take them (`Declarations.areAlike`).
-/
import JavaMinus.Proofs.WellTyped
import JavaMinus.ThreeAddress.Program

namespace JavaMinus

/-- Whether objects of one class may go where the other is declared, without
the program showing that they may. -/
def Declarations.areAlike (d : Declarations) (a b : String) : Bool :=
  (d.isImported a && d.isImported b) || (d.isOwnOrSuper a && d.isOwnOrSuper b)

namespace ThreeAddress

variable (d : Declarations) (m : Method)

namespace Tag

def isArray : Tag → Bool
  | array _ => true
  | _ => false

def isObject : Tag → Bool
  | object _ => true
  | _ => false

/-- Whether two tags are those of classes that are alike, or of arrays of
such. -/
def areAlike : Tag → Tag → Bool
  | object a, object b | array (object a), array (object b) => d.areAlike a b
  | _, _ => false

/-- Whether what has one tag may go where the other is written. -/
def fits (source destination : Tag) : Bool :=
  source == destination || source.areAlike d destination

end Tag

/-! ### Operands -/

/-- Whether a line sets the temporary of a number to an array. -/
def Line.setsArray (number : Nat) : Line → Bool
  | assign (.temporary n) tag _ => n == number && tag.isArray
  | _ => false

/-- Whether a cell holds an array: a variable that is declared as one, or a
temporary that the method sets to one. -/
def Cell.holdsArray : Cell → Bool
  | temporary number => m.body.any (·.setsArray number)
  | named name => (d.methodVariable? m.name name).any (·.ty.isArray)

namespace Operand

/-- The tag that an operand is written with. -/
def tag? : Operand → Option Tag
  | cell _ tag => some tag
  | number _ => some .i32
  | truth _ => some .bool
  | self className => some (.object className)
  | classRef _ => none

def carries (x : Operand) (tag : Tag) : Bool := x.tag? == some tag

def fits (x : Operand) (tag : Tag) : Bool := x.tag?.any (·.fits d tag)

def isObject (x : Operand) : Bool := x.tag?.any (·.isObject)

/-- Whether an operand is the name of an array. -/
def isArray : Operand → Bool
  | cell c tag => tag.isArray && c.holdsArray d m
  | _ => false

end Operand

/-! ### Lines -/

/-- Whether a call is made on a class, on the object that the calling method
works on, or on an operand that is an object. -/
def Receiver.isConsistent : Receiver → Bool
  | classRef _ | self => true
  | object x => x.isObject

/-- Whether a source computes something of the given tag from operands of the
tags that it works on. -/
def Source.isConsistent (tag : Tag) : Source → Bool
  | operand x => x.fits d tag
  | arithmetic _ x y => tag == .i32 && x.carries .i32 && y.carries .i32
  | logical op x y =>
    let wanted := if op.isConnective then .bool else .i32
    tag == .bool && x.carries wanted && y.carries wanted
  | fieldRead _ t => tag == t
  | call c => tag == c.result && c.receiver.isConsistent
  | newArray size t => tag == t && t.isArray && size.carries .i32
  | newObject className => tag == .object className
  | length x => tag == .i32 && x.isArray d m
  | element x i t => tag == t && x.isArray d m && i.carries .i32

/-- Whether the tags in a line of a method agree. -/
def Line.isConsistent : Line → Bool
  | label _ | jump _ => true
  | assign _ tag source => tag != .void && source.isConsistent d m tag
  | store array i tag x =>
    tag != .void && array.holdsArray d m && i.carries .i32 && x.fits d tag
  | fieldWrite _ tag x => tag != .void && x.fits d tag
  | call c => c.receiver.isConsistent
  | construct x => x.isObject
  | branch x _ => x.carries .bool
  | ret tag none => tag == .void && m.result == .void
  | ret tag (some x) => tag != .void && tag == m.result && x.fits d tag

def Method.isConsistent : Bool := m.body.all (·.isConsistent d m)

/-- Whether the tags in a program agree. -/
def Program.isConsistent (p : Program) : Bool :=
  p.classes.all (·.methods.all (·.isConsistent d))

/-! ### Compatible types have fitting tags -/

variable {d}

theorem Tag.fits_refl (tag : Tag) : tag.fits d tag := by
  rw [fits, beq_self_eq_true, Bool.true_or]

/-- The tag of the name of a class. -/
theorem ofName_of_not_reserved {name : String} (h : name ∉ Ty.reserved) :
    Tag.ofName name = .object name := by
  simp only [Ty.reserved, List.mem_cons, List.not_mem_nil, or_false, not_or] at h
  obtain ⟨hint, hboolean, hvoid⟩ := h
  rw [Tag.ofName, if_neg (by simpa using hint), if_neg (by simpa using hboolean),
    if_neg (by simpa using hvoid)]

theorem fits_of_carries {x : Operand} {tag : Tag} (h : x.carries tag) : x.fits d tag := by
  rw [Operand.fits, eq_of_beq h]
  exact Tag.fits_refl tag

theorem not_reserved_of_isImported (hd : d.ClearNames) {name : String}
    (h : d.isImported name) : name ∉ Ty.reserved := by
  intro hreserved
  rw [(hd.notReserved name hreserved).1] at h
  cases h

theorem not_reserved_of_isOwnOrSuper (hd : d.ClearNames) {name : String}
    (h : d.isOwnOrSuper name) : name ∉ Ty.reserved := by
  intro hreserved
  rw [(hd.notReserved name hreserved).2] at h
  cases h

theorem not_reserved_of_class? (hd : d.ClearNames) {x : String} {b : Binding}
    (h : d.class? x = some b) : x ∉ Ty.reserved := by
  obtain ⟨-, ⟨-, himported⟩ | ⟨-, -, hown⟩⟩ := Declarations.class?_eq_some h
  · exact not_reserved_of_isImported hd himported
  · exact not_reserved_of_isOwnOrSuper hd hown

theorem ofTy_eq_void {ty : Ty} (h : Tag.ofTy ty = .void) : ty = .void := by
  cases ty with
  | scalar name =>
    rw [Tag.ofTy, Tag.ofName] at h
    split at h
    · cases h
    · split at h
      · cases h
      · split at h
        · next hname => rw [eq_of_beq hname, Ty.void]
        · cases h
  | array name => cases h
  | varargs name => cases h

theorem isArray_ofTy (ty : Ty) : (Tag.ofTy ty).isArray = ty.isArray := by
  cases ty with
  | scalar name =>
    rw [Tag.ofTy, Tag.ofName]
    split
    · rfl
    · split
      · rfl
      · split <;> rfl
  | array name => rfl
  | varargs name => rfl

/-- Types of one shape have one tag. -/
theorem ofTy_of_sameShape {s t : Ty} (h : s.sameShape t) : Tag.ofTy s = Tag.ofTy t := by
  obtain ⟨hname, hisArray⟩ := Bool.and_eq_true_iff.mp h
  have hname := eq_of_beq hname
  have hisArray := eq_of_beq hisArray
  cases s <;> cases t <;> simp_all [Ty.name, Ty.isArray, Tag.ofTy]

/-- Classes that are alike have fitting tags, and so have arrays of them. -/
theorem fits_of_areAlike {s t : Ty} (hisArray : s.isArray = t.isArray)
    (hs : s.name ∉ Ty.reserved) (ht : t.name ∉ Ty.reserved) (h : d.areAlike s.name t.name) :
    (Tag.ofTy s).fits d (Tag.ofTy t) := by
  have hsource := ofName_of_not_reserved hs
  have hdestination := ofName_of_not_reserved ht
  rw [Tag.fits, Bool.or_eq_true]
  right
  cases s <;> cases t <;> simp_all [Ty.name, Ty.isArray, Tag.ofTy, Tag.areAlike]

/-- Where a value may go by its type it may go by its tag. -/
theorem fits_of_compatible (hd : d.ClearNames) {s t : Ty} (h : d.compatible s t) :
    (Tag.ofTy s).fits d (Tag.ofTy t) := by
  rw [Declarations.compatible, Bool.or_eq_true, Bool.and_eq_true, Bool.or_eq_true] at h
  rcases h with hshape | ⟨hisArray, himported | hown⟩
  · rw [ofTy_of_sameShape hshape]
    exact Tag.fits_refl _
  · obtain ⟨hs, ht⟩ := Bool.and_eq_true_iff.mp himported
    refine fits_of_areAlike (eq_of_beq hisArray) (not_reserved_of_isImported hd hs)
      (not_reserved_of_isImported hd ht) ?_
    rw [Declarations.areAlike, himported, Bool.true_or]
  · obtain ⟨hown, ht⟩ := Bool.and_eq_true_iff.mp hown
    obtain ⟨-, hs⟩ := Bool.and_eq_true_iff.mp hown
    refine fits_of_areAlike (eq_of_beq hisArray) (not_reserved_of_isOwnOrSuper hd hs)
      (not_reserved_of_isOwnOrSuper hd ht) ?_
    rw [Declarations.areAlike, hs, ht, Bool.true_and, Bool.or_true]

end ThreeAddress

end JavaMinus
