/-
JavaMinus/Listing.lean

Values under names, in the order of the names.

Each name has at most one value, and the order in which values were given
does not show: a listing reads the same whichever way it was put together.
When a name is given twice the later value stands (`get?_insert`).
-/

namespace JavaMinus

/-- Values under names, listed in the order of the names. -/
structure Listing (α : Type) where
  entries : List (String × α)
  sorted : entries.Pairwise fun p q => p.1 < q.1
  deriving DecidableEq, Repr

namespace Listing

variable {α : Type}

def empty : Listing α := ⟨[], .nil⟩

instance : Inhabited (Listing α) := ⟨empty⟩

/-- Put a value into a sorted list, in place of one of the same name. -/
def place (key : String) (value : α) : List (String × α) → List (String × α)
  | [] => [(key, value)]
  | (k, v) :: rest =>
    if key = k then (key, value) :: rest
    else if key < k then (key, value) :: (k, v) :: rest
    else (k, v) :: place key value rest

theorem mem_place {key : String} {value : α} {entries : List (String × α)} {p : String × α}
    (h : p ∈ place key value entries) : p = (key, value) ∨ p ∈ entries := by
  induction entries with
  | nil => exact Or.inl (List.mem_singleton.mp h)
  | cons q rest ih => grind [place]

/-- A value is put where the order of the names wants it. -/
theorem sorted_place (key : String) (value : α) {entries : List (String × α)}
    (h : entries.Pairwise fun p q => p.1 < q.1) :
    (place key value entries).Pairwise fun p q => p.1 < q.1 := by
  induction entries with
  | nil => exact List.pairwise_singleton _ _
  | cons q rest ih =>
    obtain ⟨k, v⟩ := q
    obtain ⟨hk, hrest⟩ := List.pairwise_cons.mp h
    rw [place]
    split
    case isTrue heq =>
      subst heq
      exact List.pairwise_cons.mpr ⟨hk, hrest⟩
    case isFalse hne =>
      split
      case isTrue hlt =>
        refine List.pairwise_cons.mpr ⟨?_, h⟩
        intro p hp
        rcases List.mem_cons.mp hp with rfl | hp
        · exact hlt
        · exact String.lt_trans hlt (hk p hp)
      case isFalse hnlt =>
        refine List.pairwise_cons.mpr ⟨?_, ih hrest⟩
        intro p hp
        -- behind the first one stand the new entry and the old ones
        rcases mem_place hp with rfl | hp
        · exact Std.lt_of_le_of_ne (String.not_lt.mp hnlt) (Ne.symm hne)
        · exact hk p hp

def insert (l : Listing α) (key : String) (value : α) : Listing α :=
  ⟨place key value l.entries, sorted_place key value l.sorted⟩

/-- A listing of pairs; of two pairs with one name the later stands. -/
def ofList (pairs : List (String × α)) : Listing α :=
  pairs.foldl (fun l p => l.insert p.1 p.2) empty

def get? (l : Listing α) (key : String) : Option α := l.entries.lookup key

def has (l : Listing α) (key : String) : Bool := (l.get? key).isSome

def keys (l : Listing α) : List String := l.entries.map (·.1)

def size (l : Listing α) : Nat := l.entries.length

theorem lookup_place_self (key : String) (value : α) (entries : List (String × α)) :
    (place key value entries).lookup key = some value := by
  induction entries with
  | nil => exact List.lookup_cons_self
  | cons p rest ih => grind [place]

theorem lookup_place_of_ne {key j : String} (value : α) (entries : List (String × α))
    (h : j ≠ key) : (place key value entries).lookup j = entries.lookup j := by
  induction entries with
  | nil => grind [place]
  | cons p rest ih => grind [place]

/-- An inserted value is the one that is read back, and no other name is
touched. -/
theorem get?_insert (l : Listing α) (key : String) (value : α) (j : String) :
    (l.insert key value).get? j = if j = key then some value else l.get? j := by
  split
  case isTrue h => rw [h]; exact lookup_place_self key value l.entries
  case isFalse h => exact lookup_place_of_ne value l.entries h

/-! ### One value for each name -/

theorem keys_nodup (l : Listing α) : l.keys.Nodup := by
  rw [keys, List.Nodup, List.pairwise_map]
  exact l.sorted.imp fun h => Std.ne_of_lt h

/-- What is listed under a name is what is read for it. -/
theorem get?_eq_some_iff (l : Listing α) {key : String} {value : α} :
    l.get? key = some value ↔ (key, value) ∈ l.entries := by
  have hnodup := l.keys_nodup
  rw [keys] at hnodup
  rw [get?]
  generalize l.entries = entries at hnodup ⊢
  induction entries with
  | nil => simp
  | cons p rest ih =>
    obtain ⟨k, v⟩ := p
    obtain ⟨hk, hrest⟩ := List.nodup_cons.mp hnodup
    rw [List.lookup_cons, List.mem_cons]
    by_cases hkey : key = k
    · subst hkey
      simp only [beq_self_eq_true, Option.some.injEq, Prod.mk.injEq, true_and]
      constructor
      · rintro rfl
        exact Or.inl rfl
      · rintro (rfl | hmem)
        · rfl
        -- the name would stand twice
        · exact absurd (List.mem_map_of_mem (f := Prod.fst) hmem) hk
    · rw [beq_false_of_ne hkey]
      simp only [Prod.mk.injEq, hkey, false_and, false_or]
      exact ih hrest

end Listing

end JavaMinus
