/-
JavaMinus/Proofs/Listing.lean

Listings read as maps.

A listing is what is read from it (`ext_get?`): entries in the order of their
names leave no choice of how to write a map down.  So a listing of pairs with
a name each is the same whichever order the pairs were given in
(`ofList_eq_of_perm`).
-/
import JavaMinus.Listing
import Mathlib.Data.List.Induction
import Mathlib.Data.List.Sort
import Mathlib.Data.String.Basic

namespace JavaMinus.Listing

variable {α : Type} {l l' : Listing α}

theorem mem_keys_iff {key : String} : key ∈ l.keys ↔ l.has key = true := by
  rw [has, Option.isSome_iff_exists, keys, List.mem_map]
  constructor
  · rintro ⟨⟨k, v⟩, hmem, rfl⟩
    exact ⟨v, l.get?_eq_some_iff.mpr hmem⟩
  · rintro ⟨v, hv⟩
    exact ⟨(key, v), l.get?_eq_some_iff.mp hv, rfl⟩

/-! ### A listing is what is read from it -/

theorem ext_get? (h : ∀ key, l.get? key = l'.get? key) : l = l' := by
  have hmem : ∀ p : String × α, p ∈ l.entries ↔ p ∈ l'.entries := by
    rintro ⟨key, value⟩
    rw [← get?_eq_some_iff, ← get?_eq_some_iff, h key]
  have : Std.Irrefl fun p q : String × α => p.1 < q.1 := ⟨fun p => lt_irrefl p.1⟩
  have hentries : l.entries = l'.entries := l.sorted.eq_of_mem_iff l'.sorted hmem
  cases l
  cases l'
  cases hentries
  rfl

theorem ofList_concat (pairs : List (String × α)) (p : String × α) :
    ofList (pairs ++ [p]) = (ofList pairs).insert p.1 p.2 := by
  rw [ofList, List.foldl_append]
  rfl

/-- Of pairs with a name each all are listed, and nothing else is. -/
theorem get?_ofList_eq_some_iff {pairs : List (String × α)} (h : (pairs.map Prod.fst).Nodup)
    {key : String} {value : α} :
    (ofList pairs).get? key = some value ↔ (key, value) ∈ pairs := by
  induction pairs using List.reverseRecOn with
  | nil => exact ⟨nofun, nofun⟩
  | append_singleton pairs p ih =>
    obtain ⟨k, v⟩ := p
    rw [List.map_append, List.nodup_append] at h
    obtain ⟨hpairs, -, hdisjoint⟩ := h
    rw [ofList_concat, get?_insert, List.mem_append, List.mem_singleton, Prod.mk.injEq]
    by_cases hkey : key = k
    · -- no earlier pair has the name of the last
      have hnot : (key, value) ∉ pairs := fun hmem =>
        hdisjoint key (List.mem_map_of_mem hmem) k (List.mem_singleton_self k) hkey
      rw [if_pos hkey, Option.some_inj]
      exact ⟨fun hv => Or.inr ⟨hkey, hv.symm⟩, fun hor => (hor.resolve_left hnot).2.symm⟩
    · rw [if_neg hkey, ih hpairs]
      exact ⟨Or.inl, fun hor => hor.resolve_right fun hand => hkey hand.1⟩

/-- The entries of a listing give the listing back, in whichever order they
are given. -/
theorem ofList_eq_of_perm {pairs : List (String × α)} (h : pairs.Perm l.entries) :
    ofList pairs = l := by
  have hnodup : (pairs.map Prod.fst).Nodup := (h.map Prod.fst).nodup_iff.mpr l.keys_nodup
  apply ext_get?
  intro key
  apply Option.ext
  intro value
  rw [get?_ofList_eq_some_iff hnodup, h.mem_iff, get?_eq_some_iff]

/-! ### How many names there are -/

theorem length_place {key : String} (value : α) {entries : List (String × α)}
    (h : entries.Pairwise fun p q => p.1 < q.1) (hkey : key ∉ entries.map Prod.fst) :
    (place key value entries).length = entries.length + 1 := by
  induction entries with
  | nil => rfl
  | cons p rest ih =>
    obtain ⟨hne, hrest⟩ := List.ne_and_not_mem_of_not_mem_cons hkey
    rw [place, if_neg hne]
    split
    · rfl
    · rw [List.length_cons, ih (List.pairwise_cons.mp h).2 hrest, List.length_cons]

/-- A name that is new is one name more. -/
theorem size_insert {key : String} (value : α) (h : l.has key = false) :
    (l.insert key value).size = l.size + 1 := by
  apply length_place value l.sorted
  intro hmem
  have hhas : l.has key = true := mem_keys_iff.mp hmem
  rw [h] at hhas
  contradiction

end JavaMinus.Listing
