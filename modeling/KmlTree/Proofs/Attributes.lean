import KmlTree.Attributes
import Mathlib.Data.List.Nodup
import Mathlib.Data.List.Perm.Basic

/-!
This module contains the laws of bags of attributes: what `Attributes.get?` finds after each operation,
and where in the bag the operations put what they add.
-/

namespace KmlTree

namespace Attributes

theorem ext {a b : Attributes} (h : a.entries = b.entries) : a = b := by
  obtain ⟨entries, nodup⟩ := a
  obtain ⟨entries', nodup'⟩ := b
  dsimp only at h
  subst h
  rfl

theorem lookup_cons (name key value : String) (entries : List (String × String)) :
    ((key, value) :: entries).lookup name
      = if name = key then some value else entries.lookup name := by
  rw [List.lookup_cons]
  by_cases h : name = key
  . simp [h]
  . have hne : (name == key) = false := by
      simpa using h
    simp [h, hne]

theorem lookup_replace (name value other : String) (entries : List (String × String)) :
    (entries.map fun entry => if entry.1 = name then (name, value) else entry).lookup other
      = if other = name ∧ name ∈ entries.map Prod.fst then some value else entries.lookup other := by
  induction entries with
  | nil => simp
  | cons entry entries ih =>
    obtain ⟨key, old⟩ := entry
    rw [List.map_cons]
    by_cases hkey : key = name
    . subst hkey
      rw [if_pos rfl, lookup_cons, lookup_cons, ih]
      by_cases hother : other = key
      . simp [hother]
      . simp [hother]
    . rw [if_neg hkey, lookup_cons, lookup_cons, ih]
      by_cases hother : other = key
      . subst hother
        simp [hkey]
      . have hname : name ≠ key := Ne.symm hkey
        rw [if_neg hother, if_neg hother, List.map_cons]
        simp only [List.mem_cons, hname, false_or]

theorem mem_keys_of_lookup {name value : String} {entries : List (String × String)}
    (h : entries.lookup name = some value) : name ∈ entries.map Prod.fst := by
  obtain ⟨before, after, rfl, _⟩ := List.lookup_eq_some_iff.mp h
  simp

theorem lookup_eq_none {name : String} {entries : List (String × String)}
    (h : name ∉ entries.map Prod.fst) : entries.lookup name = none := by
  cases hlookup : entries.lookup name with
  | none => rfl
  | some value => exact absurd (mem_keys_of_lookup hlookup) h

theorem mem_iff_lookup {name value : String} {entries : List (String × String)}
    (h : (entries.map Prod.fst).Nodup) :
    (name, value) ∈ entries ↔ entries.lookup name = some value := by
  induction entries with
  | nil => simp
  | cons entry entries ih =>
    obtain ⟨key, old⟩ := entry
    simp only [List.map_cons, List.nodup_cons] at h
    rw [lookup_cons, List.mem_cons, ih h.2]
    by_cases hname : name = key
    . subst hname
      simp [lookup_eq_none h.1, eq_comm]
    . simp [hname]

theorem mem_entries {a : Attributes} {name value : String} :
    (name, value) ∈ a.entries ↔ a.get? name = some value :=
  mem_iff_lookup a.nodup

theorem get?_eq_none {a : Attributes} {name : String} : a.get? name = none ↔ name ∉ a.names := by
  constructor
  . intro h hmem
    unfold names at hmem
    rw [List.mem_map] at hmem
    obtain ⟨⟨key, value⟩, hentry, rfl⟩ := hmem
    rw [mem_entries] at hentry
    simp [hentry] at h
  . intro h
    exact lookup_eq_none h

@[simp]
theorem get?_empty (name : String) : (∅ : Attributes).get? name = none := by
  rfl

theorem get?_set (a : Attributes) (name value other : String) :
    (a.set name value).get? other = if other = name then some value else a.get? other := by
  unfold set get? assign
  dsimp only
  split
  . next hmem =>
    rw [lookup_replace]
    simp [hmem]
  . next hmem =>
    rw [List.lookup_append]
    by_cases hother : other = name
    . subst hother
      simp [lookup_eq_none hmem]
    . rw [lookup_cons]
      simp [hother]

theorem get?_set? (a : Attributes) (name other : String) (value? : Option String) :
    (a.set? name value?).get? other
      = if other = name then value?.or (a.get? name) else a.get? other := by
  cases value? with
  | none =>
    by_cases hother : other = name
    . simp [set?, hother]
    . simp [set?, hother]
  | some value =>
    simp only [set?, Option.some_or]
    exact get?_set a name value other

theorem get?_erase (a : Attributes) (name other : String) :
    (a.erase name).get? other = if other = name then none else a.get? other := by
  have hentry (value : String) : (other, value) ∈ (a.erase name).entries
      ↔ (other, value) ∈ a.entries ∧ other ≠ name := by
    unfold erase
    simp [List.mem_filter]
  split
  . next hother =>
    rw [get?_eq_none]
    unfold names
    rw [List.mem_map]
    rintro ⟨⟨key, value⟩, hmem, rfl⟩
    rw [hentry] at hmem
    exact hmem.2 hother
  . next hother =>
    cases hget : a.get? other with
    | some value =>
      rw [← mem_entries, hentry, mem_entries]
      exact ⟨hget, hother⟩
    | none =>
      rw [get?_eq_none]
      unfold names
      rw [List.mem_map]
      rintro ⟨⟨key, value⟩, hmem, rfl⟩
      rw [hentry, mem_entries, hget] at hmem
      simp at hmem

theorem get?_setAll (a : Attributes) {pairs : List (String × String)} (name : String)
    (h : (pairs.map Prod.fst).Nodup) :
    (a.setAll pairs).get? name = (pairs.lookup name).or (a.get? name) := by
  induction pairs generalizing a with
  | nil => simp [setAll]
  | cons pair pairs ih =>
    obtain ⟨key, value⟩ := pair
    simp only [List.map_cons, List.nodup_cons] at h
    have hstep : a.setAll ((key, value) :: pairs) = (a.set key value).setAll pairs := by
      rfl
    rw [hstep, ih _ h.2, get?_set, lookup_cons]
    by_cases hname : name = key
    . subst hname
      simp [lookup_eq_none h.1]
    . simp [hname]

theorem get?_merge (a b : Attributes) (name : String) :
    (a.merge b).get? name = (b.get? name).or (a.get? name) :=
  get?_setAll a name b.nodup

theorem perm_of_get? {a b : Attributes} (h : ∀ name, a.get? name = b.get? name) :
    a.entries.Perm b.entries := by
  rw [List.perm_ext_iff_of_nodup a.nodup.of_map b.nodup.of_map]
  rintro ⟨name, value⟩
  rw [mem_entries, mem_entries, h]

theorem get?_of_perm {a b : Attributes} (h : a.entries.Perm b.entries) (name : String) :
    a.get? name = b.get? name := by
  apply Option.ext
  intro value
  rw [← mem_entries, ← mem_entries, h.mem_iff]

theorem same_iff_perm {a b : Attributes} : a.same b = true ↔ a.entries.Perm b.entries := by
  have hsame : a.same b = true
      ↔ a.entries.length = b.entries.length ∧ ∀ entry ∈ a.entries, b.get? entry.1 = some entry.2 := by
    unfold same size
    simp
  rw [hsame]
  constructor
  . intro ⟨hlength, hall⟩
    have hsubset : a.entries ⊆ b.entries := fun entry hentry => mem_entries.mpr (hall entry hentry)
    exact (List.subperm_of_subset a.nodup.of_map hsubset).perm_of_length_le (Nat.le_of_eq hlength.symm)
  . intro hperm
    refine ⟨hperm.length_eq, ?_⟩
    intro entry hentry
    rw [← mem_entries, ← hperm.mem_iff]
    exact hentry

/--
Bags are the same if each name has the same value in both, in whatever order they list the names.
-/
theorem same_iff_get? {a b : Attributes} : a.same b = true ↔ ∀ name, a.get? name = b.get? name := by
  rw [same_iff_perm]
  exact ⟨get?_of_perm, perm_of_get?⟩

theorem entries_set {a : Attributes} {name : String} (value : String) (h : name ∉ a.names) :
    (a.set name value).entries = a.entries ++ [(name, value)] := by
  unfold set assign
  exact if_neg h

theorem entries_set? {a : Attributes} {name : String} (value? : Option String) (h : name ∉ a.names) :
    (a.set? name value?).entries = a.entries ++ (value?.map (name, ·)).toList := by
  cases value? with
  | none => simp [set?]
  | some value => exact entries_set value h

theorem entries_setAll {a : Attributes} {pairs : List (String × String)}
    (h : (a.names ++ pairs.map Prod.fst).Nodup) :
    (a.setAll pairs).entries = a.entries ++ pairs := by
  induction pairs generalizing a with
  | nil => simp [setAll]
  | cons pair pairs ih =>
    obtain ⟨name, value⟩ := pair
    have hname : name ∉ a.names := by
      simp only [List.map_cons, List.nodup_append, List.mem_cons] at h
      intro hmem
      exact h.2.2 name hmem name (Or.inl rfl) rfl
    have hset := entries_set value hname
    have hstep : a.setAll ((name, value) :: pairs) = (a.set name value).setAll pairs := by
      rfl
    rw [hstep, ih, hset]
    . simp
    . unfold names
      rw [hset]
      simpa [names] using h

theorem entries_ofList {pairs : List (String × String)} (h : (pairs.map Prod.fst).Nodup) :
    (ofList pairs).entries = pairs :=
  entries_setAll (a := ∅) h

theorem ofList_entries (a : Attributes) : ofList a.entries = a :=
  ext (entries_ofList a.nodup)

theorem entries_merge {a b : Attributes} (h : ∀ name ∈ a.names, name ∉ b.names) :
    (a.merge b).entries = a.entries ++ b.entries := by
  apply entries_setAll
  rw [List.nodup_append]
  refine ⟨a.nodup, b.nodup, ?_⟩
  rintro name hname other hother rfl
  exact h name hname hother

end Attributes

end KmlTree
