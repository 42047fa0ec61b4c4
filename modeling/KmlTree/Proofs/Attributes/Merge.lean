import KmlTree.Proofs.Attributes

/-!
This module contains the laws of merging bags of attributes. A bag is given by the order of its names and
by the value of each name (`Attributes.ext_names`), so that each law is one about names and one about
values.
-/

namespace KmlTree

namespace Attributes

variable {a b : Attributes}

/--
The entries of a bag are its names with their values.
-/
theorem entries_eq (a : Attributes) :
    a.entries = a.names.map fun name => (name, (a.get? name).getD "") := by
  unfold names
  rw [List.map_map]
  symm
  apply (List.map_congr_left _).trans (List.map_id a.entries)
  rintro ⟨name, value⟩ hentry
  have hget : a.get? name = some value := mem_entries.mp hentry
  simp [hget]

/--
Bags with the same names in the same order and with the same values are the same.
-/
theorem ext_names (hnames : a.names = b.names) (hget : ∀ name, a.get? name = b.get? name) : a = b := by
  apply ext
  rw [entries_eq a, entries_eq b, hnames]
  simp only [hget]

theorem names_set (a : Attributes) (name value : String) :
    (a.set name value).names = if name ∈ a.names then a.names else a.names ++ [name] :=
  map_fst_assign name value a.entries

theorem names_erase (a : Attributes) (name : String) :
    (a.erase name).names = a.names.filter fun other => other != name := by
  unfold names erase
  rw [List.filter_map]
  rfl

theorem names_setAll (a : Attributes) {pairs : List (String × String)} (h : (pairs.map Prod.fst).Nodup) :
    (a.setAll pairs).names = a.names ++ (pairs.map Prod.fst).filter fun name => name ∉ a.names := by
  induction pairs generalizing a with
  | nil => simp [setAll]
  | cons pair pairs ih =>
    obtain ⟨name, value⟩ := pair
    rw [List.map_cons, List.nodup_cons] at h
    have hstep : a.setAll ((name, value) :: pairs) = (a.set name value).setAll pairs := by
      rfl
    rw [hstep, ih _ h.2, names_set, List.map_cons]
    by_cases hname : name ∈ a.names
    . rw [if_pos hname, List.filter_cons_of_neg (by simpa using hname)]
    . rw [if_neg hname, List.filter_cons_of_pos (by simpa using hname), List.append_assoc,
        List.singleton_append]
      congr 2
      apply List.filter_congr
      intro other hother
      have hne : other ≠ name := by
        rintro rfl
        exact h.1 hother
      simp [hne]

/--
The names of the second bag that are new come behind those of the first one.
-/
theorem names_merge (a b : Attributes) :
    (a.merge b).names = a.names ++ b.names.filter fun name => name ∉ a.names :=
  names_setAll a b.nodup

theorem mem_names_merge {name : String} :
    name ∈ (a.merge b).names ↔ name ∈ a.names ∨ name ∈ b.names := by
  rw [names_merge, List.mem_append, List.mem_filter]
  by_cases h : name ∈ a.names <;> simp [h]

theorem merge_assoc (a b c : Attributes) : (a.merge b).merge c = a.merge (b.merge c) := by
  apply ext_names
  . rw [names_merge, names_merge, names_merge, names_merge]
    rw [List.filter_append, List.filter_filter, List.append_assoc]
    congr 2
    apply List.filter_congr
    intro name _
    simp
    grind
  . intro name
    rw [get?_merge, get?_merge, get?_merge, get?_merge, Option.or_assoc]

theorem merge_self (a : Attributes) : a.merge a = a := by
  apply ext_names
  . rw [names_merge, List.filter_eq_nil_iff.mpr (by simp), List.append_nil]
  . intro name
    rw [get?_merge, Option.or_self]

/--
The entries of the first bag keep their places with the values of the second one, and the entries of the
second one with new names follow in their order.
-/
theorem entries_merge_eq (a b : Attributes) :
    (a.merge b).entries
      = (a.entries.map fun entry => (entry.1, (b.get? entry.1).getD entry.2))
        ++ b.entries.filter fun entry => entry.1 ∉ a.names := by
  rw [entries_eq (a.merge b), names_merge, List.map_append]
  congr 1
  . rw [entries_eq a, List.map_map]
    apply List.map_congr_left
    intro name _
    simp only [Function.comp, get?_merge, Option.getD_or]
  . rw [entries_eq b, List.filter_map]
    apply List.map_congr_left
    intro name hname
    have hnone : a.get? name = none := by
      apply get?_eq_none.mpr
      simpa using (List.mem_filter.mp hname).2
    rw [get?_merge, hnone, Option.or_none]

theorem merge_empty (a : Attributes) : a.merge ∅ = a := by
  rfl

theorem empty_merge (a : Attributes) : (∅ : Attributes).merge a = a := by
  apply ext_names
  . rw [names_merge]
    exact List.filter_eq_self.mpr fun name _ => decide_eq_true List.not_mem_nil
  . intro name
    rw [get?_merge, get?_empty, Option.or_none]

theorem erase_merge (a b : Attributes) (name : String) :
    (a.merge b).erase name = (a.erase name).merge (b.erase name) := by
  apply ext_names
  . rw [names_erase, names_merge, names_merge, names_erase, names_erase, List.filter_append,
      List.filter_filter, List.filter_filter]
    congr 1
    apply List.filter_congr
    intro other _
    simp [List.mem_filter]
    grind
  . intro other
    rw [get?_erase, get?_merge, get?_merge, get?_erase, get?_erase]
    split <;> simp

theorem set?_eq_merge (a : Attributes) (name : String) (value? : Option String) :
    a.set? name value? = a.merge ((∅ : Attributes).set? name value?) := by
  cases value? <;> rfl

theorem isEmpty_iff : a.isEmpty = true ↔ a = ∅ := by
  constructor
  . intro h
    exact ext (List.isEmpty_iff.mp h)
  . rintro rfl
    rfl

theorem eq_empty_iff : a = ∅ ↔ a.names = [] := by
  constructor
  . rintro rfl
    rfl
  . intro h
    exact ext (List.map_eq_nil_iff.mp h)

theorem merge_ne_empty (h : a ≠ ∅) (b : Attributes) : a.merge b ≠ ∅ := by
  intro hmerge
  rw [eq_empty_iff, names_merge, List.append_eq_nil_iff] at hmerge
  exact h (eq_empty_iff.mpr hmerge.1)

/--
A bag without the attributes of given names.
-/
def eraseAll (a : Attributes) (names : List String) : Attributes := names.foldl erase a

theorem entries_eraseAll (a : Attributes) (names : List String) :
    (a.eraseAll names).entries = a.entries.filter fun entry => !names.contains entry.1 := by
  induction names generalizing a with
  | nil => simp [eraseAll]
  | cons name names ih =>
    have hstep : a.eraseAll (name :: names) = (a.erase name).eraseAll names := by
      rfl
    have herase : (a.erase name).entries = a.entries.filter fun entry => entry.1 != name := by
      rfl
    rw [hstep, ih, herase, List.filter_filter]
    apply List.filter_congr
    intro entry _
    by_cases h : entry.1 = name <;> simp [h]

theorem names_eraseAll (a : Attributes) (names : List String) :
    (a.eraseAll names).names = a.names.filter fun name => !names.contains name := by
  unfold Attributes.names
  rw [entries_eraseAll, List.filter_map]
  rfl

theorem get?_eraseAll (a : Attributes) (names : List String) (name : String) :
    (a.eraseAll names).get? name = if name ∈ names then none else a.get? name := by
  induction names generalizing a with
  | nil => simp [eraseAll]
  | cons other names ih =>
    have hstep : a.eraseAll (other :: names) = (a.erase other).eraseAll names := by
      rfl
    rw [hstep, ih, get?_erase]
    by_cases h : name = other <;> simp [h]

theorem eraseAll_merge (a b : Attributes) (names : List String) :
    (a.merge b).eraseAll names = (a.eraseAll names).merge (b.eraseAll names) := by
  induction names generalizing a b with
  | nil => rfl
  | cons name names ih =>
    unfold eraseAll at ih ⊢
    rw [List.foldl_cons, List.foldl_cons, List.foldl_cons, erase_merge, ih]

theorem eraseAll_eq_self {names : List String} (h : ∀ name ∈ a.names, name ∉ names) :
    a.eraseAll names = a := by
  apply ext_names
  . rw [names_eraseAll, List.filter_eq_self]
    intro name hname
    simpa using h name hname
  . intro name
    rw [get?_eraseAll]
    split
    . next hmem =>
      symm
      apply get?_eq_none.mpr
      intro hname
      exact h name hname hmem
    . rfl

theorem eraseAll_eq_empty {names : List String} (h : ∀ name ∈ a.names, name ∈ names) :
    a.eraseAll names = ∅ := by
  rw [eq_empty_iff, names_eraseAll, List.filter_eq_nil_iff]
  intro name hname
  simpa using h name hname

end Attributes

end KmlTree
