import KmlTree.Proofs.Attributes.Merge
import Mathlib.Data.List.DropRight

/-!
This module contains the meaning of a bag of attributes by its history: the changes that were made to each
name since the bag was begun tell the value of the name and its place in the bag (`Attributes.Tells`),
whatever operations the changes came from (`Attributes.bag_laws`).
-/

namespace KmlTree

namespace Attributes

/--
What can be done to a bag of attributes. `ofList` begins it anew.
-/
inductive Operation where
  | set (name value : String)
  | cut (name : String)
  | merge (other : Attributes)
  | ofList (pairs : List (String × String))

def perform (a : Attributes) : Operation → Attributes
  | .set name value => a.set name value
  | .cut name => (a.cut name).2
  | .merge other => a.merge other
  | .ofList pairs => Attributes.ofList pairs

def performAll (ops : List Operation) : Attributes := ops.foldl perform ∅

/--
A change to a single name.
-/
inductive Change where
  | set (name value : String)
  | cut (name : String)
deriving DecidableEq

/--
The value that a change gives to a name.
-/
def Change.value? (name : String) : Change → Option String
  | set other value => if other = name then some value else none
  | cut _ => none

def changesOf (pairs : List (String × String)) : List Change :=
  pairs.map fun pair => .set pair.1 pair.2

def record (history : List Change) : Operation → List Change
  | .set name value => history ++ [.set name value]
  | .cut name => history ++ [.cut name]
  | .merge other => history ++ changesOf other.entries
  | .ofList pairs => changesOf pairs

/--
The changes that operations make to a bag that is empty at first, from when it was last begun anew.
-/
def historyOf (ops : List Operation) : List Change := ops.foldl record []

/--
The changes behind the last cut of a name.
-/
def sinceCut (name : String) (history : List Change) : List Change :=
  history.rtakeWhile (· != .cut name)

/--
The value that a name was last set to since it was last cut, if it was set since.
-/
def lastValue? (name : String) (history : List Change) : Option String :=
  ((sinceCut name history).filterMap (Change.value? name)).getLast?

/--
How many changes ago a name was first set since it was last cut, that change included. It is zero where the
name has not been set since.
-/
def age (name : String) (history : List Change) : Nat :=
  ((sinceCut name history).dropWhile fun c => (c.value? name).isNone).length

variable {history : List Change} {a b : Attributes}

theorem sinceCut_append (name : String) (history : List Change) (c : Change) :
    sinceCut name (history ++ [c]) = if c = .cut name then [] else sinceCut name history ++ [c] := by
  unfold sinceCut
  rw [List.rtakeWhile_concat]
  by_cases h : c = .cut name <;> simp [h]

theorem lastValue?_set (name other value : String) (history : List Change) :
    lastValue? other (history ++ [.set name value])
      = if other = name then some value else lastValue? other history := by
  unfold lastValue?
  rw [sinceCut_append]
  rw [if_neg (by simp)]
  rw [List.filterMap_append]
  by_cases h : name = other
  . simp [Change.value?, h]
  . simp [Change.value?, h, Ne.symm h]

theorem lastValue?_cut (name other : String) (history : List Change) :
    lastValue? other (history ++ [.cut name])
      = if other = name then none else lastValue? other history := by
  unfold lastValue?
  rw [sinceCut_append]
  by_cases h : name = other
  . simp [h]
  . simp [Change.value?, h, Ne.symm h]

theorem age_append {name : String} {c : Change} (h : c ≠ .cut name) :
    age name (history ++ [c])
      = if age name history = 0 ∧ c.value? name = none then 0 else age name history + 1 := by
  unfold age
  rw [sinceCut_append]
  rw [if_neg h]
  rw [List.dropWhile_append]
  generalize (sinceCut name history).dropWhile (fun c => (c.value? name).isNone) = changes
  cases changes with
  | nil => cases hvalue : c.value? name <;> simp [hvalue]
  | cons first changes => simp

theorem age_set (name other value : String) (history : List Change) :
    age other (history ++ [.set name value])
      = if age other history = 0 ∧ other ≠ name then 0 else age other history + 1 := by
  rw [age_append (by simp)]
  by_cases h : name = other
  . simp [Change.value?, h]
  . simp [Change.value?, h, Ne.symm h]

theorem age_cut_self (name : String) (history : List Change) :
    age name (history ++ [.cut name]) = 0 := by
  unfold age
  rw [sinceCut_append]
  rw [if_pos rfl]
  rfl

theorem age_cut_of_ne {name other : String} (history : List Change) (h : other ≠ name) :
    age other (history ++ [.cut name]) = if age other history = 0 then 0 else age other history + 1 := by
  rw [age_append (by simpa using Ne.symm h)]
  simp [Change.value?]

/--
Whether the changes of a history tell all of a bag: the value of each name, and the order of the names,
which is that of the changes that first set them since they were last cut.
-/
structure Tells (history : List Change) (a : Attributes) : Prop where
  value : ∀ name, a.get? name = lastValue? name history
  mem : ∀ name, name ∈ a.names ↔ age name history ≠ 0
  order : a.names.Pairwise fun name later => age later history < age name history

namespace Tells

theorem nil : Tells [] ∅ where
  value _ := rfl
  mem name := by
    constructor
    . intro hname
      cases hname
    . intro hage
      exact absurd rfl hage
  order := List.Pairwise.nil

theorem set (h : Tells history a) (name value : String) :
    Tells (history ++ [.set name value]) (a.set name value) where
  value other := by
    rw [get?_set, lastValue?_set, h.value]
  mem other := by
    rw [names_set, age_set]
    have hother := h.mem other
    split <;> grind
  order := by
    have hold : a.names.Pairwise fun earlier later =>
        age later (history ++ [.set name value]) < age earlier (history ++ [.set name value]) := by
      apply List.Pairwise.imp_of_mem _ h.order
      intro earlier later hearlier hlater hage
      have hearlier' := (h.mem earlier).mp hearlier
      have hlater' := (h.mem later).mp hlater
      simp only [age_set, hearlier', hlater', false_and, if_false]
      omega
    rw [names_set]
    split
    . exact hold
    . next hname =>
      rw [List.pairwise_append]
      refine ⟨hold, List.pairwise_singleton _ _, ?_⟩
      intro earlier hearlier later hlater
      obtain rfl := List.mem_singleton.mp hlater
      have hearlier' := (h.mem earlier).mp hearlier
      have hlater' : age later history = 0 := by
        rw [h.mem, not_not] at hname
        exact hname
      simp only [age_set, hearlier', hlater', ne_eq, not_true_eq_false, and_false, false_and, if_false]
      omega

theorem cut (h : Tells history a) (name : String) :
    Tells (history ++ [.cut name]) (a.cut name).2 where
  value other := by
    unfold Attributes.cut
    rw [get?_erase, lastValue?_cut, h.value]
  mem other := by
    unfold Attributes.cut
    rw [names_erase, List.mem_filter, bne_iff_ne, h.mem]
    by_cases hother : other = name
    . rw [hother, age_cut_self]
      simp
    . rw [age_cut_of_ne history hother]
      simp [hother]
  order := by
    unfold Attributes.cut
    rw [names_erase]
    apply List.Pairwise.imp_of_mem _ (h.order.filter _)
    intro earlier later hearlier hlater hage
    rw [List.mem_filter, h.mem, bne_iff_ne] at hearlier hlater
    rw [age_cut_of_ne history hearlier.2, age_cut_of_ne history hlater.2, if_neg hearlier.1,
      if_neg hlater.1]
    omega

theorem setAll (h : Tells history a) (pairs : List (String × String)) :
    Tells (history ++ changesOf pairs) (a.setAll pairs) := by
  induction pairs generalizing history a with
  | nil =>
    rw [changesOf, List.map_nil, List.append_nil]
    exact h
  | cons pair pairs ih =>
    have hrest := ih (h.set pair.1 pair.2)
    rw [List.append_assoc] at hrest
    exact hrest

theorem perform (h : Tells history a) (op : Operation) : Tells (record history op) (a.perform op) := by
  cases op with
  | set name value => exact h.set name value
  | cut name => exact h.cut name
  | merge other => exact h.setAll other.entries
  | ofList pairs => exact nil.setAll pairs

theorem performAll (ops : List Operation) : Tells (historyOf ops) (performAll ops) := by
  have hrun {history : List Change} {a : Attributes} (h : Tells history a) :
      Tells (ops.foldl record history) (ops.foldl Attributes.perform a) := by
    induction ops generalizing history a with
    | nil => exact h
    | cons op ops ih => exact ih (h.perform op)
  exact hrun nil

end Tells

/--
Whatever is done to a bag that is empty at first, its names are different, and its history tells the value
of each name and the order of the names. A cut returns the value of a name and leaves all others in their
places. A bag that is merged into it changes the values of the names that are there and appends the others,
which is associative and idempotent. The bag is the same as another one if each name has the same value in
both, whatever the order is.
-/
theorem bag_laws (ops : List Operation) :
    let a := performAll ops
    let history := historyOf ops
    (a.names.Nodup ∧ a.size = a.entries.length)
      ∧ (∀ name, a.get? name = lastValue? name history)
      ∧ (∀ name, name ∈ a.names ↔ age name history ≠ 0)
      ∧ a.names.Pairwise (fun name later => age later history < age name history)
      ∧ (∀ name, (a.cut name).1 = lastValue? name history
        ∧ (a.cut name).2.entries = a.entries.filter fun entry => entry.1 != name)
      ∧ (∀ b c, (a.merge b).merge c = a.merge (b.merge c))
      ∧ a.merge a = a
      ∧ (∀ b, (a.merge b).entries
        = (a.entries.map fun entry => (entry.1, (b.get? entry.1).getD entry.2))
          ++ b.entries.filter fun entry => entry.1 ∉ a.names)
      ∧ (∀ b, a.same b = true ↔ ∀ name, a.get? name = b.get? name)
      ∧ ∀ b, a.same b = true ↔ a.entries.Perm b.entries := by
  intro a history
  have htells : Tells history a := .performAll ops
  have hnodup : a.names.Nodup := by
    apply htells.order.imp
    rintro name later hage rfl
    exact Nat.lt_irrefl _ hage
  refine ⟨⟨hnodup, rfl⟩, htells.value, htells.mem, htells.order, ?_, merge_assoc a, merge_self a,
    entries_merge_eq a, fun _ => same_iff_get?, fun _ => same_iff_perm⟩
  intro name
  exact ⟨htells.value name, rfl⟩

/--
A name that is set again after it was cut comes last.
-/
example :
    (performAll [.ofList [("a", "1"), ("b", "2"), ("a", "3")], .cut "a", .set "b" "4",
      .merge (ofList [("a", "5"), ("c", "6")])]).entries = [("b", "4"), ("a", "5"), ("c", "6")] := by
  decide

end Attributes

end KmlTree
