import KmlTree.Element.Outline
import KmlTree.Proofs.Element.Child

/-!
This module contains the list of an element and all elements in it, and the induction along the children
of an element.
-/

namespace KmlTree

namespace Element

/--
An element and every element in it, in pre-order. The placed children come before the misplaced ones.
-/
def all (e : Element) : List Element := e.outline.map OutlineNode.element

end Element

mutual

theorem map_element_outlineAt (depth : Nat) (place : Place) (holder : Option Nat) : (e : Element) →
    (e.outlineAt depth place holder).map OutlineNode.element
      = e :: e.placed.flatMap Element.all ++ e.misplaced.flatMap Element.all
  | ⟨head, body, placed, misplaced⟩ => by
    rw [Element.outlineAt]
    simp only [List.map_append, List.map_cons]
    rw [map_element_outlineOfAll, map_element_outlineOfAll]

theorem map_element_outlineOfAll (depth : Nat) (place : Nat → Place) (holder index : Nat) :
    (es : List Element) →
    (outlineOfAll depth place holder index es).map OutlineNode.element = es.flatMap Element.all
  | [] => by
    rw [outlineOfAll]
    rfl
  | e :: es => by
    rw [outlineOfAll]
    rw [List.map_append, List.flatMap_cons]
    rw [map_element_outlineOfAll]
    unfold Element.all Element.outline
    rw [map_element_outlineAt, map_element_outlineAt]

end

namespace Element

theorem all_eq (e : Element) :
    e.all = e :: e.placed.flatMap all ++ e.misplaced.flatMap all :=
  map_element_outlineAt 0 .root none e

/--
What is collected from an element and all elements in it, from the element itself and from its children.
-/
theorem flatMap_all {α : Type} (collect : Element → List α) (e : Element) :
    e.all.flatMap collect
      = collect e ++ (e.placed ++ e.misplaced).flatMap fun c => c.all.flatMap collect := by
  rw [all_eq]
  simp [List.flatMap_assoc]

theorem mem_all_self (e : Element) : e ∈ e.all := by
  rw [all_eq]
  simp

theorem mem_all {e x : Element} :
    x ∈ e.all ↔ x = e ∨ ∃ c ∈ e.placed ++ e.misplaced, x ∈ c.all := by
  rw [all_eq]
  simp only [List.cons_append, List.mem_cons, List.mem_append, List.mem_flatMap]
  constructor
  . rintro (h | ⟨c, hc, hx⟩ | ⟨c, hc, hx⟩)
    . exact Or.inl h
    . exact Or.inr ⟨c, Or.inl hc, hx⟩
    . exact Or.inr ⟨c, Or.inr hc, hx⟩
  . rintro (h | ⟨c, hc | hc, hx⟩)
    . exact Or.inl h
    . exact Or.inr (Or.inl ⟨c, hc, hx⟩)
    . exact Or.inr (Or.inr ⟨c, hc, hx⟩)

theorem forall_mem_all {e : Element} {P : Element → Prop} :
    (∀ x ∈ e.all, P x) ↔ P e ∧ ∀ c ∈ e.placed ++ e.misplaced, ∀ x ∈ c.all, P x := by
  constructor
  . intro h
    constructor
    . exact h e e.mem_all_self
    . intro c hc x hx
      exact h x (mem_all.mpr (Or.inr ⟨c, hc, hx⟩))
  . intro h x hx
    cases mem_all.mp hx with
    | inl heq =>
      rw [heq]
      exact h.1
    | inr hin =>
      obtain ⟨c, hc, hx⟩ := hin
      exact h.2 c hc x hx

/--
What holds of an element and of all elements in it holds also after a change of the element itself that
keeps it, as long as it holds of what is new among the children.
-/
theorem forall_mem_all_of {e e' : Element} {P : Element → Prop} (h : ∀ x ∈ e.all, P x)
    (hself : P e → P e')
    (hchildren : ∀ c ∈ e'.placed ++ e'.misplaced, c ∈ e.placed ++ e.misplaced ∨ ∀ x ∈ c.all, P x) :
    ∀ x ∈ e'.all, P x := by
  rw [forall_mem_all] at h ⊢
  refine ⟨hself h.1, ?_⟩
  intro c hc
  cases hchildren c hc with
  | inl hold => exact h.2 c hold
  | inr hnew => exact hnew

theorem mem_all_inside {e x : Element} {parent : Nat} :
    x ∈ (e.inside parent).all
      ↔ x = e.inside parent ∨ ∃ c ∈ e.placed ++ e.misplaced, x ∈ c.all :=
  mem_all

/--
What holds of an element whenever it holds of its children holds of all elements.
-/
theorem induction {P : Element → Prop}
    (step : ∀ e, (∀ c ∈ e.placed, P c) → (∀ c ∈ e.misplaced, P c) → P e) : (e : Element) → P e
  | ⟨head, body, placed, misplaced⟩ => by
    apply step
    . intro c hc
      have : sizeOf c < sizeOf placed := List.sizeOf_lt_of_mem hc
      exact induction step c
    . intro c hc
      have : sizeOf c < sizeOf misplaced := List.sizeOf_lt_of_mem hc
      exact induction step c
termination_by e => sizeOf e
decreasing_by
  . simp only [mk.sizeOf_spec]
    omega
  . simp only [mk.sizeOf_spec]
    omega

end Element

end KmlTree
