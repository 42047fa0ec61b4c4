import KmlTree.Proofs.Element.Bare

/-!
This module contains the gathering of what the elements of a tree announce when they begin: it is what is
announced for each element in the tree and for each of its values (`Element.gather_emissions`).
-/

namespace KmlTree

namespace Emission

variable {α : Type} {pick : Emission → List α}

/--
All that is picked from a list of emissions in the basic vocabulary.
-/
def gather (pick : Emission → List α) (es : List Emission) : List α :=
  es.flatMap fun e => pick e.basic

/--
Whether something is picked only where an element begins, no matter whether it is simple.
-/
structure Picks (pick : Emission → List α) : Prop where
  visit : ∀ id kind, pick (.visit id kind) = []
  closeTag : ∀ kind, pick (.closeTag kind) = []
  verbatim : ∀ markup, pick (.verbatim markup) = []
  simple : ∀ kind attributes text,
    pick (.simple kind attributes text) = pick (.openTag kind attributes)

@[simp]
theorem gather_nil : gather pick [] = [] := by
  rfl

@[simp]
theorem gather_cons (e : Emission) (es : List Emission) :
    gather pick (e :: es) = pick e.basic ++ gather pick es := by
  rfl

@[simp]
theorem gather_append (es fs : List Emission) :
    gather pick (es ++ fs) = gather pick es ++ gather pick fs :=
  List.flatMap_append

namespace Picks

theorem textEmissions (h : Picks pick) (text : List Char) : gather pick (textEmissions text) = [] := by
  unfold KmlTree.textEmissions
  split
  . rfl
  . rw [gather_cons, gather_nil, List.append_nil]
    exact h.verbatim _

theorem map_verbatim (h : Picks pick) (markup : List String) :
    gather pick (markup.map .verbatim) = [] := by
  induction markup with
  | nil => rfl
  | cons m markup ih =>
    rw [List.map_cons, gather_cons, ih, List.append_nil]
    exact h.verbatim m

end Picks

end Emission

open Emission

namespace Element

variable {α : Type} {pick : Emission → List α}

/--
What is picked for an element itself and for its values.
-/
def ownGathering (pick : Emission → List α) (e : Element) : List α :=
  pick (.openTag e.kind e.attributes) ++ gather pick e.body.values

def gathering (pick : Emission → List α) (e : Element) : List α := e.all.flatMap (ownGathering pick)

theorem gathering_eq (pick : Emission → List α) (e : Element) :
    e.gathering pick
      = e.ownGathering pick ++ (e.placed ++ e.misplaced).flatMap (gathering pick) :=
  flatMap_all (ownGathering pick) e

theorem gather_emissionsOfAll {es : List Element}
    (h : ∀ e ∈ es, gather pick e.emissions = e.gathering pick) :
    gather pick (emissionsOfAll es) = es.flatMap (gathering pick) := by
  rw [emissionsOfAll_eq]
  unfold gather
  rw [List.flatMap_assoc]
  exact List.flatMap_congr h

theorem gather_complex (hpick : Picks pick) {e : Element} {values : List Emission}
    (hplaced : gather pick (emissionsOfAll e.placed) = e.placed.flatMap (gathering pick))
    (hmisplaced : gather pick (emissionsOfAll e.misplaced) = e.misplaced.flatMap (gathering pick))
    (hcontent : e.body.content e.head.charData = .complex values) :
    gather pick e.emissions = e.gathering pick := by
  rw [gathering_eq]
  unfold ownGathering
  rw [Body.values_eq hcontent]
  obtain ⟨head, body, placed, misplaced⟩ := e
  rw [emissions]
  dsimp only at hcontent hplaced hmisplaced ⊢
  rw [hcontent]
  simp only [List.cons_append, gather_cons, gather_append, gather_nil, basic, hpick.visit,
    hpick.closeTag, hpick.textEmissions, hpick.map_verbatim, hplaced, hmisplaced, List.flatMap_append,
    List.nil_append, List.append_nil, List.append_assoc]
  rfl

theorem gather_textual (hpick : Picks pick) {e : Element} {text : String}
    (hmisplaced : gather pick (emissionsOfAll e.misplaced) = e.misplaced.flatMap (gathering pick))
    (hnone : e.placed = []) (hcontent : e.body.content e.head.charData = .textual text) :
    gather pick e.emissions = e.gathering pick := by
  rw [gathering_eq]
  unfold ownGathering
  rw [Body.values_eq_nil hcontent]
  obtain ⟨head, body, placed, misplaced⟩ := e
  rw [emissions]
  dsimp only at hcontent hmisplaced hnone ⊢
  rw [hcontent, hnone]
  dsimp only
  split
  . next hempty =>
    simp only [Bool.and_eq_true, List.isEmpty_iff] at hempty
    rw [hempty.2]
    simp only [gather_cons, gather_nil, basic, hpick.visit, hpick.simple, List.nil_append,
      List.append_nil, List.flatMap_nil]
    rfl
  . simp only [List.cons_append, gather_cons, gather_append, gather_nil, basic, hpick.visit,
      hpick.closeTag, hpick.textEmissions, hpick.map_verbatim, hmisplaced, List.nil_append,
      List.append_nil]
    rfl

/--
A regular element is described with what is announced for all elements in it and for their values.
-/
theorem gather_emissions (hpick : Picks pick) (e : Element) (h : ∀ x ∈ e.all, x.Regular) :
    gather pick e.emissions = e.gathering pick := by
  induction e using Element.induction with
  | step e hplaced hmisplaced =>
    obtain ⟨hself, hchildren⟩ := forall_mem_all.mp h
    have hplaced' : gather pick (emissionsOfAll e.placed) = e.placed.flatMap (gathering pick) := by
      apply gather_emissionsOfAll
      intro c hc
      exact hplaced c hc (hchildren c (List.mem_append_left _ hc))
    have hmisplaced' :
        gather pick (emissionsOfAll e.misplaced) = e.misplaced.flatMap (gathering pick) := by
      apply gather_emissionsOfAll
      intro c hc
      exact hmisplaced c hc (hchildren c (List.mem_append_right _ hc))
    cases Body.content_of_isListed hself.listed e.head.charData with
    | inl hcomplex =>
      obtain ⟨values, hcontent⟩ := hcomplex
      exact gather_complex hpick hplaced' hmisplaced' hcontent
    | inr htextual =>
      obtain ⟨text, hcontent⟩ := htextual
      exact gather_textual hpick hmisplaced' (hself.placed_eq_nil (Body.place?_of_textual hcontent))
        hcontent

end Element

end KmlTree
