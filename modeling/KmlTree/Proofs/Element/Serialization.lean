import KmlTree.Proofs.Element.Filling
import KmlTree.Proofs.Markup.Bracketed

/-!
This module contains what a writer does when an element is handed to it. The emissions of an element are
well bracketed, so that the writer comes back to where it was (`Element.save_restores`), and without
indentation and lines the basic vocabulary is as good as the full one (`Element.text_basic`).
-/

namespace KmlTree

namespace Emission

/--
Whether an emission neither opens nor closes an element.
-/
inductive IsSingle : Emission → Prop where
  | visit (id : Nat) (kind : Kind) : IsSingle (.visit id kind)
  | simple (kind : Kind) (attributes : Attributes) (text : String) :
    IsSingle (.simple kind attributes text)
  | verbatim (markup : String) : IsSingle (.verbatim markup)
  | charData (text : String) : IsSingle (.charData text)

/--
Whether two emissions open and close an element of one kind.
-/
inductive IsPair : Emission → Emission → Prop where
  | tags (kind : Kind) (attributes : Attributes) : IsPair (.openTag kind attributes) (.closeTag kind)
  | mixed (kind : Kind) (attributes : Attributes) :
    IsPair (.openMixed kind attributes) (.closeMixed kind)

/--
Whether every element that opens in a list of emissions is closed in it by the end of the same kind, with
only complete elements in between.
-/
def Balanced (es : List Emission) : Prop := Bracketed IsSingle IsPair es

variable {es : List Emission}

theorem Balanced.basic (h : Balanced es) : Balanced (es.map basic) := by
  rw [← List.filterMap_eq_map]
  apply Bracketed.filterMap h
  . rintro m hm m' ⟨⟩
    cases hm with
    | visit id kind => exact .visit id kind
    | simple kind attributes text => exact .simple kind attributes text
    | verbatim markup => exact .verbatim markup
    | charData text => exact .verbatim (escapeText text)
  . intro m m' hpair
    cases hpair with
    | tags kind attributes => exact Or.inr ⟨_, _, rfl, rfl, .tags kind attributes⟩
    | mixed kind attributes => exact Or.inr ⟨_, _, rfl, rfl, .tags kind attributes⟩

/--
The tags that are written of balanced emissions match, also where a kind has no tag.
-/
theorem Balanced.wellBracketed (h : Balanced es) : Writer.WellBracketed (instructions es) := by
  apply Bracketed.filterMap h
  . intro m hm i hi
    cases hm with
    | visit id kind => cases hi
    | simple kind attributes text =>
      obtain ⟨name, _, rfl⟩ := Option.map_eq_some_iff.mp hi
      exact .textElement name attributes text
    | verbatim markup =>
      cases hi
      exact .raw markup
    | charData text =>
      cases hi
      exact .text text
  . intro m m' hpair
    cases hpair with
    | tags kind attributes =>
      dsimp only [instruction?]
      cases kind.tag? with
      | none => exact Or.inl ⟨rfl, rfl⟩
      | some name => exact Or.inr ⟨_, _, rfl, rfl, .tags name attributes⟩
    | mixed kind attributes =>
      dsimp only [instruction?]
      cases kind.tag? with
      | none => exact Or.inl ⟨rfl, rfl⟩
      | some name => exact Or.inr ⟨_, _, rfl, rfl, .inline name attributes⟩

theorem balanced_textEmissions (text : List Char) : Balanced (textEmissions text) := by
  unfold textEmissions
  split
  . exact .nil
  . exact .single (.charData _)

theorem balanced_verbatim (markup : List String) : Balanced (markup.map .verbatim) := by
  apply Bracketed.of_forall
  intro m hm
  obtain ⟨markup, _, rfl⟩ := List.mem_map.mp hm
  exact .verbatim markup

end Emission

open Emission

theorem Body.ofText_of_mem_values {body : Body} {charData : String} {values : List Emission}
    (h : body.content charData = .complex values) {m : Emission} (hm : m ∈ values) :
    ∃ kind text, m = .ofText kind text := by
  rw [← values_eq h] at hm
  exact body.fills_values.exists_eq_ofText hm

theorem Body.balanced_values {body : Body} {charData : String} {values : List Emission}
    (h : body.content charData = .complex values) : Balanced values := by
  apply Bracketed.of_forall
  intro m hm
  obtain ⟨kind, text, rfl⟩ := ofText_of_mem_values h hm
  exact .simple kind ∅ text

namespace Element

theorem balanced_emissionsOfAll {es : List Element} (h : ∀ e ∈ es, Balanced e.emissions) :
    Balanced (emissionsOfAll es) := by
  rw [emissionsOfAll_eq]
  exact Bracketed.flatMap h

theorem balanced_emissions (e : Element) : Balanced e.emissions := by
  induction e using Element.induction with
  | step e hplaced hmisplaced =>
    obtain ⟨head, body, placed, misplaced⟩ := e
    have hvisit : Balanced [.visit head.id body.kind] := .single (.visit head.id body.kind)
    have hkept : Balanced (head.unknown.map .verbatim ++ emissionsOfAll misplaced) :=
      (balanced_verbatim head.unknown).append (balanced_emissionsOfAll hmisplaced)
    rw [emissions]
    apply Bracketed.append hvisit
    cases hcontent : body.content head.charData with
    | complex values =>
      have hinside := (((Body.balanced_values hcontent).append (balanced_emissionsOfAll hplaced)).append
        (balanced_textEmissions (trim head.charData.toList))).append hkept
      exact .around (.tags _ _) hinside
    | textual text =>
      dsimp only
      split
      . exact .single (.simple _ _ text)
      . exact .around (.mixed _ _) ((balanced_textEmissions text.toList).append hkept)
    | verbatim markup => exact .single (.verbatim markup)
    | silent => exact .nil

end Element

namespace Writer.Page

/--
Write what an emission is written as, if it is written at all.
-/
def call (p : Page) (m : Emission) : Page :=
  match m.instruction? with
  | some i => p.put i
  | none => p

def callAll (p : Page) (es : List Emission) : Page := es.foldl call p

/--
Write an element behind what is on a page already.
-/
def save (p : Page) (e : Element) : Page := p.callAll e.emissions

theorem callAll_eq (p : Page) (es : List Emission) : p.callAll es = p.putAll (instructions es) := by
  induction es generalizing p with
  | nil => rfl
  | cons m es ih =>
    unfold callAll at ih ⊢
    rw [List.foldl_cons, ih, instructions_cons]
    unfold call putAll
    cases m.instruction? <;> rfl

theorem text_save_start (style : Style) (e : Element) : ((start style).save e).text = e.write style := by
  unfold save
  rw [callAll_eq, text_putAll_start]
  rfl

/--
Whether two pages without indentation and lines have the same text. The writer may be at different places.
-/
structure SameText (p q : Page) : Prop where
  style : p.style = .raw
  style' : q.style = .raw
  text : p.text = q.text

variable {p q : Page}

theorem SameText.put {i j : Instruction} (h : SameText p q) (hmarkup : i.markup = j.markup) :
    SameText (p.put i) (q.put j) where
  style := h.style
  style' := h.style'
  text := by rw [text_put_raw h.style, text_put_raw h.style', h.text, hmarkup]

theorem SameText.call (h : SameText p q) (m : Emission) : SameText (p.call m) (q.call m.basic) := by
  unfold Page.call
  cases m with
  | visit id kind => exact h
  | openTag kind attributes | closeTag kind | simple kind attributes text | openMixed kind attributes
    | closeMixed kind =>
    dsimp only [basic, instruction?]
    cases kind.tag? with
    | none => exact h
    | some name => exact h.put rfl
  | verbatim markup => exact h.put rfl
  | charData text => exact h.put rfl

theorem SameText.callAll (h : SameText p q) (es : List Emission) :
    SameText (p.callAll es) (q.callAll (es.map basic)) := by
  induction es generalizing p q with
  | nil => exact h
  | cons m es ih => exact ih (h.call m)

end Writer.Page

namespace Element

/--
An element only appends text to a page, wherever the writer is on it: behind the element the counters of
the writer are what they were in front of it, none of its tags takes one below zero, and what the element
says of itself is balanced, in the full vocabulary and in the basic one.
-/
theorem save_restores (e : Element) (p : Writer.Page) :
    p.save e = { p with
        text := p.text ++ Writer.render p.style (Writer.layout p.cursor e.instructions).1 }
      ∧ p.cursor.AdmitsAll e.instructions
      ∧ Balanced e.emissions
      ∧ Balanced (e.emissions.map basic) := by
  have hbalanced := e.balanced_emissions
  have htags := hbalanced.wellBracketed
  refine ⟨?_, ?_, hbalanced, hbalanced.basic⟩
  . unfold Writer.Page.save
    rw [Writer.Page.callAll_eq]
    exact Writer.Page.putAll_wellBracketed htags p
  . exact Writer.Cursor.admitsAll_wellBracketed htags p.cursor

/--
Without indentation and lines an element is written the same in the basic vocabulary, in which a mixed
element is opened and closed like any other and text is markup that has been escaped before.
-/
theorem text_basic (e : Element) :
    ((Writer.Page.start .raw).callAll (e.emissions.map basic)).text = e.raw := by
  have hsame : Writer.Page.SameText (.start .raw) (.start .raw) := ⟨rfl, rfl, rfl⟩
  have htext := (hsame.callAll e.emissions).text
  rw [← htext]
  exact Writer.Page.text_save_start .raw e

end Element

end KmlTree
