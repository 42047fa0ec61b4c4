import KmlTree.Proofs.Document.Rereading

/-!
This module contains the simple elements that no parent has read. Whatever white space a style puts between
elements, it puts none inside of them, so that their text is read as it is to the last character
(`Element.parse_write_field`).
-/

namespace KmlTree

namespace Element

/--
Whether an element is a field of a simple kind that holds any text, attributes with names of XML and
elements, but no markup that is not of the catalog. As in all elements there is no bag of attributes where
there is nothing to put into it.
-/
structure IsSimpleField (e : Element) : Prop where
  body : ∃ kind : Kind, kind.isSimple = true ∧ e.body = .field kind
  placed : e.placed = []
  unknown : e.head.unknown = []
  attributes : ∃ a : Attributes, e.head.unknownAttributes = a.nonempty?
    ∧ ∀ name ∈ a.names, isXmlName name.toList = true ∧ name ≠ "xmlns"

/--
Whether two fields have the same kind, text and attributes, and the same fields inside of them.
-/
inductive SameField : Element → Element → Prop where
  | intro {e e' : Element} : e'.body = e.body → e'.head.charData = e.head.charData →
    e'.head.xmlns = e.head.xmlns → e'.head.unknownAttributes = e.head.unknownAttributes →
      e'.head.unknown = e.head.unknown → e'.placed = e.placed →
        List.Forall₂ SameField e.misplaced e'.misplaced → SameField e e'

namespace IsSimpleField

variable {e : Element}

theorem isListed (h : e.IsSimpleField) : e.body.isListed = true := by
  obtain ⟨kind, hsimple, hbody⟩ := h.body
  rw [hbody]
  exact hsimple

theorem attributeNames_eq_nil (h : e.IsSimpleField) : e.kind.attributeNames = [] := by
  have hnames := Body.attributeNames_of_isListed h.isListed
  obtain ⟨kind, _, hbody⟩ := h.body
  rw [hbody] at hnames
  unfold Element.kind
  rw [hbody]
  exact hnames

theorem settled (h : e.IsSimpleField) : e.Settled where
  listed := h.isListed
  placed := by
    intro c hc
    rw [h.placed] at hc
    cases hc
  single := by
    rw [h.placed]
    exact Or.inr (Nat.zero_le 1)
  misplaced := by
    intro c _
    obtain ⟨kind, _, hbody⟩ := h.body
    constructor
    . have hplace : e.body.place? = none := by
        rw [hbody]
        rfl
      unfold hasPlaceFor
      rw [hplace]
      cases c.body.class? <;> rfl
    . rw [hbody]
      unfold Body.absorb?
      split <;> rfl
  unknown := by
    intro bag hbag
    obtain ⟨a, ha, hnames⟩ := h.attributes
    rw [ha] at hbag
    obtain ⟨hne, rfl⟩ := Attributes.nonempty?_eq_some.mp hbag
    refine ⟨hne, ?_⟩
    intro name hname
    rw [h.attributeNames_eq_nil]
    exact ⟨(hnames name hname).2, by simp⟩
  names := by
    intro bag hbag name hname
    obtain ⟨a, ha, hnames⟩ := h.attributes
    rw [ha] at hbag
    obtain ⟨_, rfl⟩ := Attributes.nonempty?_eq_some.mp hbag
    exact (hnames name hname).1
  fragments := by
    intro markup hmarkup
    rw [h.unknown] at hmarkup
    cases hmarkup
  coordinates := by
    intro positions skipped hbody
    obtain ⟨kind, _, hfield⟩ := h.body
    rw [hbody] at hfield
    cases hfield

end IsSimpleField

theorem forall₂_of_map_eq {α β : Type} {f : α → β} {R : α → α → Prop} {as bs : List α}
    (hmap : bs.map f = as.map f) (h : ∀ a ∈ as, ∀ b, f b = f a → R a b) : List.Forall₂ R as bs := by
  induction as generalizing bs with
  | nil =>
    rw [List.map_nil, List.map_eq_nil_iff] at hmap
    rw [hmap]
    exact .nil
  | cons a as ih =>
    obtain ⟨b, bs, rfl, hfirst, hrest⟩ := List.map_eq_cons_iff.mp hmap
    rw [List.forall_mem_cons] at h
    exact .cons (h.1 b hfirst) (ih hrest h.2)

theorem sameField_of_bare {e e' : Element} (h : ∀ x ∈ e.all, x.IsSimpleField) (hbare : e'.bare = e.bare) :
    SameField e e' := by
  induction e using Element.induction generalizing e' with
  | step e _ hmisplaced =>
    rw [forall_mem_all] at h
    obtain ⟨hself, hchildren⟩ := h
    obtain ⟨kind, _, hbody⟩ := hself.body
    have hbody' := body_of_bare hbare
    rw [bare_eq, bare_eq e, hbody', hbody] at hbare
    simp only [mk.injEq, Head.mk.injEq, Body.bareText, true_and] at hbare
    obtain ⟨⟨hxmlns, htext, hunknown, hattributes⟩, hplaced', hmisplaced'⟩ := hbare
    rw [hself.placed, List.map_nil, List.map_eq_nil_iff] at hplaced'
    refine .intro hbody' htext hxmlns hattributes hunknown (hplaced'.trans hself.placed.symm) ?_
    apply forall₂_of_map_eq hmisplaced'
    intro c hc c' hsame
    apply hmisplaced c hc _ hsame
    exact hchildren c (List.mem_append_right _ hc)

/--
A document that is written from a simple field, in whatever style of white space, is read as a field with
the same kind, text and attributes and the same fields inside of it, at every depth.
-/
theorem parse_write_field {e : Element} {style : Style} {limit : Nat} (h : ∀ x ∈ e.all, x.IsSimpleField)
    (hstyle : style.IsWhite) (hlimit : e.nesting ≤ limit) (fresh : Nat) :
    ∃ e' n, parseDocument limit fresh (e.write style) = .ok (e', n) ∧ SameField e e' := by
  have hsettled : ∀ x ∈ e.all, x.Settled := by
    intro x hx
    exact (h x hx).settled
  obtain ⟨e', n, hparse, hbare⟩ := parse_write hsettled hstyle hlimit fresh
  exact ⟨e', n, hparse, sameField_of_bare h hbare⟩

/--
A name whose text has white space at both ends and all characters that are escaped, with an attribute, and
with an address inside of it that holds an empty description.
-/
def blankName : Element :=
  let description : Element := ofText 2 .description ""
  let address : Element :=
    { ofText 1 .address "\n" with head.xmlns := "", misplaced := [description.inside 1] }
  { ofText 0 .name "  ]]> & 'a' \t\n" with
    head.xmlns := "u"
    head.unknownAttributes := Attributes.ofList [("lang", "<\"\n")]
    misplaced := [address.inside 0] }

theorem parse_write_field_blank :
    ∃ e n, parseDocument 3 7 (blankName.write .pretty) = .ok (e, n) ∧ SameField blankName e := by
  have hsimple : ∀ x ∈ blankName.all, x.IsSimpleField := by
    rw [forall_mem_all]
    refine ⟨⟨⟨.name, rfl, rfl⟩, rfl, rfl, ?_⟩, List.forall_mem_singleton.mpr ?_⟩
    . exact ⟨Attributes.ofList [("lang", "<\"\n")], rfl, by decide⟩
    . rw [forall_mem_all]
      refine ⟨⟨⟨.address, rfl, rfl⟩, rfl, rfl, ∅, rfl, by decide⟩,
        List.forall_mem_singleton.mpr ?_⟩
      rw [forall_mem_all]
      refine ⟨⟨⟨.description, rfl, rfl⟩, rfl, rfl, ∅, rfl, by decide⟩, ?_⟩
      intro c hc
      cases hc
  exact parse_write_field hsimple Style.isWhite_pretty (by decide +kernel) 7

end Element

end KmlTree
