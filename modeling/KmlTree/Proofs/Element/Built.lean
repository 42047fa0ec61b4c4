import KmlTree.Proofs.Element.Regular
import KmlTree.Workspace.Command

/-!
This module contains the elements that are made without reading any markup (`Element.Built`), and what
all of them have in common (`Element.Typed`): everything in them has its place.
-/

namespace KmlTree

namespace Body

def positions : Body → List Position
  | coordinates positions _ => positions
  | _ => []

def skipped : Body → List String
  | coordinates _ skipped => skipped
  | _ => []

/--
Whether two bodies have the same places for children.
-/
structure SamePlaces (a b : Body) : Prop where
  isListed : b.isListed = a.isListed
  class? : b.class? = a.class?
  place? : b.place? = a.place?
  isContainer : b.isContainer = a.isContainer

theorem updateFeature?_spec {body new : Body} {f : FeatureFields → FeatureFields}
    (h : body.updateFeature? f = some new) : SamePlaces body new ∧ new.skipped = body.skipped := by
  cases body with
  | feature =>
    cases h
    exact ⟨⟨rfl, rfl, rfl, rfl⟩, rfl⟩
  | _ => cases h

theorem updateGeometry?_spec {body new : Body} {f : GeometryFields → GeometryFields}
    (h : body.updateGeometry? f = some new) : SamePlaces body new ∧ new.skipped = body.skipped := by
  cases body with
  | point | lineString =>
    cases h
    exact ⟨⟨rfl, rfl, rfl, rfl⟩, rfl⟩
  | _ => cases h

theorem updateObject?_spec {body new : Body} {f : ObjectFields → ObjectFields}
    (h : body.updateObject? f = some new) : SamePlaces body new ∧ new.skipped = body.skipped := by
  cases body with
  | feature | point | lineString =>
    cases h
    exact ⟨⟨rfl, rfl, rfl, rfl⟩, rfl⟩
  | _ => cases h

theorem assign?_spec {body new : Body} {s : Setting} (h : body.assign? s = some new) :
    SamePlaces body new ∧ new.skipped = body.skipped := by
  cases s with
  | id | targetId => exact updateObject?_spec h
  | hint =>
    cases body with
    | kml =>
      cases h
      exact ⟨⟨rfl, rfl, rfl, rfl⟩, rfl⟩
    | _ => cases h
  | name | visibility | opened | address | description | styleUrl => exact updateFeature?_spec h
  | extrude | altitudeMode => exact updateGeometry?_spec h
  | tessellate =>
    cases body with
    | lineString =>
      cases h
      exact ⟨⟨rfl, rfl, rfl, rfl⟩, rfl⟩
    | _ => cases h

theorem updatePositions?_spec {body new : Body}
    {f : List Position × List String → List Position × List String}
    (h : body.updatePositions? f = some new) :
    ∃ positions skipped, body = .coordinates positions skipped
      ∧ new = .coordinates (f (positions, skipped)).1 (f (positions, skipped)).2 := by
  cases body with
  | coordinates positions skipped =>
    cases h
    exact ⟨positions, skipped, rfl, rfl⟩
  | _ => cases h

theorem place?_of_singleClass? {body : Body} {c : ChildClass} (h : body.singleClass? = some c) :
    body.place? = some c := by
  unfold singleClass? at h
  split at h
  . cases h
  . exact h

theorem place?_of_isContainer {body : Body} (h : body.isContainer = true) :
    body.place? = some .feature := by
  cases body with
  | feature form fields =>
    unfold place?
    exact if_pos h
  | _ => cases h

end Body

namespace Element

/--
The elements that are made by the operations of their kinds: making an empty one of a kind that holds
more than text, setting its values and its default namespace, putting children in their places, and
adding positions.
-/
inductive Built : Element → Prop where
  | create {id : Nat} {kind : Kind} {e : Element} :
    kind.isComplex = true → create? id kind = some e → Built e
  | assign {e e' : Element} {s : Setting} : Built e → e.assign? s = some e' → Built e'
  | setXmlns {e : Element} (xmlns : String) : Built e → Built (e.setXmlns xmlns)
  | replaceChild {owner child e : Element} {c : ChildClass} : Built owner → Built child →
    owner.body.singleClass? = some c → child.body.class? = some c →
      owner.replaceChild? child = some e → Built e
  | clearChild {e : Element} {c : ChildClass} : Built e → e.body.singleClass? = some c →
    Built e.clearPlaced
  | appendChild {owner child e : Element} : Built owner → Built child →
    owner.body.isContainer = true → child.body.class? = some .feature →
      owner.appendChild? child = some e → Built e
  | addPosition {e e' : Element} {p : Position} : Built e → e.addPosition? p = some e' → Built e'
  | clearPositions {e e' : Element} : Built e → e.clearPositions? = some e' → Built e'

/--
Whether there is nothing in an element but its values, its children in their places and positions.
-/
structure Typed (e : Element) : Prop where
  listed : e.body.isListed = true
  placed : ∀ c ∈ e.placed, c.body.class?.isSome = true ∧ e.body.place? = c.body.class?
  single : e.body.isContainer = true ∨ e.placed.length ≤ 1
  misplaced : e.misplaced = []
  unknown : e.head.unknown = []
  unknownAttributes : e.head.unknownAttributes = none
  skipped : e.body.skipped = []

namespace Typed

variable {e : Element}

theorem regular (h : e.Typed) : e.Regular where
  listed := h.listed
  placed := h.placed
  single := h.single
  misplaced := by
    rw [h.misplaced]
    simp
  unknown := by
    intro bag hbag
    rw [h.unknownAttributes] at hbag
    cases hbag

theorem isPlain (h : e.Typed) : e.isPlain = true := by
  unfold Element.isPlain hasUnknownChildren
  rw [h.unknownAttributes, h.unknown, h.misplaced]
  rfl

theorem inside (h : e.Typed) (parent : Nat) : (e.inside parent).Typed :=
  ⟨h.listed, h.placed, h.single, h.misplaced, h.unknown, h.unknownAttributes, h.skipped⟩

end Typed

theorem typed_create {id : Nat} {kind : Kind} {e : Element} (hkind : kind.isComplex = true)
    (h : create? id kind = some e) : ∀ x ∈ e.all, x.Typed := by
  have htyped (body : Body) (hlisted : body.isListed = true) (hskipped : body.skipped = []) :
      ∀ x ∈ (ofBody id body).all, x.Typed := by
    rw [forall_mem_all]
    constructor
    . exact ⟨hlisted, by simp [ofBody], Or.inr (Nat.zero_le 1), rfl, rfl, rfl, hskipped⟩
    . intro c hc
      cases hc
  cases kind with
  | kml | document | folder | placemark | point | lineString | coordinates =>
    cases h
    exact htyped _ rfl rfl
  | _ => cases hkind

variable {owner child e : Element}

theorem typed_withBody {body : Body} (h : ∀ x ∈ e.all, x.Typed) (hplaces : e.body.SamePlaces body)
    (hskipped : body.skipped = []) : ∀ x ∈ ({ e with body := body } : Element).all, x.Typed := by
  rw [forall_mem_all] at h ⊢
  obtain ⟨hself, hchildren⟩ := h
  constructor
  . refine ⟨hplaces.isListed.trans hself.listed, ?_, ?_, hself.misplaced, hself.unknown,
      hself.unknownAttributes, hskipped⟩
    . intro c hc
      dsimp only
      rw [hplaces.place?]
      exact hself.placed c hc
    . dsimp only
      rw [hplaces.isContainer]
      exact hself.single
  . exact hchildren

theorem typed_withPlaced {placed : List Element} (h : ∀ x ∈ e.all, x.Typed)
    (hplaced : ∀ c ∈ placed, e.body.place? = c.body.class? ∧ ∀ x ∈ c.all, x.Typed)
    (hclass : e.body.place?.isSome = true) (hsingle : e.body.isContainer = true ∨ placed.length ≤ 1) :
    ∀ x ∈ ({ e with placed := placed } : Element).all, x.Typed := by
  rw [forall_mem_all] at h ⊢
  obtain ⟨hself, _⟩ := h
  constructor
  . refine ⟨hself.listed, ?_, hsingle, hself.misplaced, hself.unknown, hself.unknownAttributes,
      hself.skipped⟩
    intro c hc
    have hplace := (hplaced c hc).1
    rw [hplace] at hclass
    exact ⟨hclass, hplace⟩
  . intro c hc
    rw [hself.misplaced, List.append_nil] at hc
    exact (hplaced c hc).2

theorem typed_inside (parent : Nat) (h : ∀ x ∈ e.all, x.Typed) :
    ∀ x ∈ (e.inside parent).all, x.Typed := by
  rw [forall_mem_all] at h ⊢
  exact ⟨h.1.inside parent, h.2⟩

/--
Every element that is made without markup holds nothing but what has its place.
-/
theorem Built.typed (h : e.Built) : ∀ x ∈ e.all, x.Typed := by
  induction h with
  | create hkind hcreate => exact typed_create hkind hcreate
  | assign _ hassign ih =>
    obtain ⟨body, hbody, rfl⟩ := Option.map_eq_some_iff.mp hassign
    obtain ⟨hplaces, hskipped⟩ := Body.assign?_spec hbody
    exact typed_withBody ih hplaces (hskipped.trans (forall_mem_all.mp ih).1.skipped)
  | setXmlns xmlns _ ih =>
    rw [forall_mem_all] at ih ⊢
    obtain ⟨hself, hchildren⟩ := ih
    exact ⟨⟨hself.listed, hself.placed, hself.single, hself.misplaced, hself.unknown,
      hself.unknownAttributes, hself.skipped⟩, hchildren⟩
  | @replaceChild owner child e c _ _ hsingle hclass hreplace ihowner ihchild =>
    obtain ⟨child', hclaim, rfl⟩ := Option.map_eq_some_iff.mp hreplace
    have hplace := Body.place?_of_singleClass? hsingle
    rw [(claim?_spec hclaim).2.2]
    apply typed_withPlaced ihowner
    . intro d hd
      rw [List.mem_singleton.mp hd]
      exact ⟨hplace.trans hclass.symm, typed_inside _ ihchild⟩
    . rw [hplace]
      rfl
    . exact Or.inr (Nat.le_refl 1)
  | clearChild _ hsingle ih =>
    apply typed_withPlaced ih
    . intro d hd
      cases hd
    . rw [Body.place?_of_singleClass? hsingle]
      rfl
    . exact Or.inr (Nat.zero_le 1)
  | @appendChild owner child e _ _ hcontainer hclass happend ihowner ihchild =>
    obtain ⟨child', hclaim, rfl⟩ := Option.map_eq_some_iff.mp happend
    have hplace := Body.place?_of_isContainer hcontainer
    obtain ⟨hself, hchildren⟩ := forall_mem_all.mp ihowner
    rw [(claim?_spec hclaim).2.2]
    apply typed_withPlaced ihowner
    . intro d hd
      cases List.mem_append.mp hd with
      | inl hold =>
        exact ⟨(hself.placed d hold).2, hchildren d (List.mem_append_left _ hold)⟩
      | inr hnew =>
        rw [List.mem_singleton.mp hnew]
        exact ⟨hplace.trans hclass.symm, typed_inside _ ihchild⟩
    . rw [hplace]
      rfl
    . exact Or.inl hcontainer
  | addPosition _ hadd ih =>
    obtain ⟨body, hbody, rfl⟩ := Option.map_eq_some_iff.mp hadd
    obtain ⟨positions, skipped, hold, rfl⟩ := Body.updatePositions?_spec hbody
    have hself := (forall_mem_all.mp ih).1.skipped
    apply typed_withBody ih
    . rw [hold]
      exact ⟨rfl, rfl, rfl, rfl⟩
    . rw [hold] at hself
      exact hself
  | clearPositions _ hclear ih =>
    obtain ⟨body, hbody, rfl⟩ := Option.map_eq_some_iff.mp hclear
    obtain ⟨positions, skipped, hold, rfl⟩ := Body.updatePositions?_spec hbody
    apply typed_withBody ih
    . rw [hold]
      exact ⟨rfl, rfl, rfl, rfl⟩
    . rfl

end Element

end KmlTree
