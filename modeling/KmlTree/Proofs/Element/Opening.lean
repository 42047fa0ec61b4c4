import KmlTree.Markup.Tag
import KmlTree.Proofs.Attributes.Merge
import KmlTree.Proofs.Element.Regular

/-!
This module contains the element that a start tag opens. It is a fresh element of the kind with the name
of the tag, and every attribute of the tag has gone to one of its values, to its default namespace or to
its unknown attributes.
-/

namespace KmlTree

namespace Kind

theorem mem_catalog_of_ofTag? {tag : String} {kind : Kind} (h : ofTag? tag = some kind) :
    ∃ model, (tag, kind, model) ∈ catalog := by
  unfold ofTag? at h
  simp only [Option.map_eq_some_iff] at h
  obtain ⟨⟨kind', model⟩, hlookup, rfl⟩ := h
  obtain ⟨before, after, hcatalog, _⟩ := List.lookup_eq_some_iff.mp hlookup
  refine ⟨model, ?_⟩
  rw [hcatalog]
  simp

theorem tag?_of_ofTag? {tag : String} {kind : Kind} (h : ofTag? tag = some kind) :
    kind.tag? = some tag := by
  have hall : ∀ entry ∈ catalog, entry.2.1.tag? = some entry.1 := by
    decide
  obtain ⟨model, hmem⟩ := mem_catalog_of_ofTag? h
  exact hall _ hmem

theorem ofTag?_of_tag? {tag : String} {kind : Kind} (h : kind.tag? = some tag) :
    ofTag? tag = some kind := by
  have hall : ∀ entry ∈ catalog, ofTag? entry.1 = some entry.2.1 := by
    decide
  unfold tag? entry? at h
  simp only [Option.map_eq_some_iff] at h
  obtain ⟨entry, hfind, rfl⟩ := h
  have hkind := List.find?_some hfind
  simp only [beq_iff_eq] at hkind
  rw [← hkind]
  exact hall entry (List.mem_of_find?_eq_some hfind)

theorem exists_create? {tag : String} {kind : Kind} (fresh : Nat) (h : ofTag? tag = some kind) :
    ∃ e, Element.create? fresh kind = some e := by
  have htag := tag?_of_ofTag? h
  cases kind with
  | unknown | object | feature | container | geometry => simp [tag?, entry?, catalog] at htag
  | _ => exact ⟨_, rfl⟩

end Kind

namespace Element

theorem create?_spec {fresh : Nat} {kind : Kind} {e : Element} (h : create? fresh kind = some e) :
    ∃ body, body.kind = kind ∧ body.isListed = true ∧ e = ofBody fresh body := by
  cases kind with
  | unknown | object | feature | container | geometry =>
    simp [create?, Kind.isSimple, Kind.contentModel?, Kind.entry?, Kind.catalog] at h
  | _ =>
    cases h
    exact ⟨_, rfl, rfl, rfl⟩

end Element

def Attributes.nonempty? (a : Attributes) : Option Attributes :=
  if a.isEmpty then none else some a

namespace Element

def openWith (e : Element) (a : Attributes) : Element :=
  let (xmlns, rest) := a.cut "xmlns"
  let e :=
    match xmlns with
    | some xmlns => e.setXmlns xmlns
    | none => e
  e.takeAttributes rest

theorem openWith_ofBody (fresh : Nat) (body : Body) (a : Attributes) :
    (ofBody fresh body).openWith a
      = ⟨⟨fresh, none, a.get? "xmlns", "", [], (body.takeAttributes (a.erase "xmlns")).2.nonempty?⟩,
        (body.takeAttributes (a.erase "xmlns")).1, [], []⟩ := by
  unfold openWith Attributes.cut takeAttributes Head.keepAttributes Attributes.nonempty?
  cases a.get? "xmlns" with
  | none =>
    dsimp only [ofBody]
    split <;> rfl
  | some xmlns =>
    dsimp only [ofBody, setXmlns]
    split <;> rfl

end Element

namespace Attributes

theorem nonempty?_eq_some {a b : Attributes} : a.nonempty? = some b ↔ b.isEmpty = false ∧ b = a := by
  unfold nonempty?
  split
  . next h =>
    simp only [reduceCtorEq, false_iff, not_and]
    intro hb heq
    rw [heq, h] at hb
    cases hb
  . next h =>
    simp only [Bool.not_eq_true] at h
    constructor
    . intro heq
      cases heq
      exact ⟨h, rfl⟩
    . intro heq
      rw [heq.2]

theorem get?_nonempty? (a : Attributes) (name : String) :
    (a.nonempty?.bind fun bag => bag.get? name) = a.get? name := by
  unfold nonempty?
  split
  . next hempty =>
    unfold isEmpty at hempty
    unfold get?
    simp only [List.isEmpty_iff] at hempty
    simp [hempty]
  . rfl

end Attributes

theorem Head.get?_putAttributes (head : Head) (bag : Attributes) (name : String) :
    (head.putAttributes bag).get? name
      = (head.unknownAttributes.bind fun unknown => unknown.get? name).or
          ((bag.set? "xmlns" head.xmlns).get? name) := by
  unfold putAttributes
  cases head.unknownAttributes with
  | none => rfl
  | some unknown => exact Attributes.get?_merge _ _ _

theorem Kind.xmlns_notMem_attributeNames (kind : Kind) : "xmlns" ∉ kind.attributeNames := by
  cases kind <;> decide

namespace Body

/--
The names of the attributes that a body has values for.
-/
def attributeNames : Body → List String
  | kml _ => ["hint"]
  | feature _ _ | point _ | lineString _ _ => ["id", "targetId"]
  | _ => []

theorem kind_of_attributeNames {body : Body} {name : String} (h : name ∈ body.attributeNames) :
    name ∈ body.kind.attributeNames := by
  cases body with
  | feature form => cases form <;> exact h
  | kml | point | lineString => exact h
  | _ => cases h

theorem attributeNames_of_isListed {body : Body} (h : body.isListed = true) :
    body.kind.attributeNames = body.attributeNames := by
  cases body with
  | feature form => cases form <;> rfl
  | field kind =>
    unfold isListed at h
    cases kind <;> first | rfl | cases h
  | fragment | foreign => cases h
  | _ => rfl

/--
What is left of a bag are the attributes that the body has no values for.
-/
theorem takeAttributes_snd (body : Body) (a : Attributes) :
    (body.takeAttributes a).2 = a.eraseAll body.attributeNames := by
  cases body <;> rfl

theorem get?_takeAttributes {body : Body} (h : body.isListed = true) (a : Attributes) (name : String) :
    (body.takeAttributes a).2.get? name
      = if name ∈ body.kind.attributeNames then none else a.get? name := by
  rw [takeAttributes_snd, Attributes.get?_eraseAll, attributeNames_of_isListed h]

end Body

namespace Element

theorem get?_putAttributes_create {fresh : Nat} {kind : Kind} {e : Element}
    (h : create? fresh kind = some e) (a : Attributes) (name : String) :
    ((e.body.takeAttributes a).1.putAttributes ∅).get? name
      = if name ∈ kind.attributeNames then a.get? name else none := by
  cases kind with
  | unknown | object | feature | container | geometry =>
    simp [create?, Kind.isSimple, Kind.contentModel?, Kind.entry?, Kind.catalog] at h
  | kml =>
    cases h
    simp [ofBody, Body.takeAttributes, Attributes.cut, Body.putAttributes, Kind.attributeNames,
      Attributes.get?_set?]
    grind
  | document | folder | placemark | point | lineString =>
    cases h
    simp [ofBody, Body.takeAttributes, Body.object?, ObjectFields.takeAttributes, Attributes.cut,
      Body.putAttributes, Body.updateObject, ObjectFields.putAttributes, Kind.attributeNames,
      FeatureFields.empty, GeometryFields.empty, ObjectFields.empty, Attributes.get?_set?,
      Attributes.get?_erase]
    grind
  | _ =>
    cases h
    rfl

/--
What an element that has just been opened has of the attributes of its start tag.
-/
theorem get?_attributes_openWith {fresh : Nat} {kind : Kind} {e : Element}
    (h : create? fresh kind = some e) (a : Attributes) (name : String) :
    (e.openWith a).attributes.get? name = a.get? name := by
  obtain ⟨body, hkind, hlisted, rfl⟩ := create?_spec h
  have hbody := get?_putAttributes_create h (a.erase "xmlns")
  have hxmlns := kind.xmlns_notMem_attributeNames
  rw [openWith_ofBody]
  unfold attributes putAttributes
  dsimp only [ofBody] at hbody ⊢
  rw [Head.get?_putAttributes]
  dsimp only
  rw [Attributes.get?_nonempty?]
  rw [Body.get?_takeAttributes hlisted]
  rw [Attributes.get?_set?]
  rw [hbody]
  rw [hbody]
  simp only [Attributes.get?_erase]
  rw [hkind]
  by_cases hname : name = "xmlns"
  . rw [hname]
    simp [hxmlns]
  . by_cases hmem : name ∈ kind.attributeNames
    . simp [hname, hmem]
    . simp [hname, hmem]

theorem regular_openWith {fresh : Nat} {kind : Kind} {e : Element} (h : create? fresh kind = some e)
    (a : Attributes) : (e.openWith a).Regular := by
  obtain ⟨body, hkind, hlisted, rfl⟩ := create?_spec h
  rw [openWith_ofBody]
  refine ⟨?_, ?_, ?_, ?_, ?_⟩
  . exact (Body.isListed_takeAttributes _ _).trans hlisted
  . intro c hc
    cases hc
  . exact Or.inr (Nat.zero_le 1)
  . intro c hc
    cases hc
  . intro bag hbag
    obtain ⟨hrest, rfl⟩ := Attributes.nonempty?_eq_some.mp hbag
    refine ⟨hrest, ?_⟩
    intro name hname
    have hsome := mt Attributes.get?_eq_none.mp (not_not_intro hname)
    rw [Body.get?_takeAttributes hlisted, Attributes.get?_erase] at hsome
    constructor
    . rintro rfl
      simp at hsome
    . intro hmem
      dsimp only [Element.kind] at hmem
      rw [Body.kind_takeAttributes] at hmem
      exact hsome (if_pos hmem)

end Element

namespace Tag

def isKnown (t : Tag) : Bool := (Kind.ofTag? t.name).isSome

def open? (fresh : Nat) (t : Tag) : Option Element := do
  let kind ← Kind.ofTag? t.name
  let element ← Element.create? fresh kind
  let attributes ← t.attributes.toOption
  return element.openWith attributes

theorem open?_spec {fresh : Nat} {t : Tag} {e : Element} (h : t.open? fresh = some e) :
    ∃ body attributes, Kind.ofTag? t.name = some body.kind
      ∧ Element.create? fresh body.kind = some (.ofBody fresh body)
      ∧ t.attributes = .ok attributes ∧ e = (Element.ofBody fresh body).openWith attributes := by
  unfold open? at h
  simp only [Option.bind_eq_bind, Option.bind_eq_some_iff, Option.pure_def, Option.some.injEq] at h
  obtain ⟨kind, hkind, created, hcreate, attributes, hattributes, rfl⟩ := h
  obtain ⟨body, rfl, _, rfl⟩ := Element.create?_spec hcreate
  refine ⟨body, attributes, hkind, hcreate, ?_, rfl⟩
  cases ha : t.attributes with
  | error e => simp [ha, Except.toOption] at hattributes
  | ok a => simpa [ha, Except.toOption] using hattributes

theorem tag?_of_open? {fresh : Nat} {t : Tag} {e : Element} (h : t.open? fresh = some e) :
    e.kind.tag? = some t.name := by
  obtain ⟨body, attributes, hkind, _, _, rfl⟩ := open?_spec h
  rw [Element.openWith_ofBody]
  rw [← Kind.tag?_of_ofTag? hkind]
  exact congrArg Kind.tag? (Body.kind_takeAttributes body _)

end Tag

end KmlTree
