import KmlTree.Proofs.Element.Opening
import Mathlib.Data.List.Induction

/-!
This module contains what a start tag with the attributes of a regular element opens: an element with the
same attributes at the same places and nothing else (`Element.openWith_attributes`).
-/

namespace KmlTree

/--
A body with the attributes of another one and no other values.
-/
def Body.blank : Body → Body
  | kml hint => .kml hint
  | feature form fields => .feature form { FeatureFields.empty with object := fields.object }
  | point fields => .point { GeometryFields.empty with object := fields.object }
  | lineString fields _ => .lineString { GeometryFields.empty with object := fields.object } none
  | coordinates _ _ => .coordinates [] []
  | body => body

def Head.reopened (h : Head) (id : Nat) : Head :=
  { Head.new id with xmlns := h.xmlns, unknownAttributes := h.unknownAttributes }

namespace Attributes

theorem filter_entries_erase (a : Attributes) (name : String) (p : String × String → Bool) :
    (a.erase name).entries.filter p
      = a.entries.filter fun entry => p entry && entry.1 != name := by
  unfold erase
  rw [List.filter_filter]

end Attributes

theorem ObjectFields.takeAttributes_empty {o : ObjectFields} {a : Attributes}
    (h : ∀ name ∈ ["id", "targetId"], a.get? name = (o.putAttributes ∅).get? name) :
    (empty.takeAttributes a).1 = o := by
  have hid := h "id" (by simp)
  have htargetId := h "targetId" (by simp)
  simp only [putAttributes, Attributes.get?_set?, Attributes.get?_empty] at hid htargetId
  simp [takeAttributes, Attributes.cut, Attributes.get?_erase, empty, hid, htargetId]

namespace Body

theorem entries_takeAttributes {body : Body} (h : body.isListed = true) (a : Attributes) :
    (body.takeAttributes a).2.entries
      = a.entries.filter fun entry => !body.kind.attributeNames.contains entry.1 := by
  rw [takeAttributes_snd, Attributes.entries_eraseAll, attributeNames_of_isListed h]

theorem get?_putAttributes {body : Body} {name : String} (h : name ∉ body.attributeNames) :
    (body.putAttributes ∅).get? name = none := by
  cases body with
  | kml hint =>
    have hne : name ≠ "hint" := by
      simpa [attributeNames] using h
    simp [putAttributes, Attributes.get?_set?, hne]
  | feature | point | lineString =>
    have hne : name ≠ "id" ∧ name ≠ "targetId" := by
      simpa [attributeNames] using h
    simp [putAttributes, object?, ObjectFields.putAttributes, Attributes.get?_set?, hne]
  | _ => rfl

theorem mem_attributeNames {body : Body} {name : String} (h : name ∈ (body.putAttributes ∅).names) :
    name ∈ body.attributeNames := by
  by_contra hnot
  exact Attributes.get?_eq_none.mp (get?_putAttributes hnot) h

theorem kind_attributeNames {body : Body} {name : String} (h : name ∈ (body.putAttributes ∅).names) :
    name ∈ body.kind.attributeNames :=
  kind_of_attributeNames (mem_attributeNames h)

theorem xmlns_notMem_attributeNames (body : Body) : "xmlns" ∉ body.attributeNames :=
  mt kind_of_attributeNames body.kind.xmlns_notMem_attributeNames

end Body

namespace Element

variable {e : Element}

theorem Regular.entries_attributes (h : e.Regular) :
    e.attributes.entries
      = (e.body.putAttributes ∅).entries ++ (e.head.xmlns.map ("xmlns", ·)).toList
        ++ (e.head.unknownAttributes.map Attributes.entries).getD [] := by
  have hxmlns : "xmlns" ∉ (e.body.putAttributes ∅).names := by
    intro hmem
    exact e.body.kind.xmlns_notMem_attributeNames (Body.kind_attributeNames hmem)
  have hset := Attributes.entries_set? e.head.xmlns hxmlns
  unfold attributes putAttributes Head.putAttributes
  dsimp only
  cases hunknown : e.head.unknownAttributes with
  | none =>
    dsimp only
    rw [hset]
    simp
  | some bag =>
    dsimp only
    obtain ⟨_, hnames⟩ := h.unknown bag hunknown
    rw [Attributes.entries_merge, hset]
    . rfl
    . intro name hname hbag
      obtain ⟨hne, hnot⟩ := hnames name hbag
      unfold Attributes.names at hname
      rw [hset, List.map_append, List.mem_append] at hname
      cases hname with
      | inl hown => exact hnot (Body.kind_attributeNames hown)
      | inr hdefault =>
        cases hx : e.head.xmlns with
        | none => simp [hx] at hdefault
        | some xmlns =>
          simp [hx] at hdefault
          exact hne hdefault

/--
The unknown attributes of a regular element have other names than the ones it has values for.
-/
theorem Regular.get?_unknownAttributes (h : e.Regular) {name : String}
    (hname : name = "xmlns" ∨ name ∈ e.kind.attributeNames) :
    (e.head.unknownAttributes.bind fun bag => bag.get? name) = none := by
  cases hunknown : e.head.unknownAttributes with
  | none => rfl
  | some bag =>
    apply Attributes.get?_eq_none.mpr
    intro hmem
    obtain ⟨hne, hnot⟩ := (h.unknown bag hunknown).2 name hmem
    cases hname with
    | inl hxmlns => exact hne hxmlns
    | inr hown => exact hnot hown

theorem Regular.get?_attributes (h : e.Regular) {name : String} (hname : name ∈ e.kind.attributeNames) :
    e.attributes.get? name = (e.body.putAttributes ∅).get? name := by
  have hxmlns : name ≠ "xmlns" := by
    rintro rfl
    exact e.kind.xmlns_notMem_attributeNames hname
  unfold attributes putAttributes
  rw [Head.get?_putAttributes, h.get?_unknownAttributes (Or.inr hname), Option.none_or,
    Attributes.get?_set?, if_neg hxmlns]

theorem Regular.get?_xmlns (h : e.Regular) : e.attributes.get? "xmlns" = e.head.xmlns := by
  have hown := Body.get?_putAttributes e.body.xmlns_notMem_attributeNames
  unfold attributes putAttributes
  rw [Head.get?_putAttributes, h.get?_unknownAttributes (Or.inl rfl), Option.none_or,
    Attributes.get?_set?, if_pos rfl, hown, Option.or_none]

theorem Regular.takeAttributes_create (h : e.Regular) {fresh : Nat} {e' : Element}
    (hcreate : create? fresh e.kind = some e') :
    (e'.body.takeAttributes (e.attributes.erase "xmlns")).1 = e.body.blank := by
  have hget (name : String) (hname : name ∈ e.kind.attributeNames) :
      (e.attributes.erase "xmlns").get? name = (e.body.putAttributes ∅).get? name := by
    rw [Attributes.get?_erase, if_neg, h.get?_attributes hname]
    rintro rfl
    exact e.kind.xmlns_notMem_attributeNames hname
  have hlisted := h.listed
  unfold kind at hcreate hget
  cases hbody : e.body with
  | kml hint =>
    rw [hbody] at hcreate hget
    have hhint := hget "hint" (by simp [Body.kind, Kind.attributeNames])
    cases hcreate
    simp [ofBody, Body.takeAttributes, Attributes.cut, Body.blank, hhint, Body.putAttributes,
      Attributes.get?_set?]
  | feature form fields =>
    rw [hbody] at hcreate hget
    have hnames : form.kind.attributeNames = ["id", "targetId"] := by
      cases form <;> rfl
    have htake := ObjectFields.takeAttributes_empty (o := fields.object) (hnames ▸ hget)
    cases form <;>
    . cases hcreate
      simp [ofBody, Body.takeAttributes, Body.object?, Body.updateObject, Body.blank,
        FeatureFields.empty, htake]
  | point fields =>
    rw [hbody] at hcreate hget
    have htake := ObjectFields.takeAttributes_empty (o := fields.object) hget
    cases hcreate
    simp [ofBody, Body.takeAttributes, Body.object?, Body.updateObject, Body.blank,
      GeometryFields.empty, htake]
  | lineString fields tessellate =>
    rw [hbody] at hcreate hget
    have htake := ObjectFields.takeAttributes_empty (o := fields.object) hget
    cases hcreate
    simp [ofBody, Body.takeAttributes, Body.object?, Body.updateObject, Body.blank,
      GeometryFields.empty, htake]
  | coordinates positions skipped =>
    rw [hbody] at hcreate
    cases hcreate
    rfl
  | field kind' =>
    rw [hbody] at hcreate hlisted
    have hfield : create? fresh kind' = some (ofBody fresh (.field kind')) := by
      unfold Body.isListed at hlisted
      cases kind' <;> first | rfl | cases hlisted
    have hsame : (Body.field kind').kind = kind' := by
      rfl
    rw [hsame, hfield] at hcreate
    cases hcreate
    rfl
  | fragment markup =>
    rw [hbody] at hlisted
    cases hlisted
  | foreign kind' others =>
    rw [hbody] at hlisted
    cases hlisted

theorem Regular.rest_takeAttributes (h : e.Regular) {body : Body} (hbody : body.isListed = true)
    (hkind : body.kind = e.kind) :
    (body.takeAttributes (e.attributes.erase "xmlns")).2.entries
      = (e.head.unknownAttributes.map Attributes.entries).getD [] := by
  have hown : (e.body.putAttributes ∅).entries.filter
      (fun entry => !e.kind.attributeNames.contains entry.1 && entry.1 != "xmlns") = [] := by
    rw [List.filter_eq_nil_iff]
    intro entry hentry
    have hname := Body.kind_attributeNames (List.mem_map_of_mem hentry)
    have hcontains : e.kind.attributeNames.contains entry.1 = true := by
      rw [List.contains_iff_mem]
      exact hname
    rw [hcontains]
    simp
  have hxmlns : (e.head.xmlns.map ("xmlns", ·)).toList.filter
      (fun entry => !e.kind.attributeNames.contains entry.1 && entry.1 != "xmlns") = [] := by
    rw [List.filter_eq_nil_iff]
    intro entry hentry
    simp only [Option.mem_toList, Option.map_eq_some_iff] at hentry
    obtain ⟨value, _, rfl⟩ := hentry
    simp
  rw [Body.entries_takeAttributes hbody, Attributes.filter_entries_erase, hkind,
    h.entries_attributes, List.filter_append, List.filter_append, hown, hxmlns]
  simp only [List.nil_append]
  cases hunknown : e.head.unknownAttributes with
  | none => rfl
  | some bag =>
    simp only [Option.map_some, Option.getD_some]
    rw [List.filter_eq_self]
    intro entry hentry
    obtain ⟨hne, hnot⟩ := (h.unknown bag hunknown).2 entry.1 (List.mem_map_of_mem hentry)
    have hcontains : e.kind.attributeNames.contains entry.1 = false := by
      rw [← Bool.not_eq_true, List.contains_iff_mem]
      exact hnot
    rw [hcontains]
    simpa using hne

theorem Regular.openWith_attributes (h : e.Regular) {fresh : Nat} {e' : Element}
    (hcreate : create? fresh e.kind = some e') :
    e'.openWith e.attributes = ⟨e.head.reopened fresh, e.body.blank, [], []⟩ := by
  have hbody := h.takeAttributes_create hcreate
  obtain ⟨body, hkind, hlisted, rfl⟩ := create?_spec hcreate
  have hrest := h.rest_takeAttributes hlisted hkind
  have hunknown : (body.takeAttributes (e.attributes.erase "xmlns")).2.nonempty?
      = e.head.unknownAttributes := by
    cases hbag : e.head.unknownAttributes with
    | none =>
      rw [hbag] at hrest
      have hempty : (body.takeAttributes (e.attributes.erase "xmlns")).2.isEmpty = true := by
        unfold Attributes.isEmpty
        rw [hrest]
        rfl
      exact if_pos hempty
    | some bag =>
      rw [hbag] at hrest
      rw [Attributes.nonempty?_eq_some]
      have hsame : (body.takeAttributes (e.attributes.erase "xmlns")).2 = bag := Attributes.ext hrest
      rw [hsame]
      exact ⟨(h.unknown bag hbag).1, rfl⟩
  dsimp only [ofBody] at hbody
  rw [openWith_ofBody, hbody, h.get?_xmlns, hunknown]
  rfl

end Element

end KmlTree
