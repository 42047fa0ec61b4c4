import KmlTree.Proofs.Attributes.Merge
import KmlTree.Proofs.Element.Reopening
import KmlTree.Proofs.Workspace.Invariant

/-!
This module contains the laws of the attributes of elements: bags are taken in one after the other as if
they were merged, and what is put into a bag is merged into it. What an element has values for is not among
its unknown attributes, whatever is done to it (`Workspace.attribute_laws`).
-/

namespace KmlTree

namespace Body

/--
A new body of the same type, without any values.
-/
def fresh : Body → Body
  | kml _ => .kml none
  | feature form _ => .feature form .empty
  | point _ => .point .empty
  | lineString _ _ => .lineString .empty none
  | coordinates _ _ => .coordinates [] []
  | body => body

theorem create?_fresh {body : Body} (h : body.isListed = true) (id : Nat) :
    Element.create? id body.kind = some (.ofBody id body.fresh) := by
  cases body with
  | feature form => cases form <;> rfl
  | field kind =>
    unfold isListed at h
    cases kind <;> first | rfl | cases h
  | fragment | foreign => cases h
  | _ => rfl

variable {body body' : Body}

/--
What a body has values for depends on its class and on the class of its children.
-/
theorem attributeNames_eq (body : Body) : body.attributeNames =
    match body.class?, body.place? with
    | some .feature, _ | some .geometry, _ => ["id", "targetId"]
    | none, some _ => ["hint"]
    | _, _ => [] := by
  cases body <;> rfl

theorem attributeNames_congr (hclass : body'.class? = body.class?)
    (hplace : body'.place? = body.place?) : body'.attributeNames = body.attributeNames := by
  rw [attributeNames_eq, attributeNames_eq, hclass, hplace]

theorem attributeNames_takeAttributes (body : Body) (a : Attributes) :
    (body.takeAttributes a).1.attributeNames = body.attributeNames := by
  cases body <;> rfl

end Body

theorem ObjectFields.takeAttributes_merge (o : ObjectFields) (a b : Attributes) :
    ((o.takeAttributes a).1.takeAttributes b).1 = (o.takeAttributes (a.merge b)).1 := by
  simp [takeAttributes, Attributes.cut, Attributes.get?_erase, Attributes.get?_merge, Option.or_assoc]

theorem Body.takeAttributes_merge (body : Body) (a b : Attributes) :
    ((body.takeAttributes a).1.takeAttributes b).1 = (body.takeAttributes (a.merge b)).1 := by
  cases body with
  | kml hint =>
    simp [takeAttributes, Attributes.cut, Attributes.get?_merge, Option.or_assoc]
  | feature form fields =>
    have h := fields.object.takeAttributes_merge a b
    simp [takeAttributes, object?, updateObject, h]
  | point fields =>
    have h := fields.object.takeAttributes_merge a b
    simp [takeAttributes, object?, updateObject, h]
  | lineString fields tessellate =>
    have h := fields.object.takeAttributes_merge a b
    simp [takeAttributes, object?, updateObject, h]
  | _ => rfl

namespace Head

variable (h : Head) (a b s : Attributes)

theorem keepAttributes_empty : h.keepAttributes ∅ = h := by
  rfl

theorem keepAttributes_of_ne {a : Attributes} (ha : a ≠ ∅) :
    h.keepAttributes a
      = { h with unknownAttributes := some ((h.unknownAttributes.getD ∅).merge a) } := by
  unfold keepAttributes
  rw [if_neg (mt Attributes.isEmpty_iff.mp ha)]
  cases h.unknownAttributes with
  | none =>
    dsimp only [Option.getD_none]
    rw [Attributes.empty_merge]
  | some unknown => rfl

theorem keepAttributes_merge :
    (h.keepAttributes a).keepAttributes b = h.keepAttributes (a.merge b) := by
  by_cases ha : a = ∅
  . rw [ha, keepAttributes_empty, Attributes.empty_merge]
  . by_cases hb : b = ∅
    . rw [hb, keepAttributes_empty, Attributes.merge_empty]
    . rw [keepAttributes_of_ne _ ha, keepAttributes_of_ne _ hb,
        keepAttributes_of_ne _ (Attributes.merge_ne_empty ha b)]
      dsimp only [Option.getD_some]
      rw [Attributes.merge_assoc]

theorem putAttributes_empty :
    h.putAttributes ∅
      = ((∅ : Attributes).set? "xmlns" h.xmlns).merge (h.unknownAttributes.getD ∅) := by
  unfold putAttributes
  cases h.unknownAttributes <;> rfl

/--
What a new head has kept is all that it lists.
-/
theorem putAttributes_keepAttributes_new (id : Nat) :
    ((new id).keepAttributes a).putAttributes ∅ = a := by
  by_cases ha : a = ∅
  . rw [ha]
    rfl
  . rw [keepAttributes_of_ne _ ha, putAttributes_empty]
    exact (Attributes.empty_merge _).trans (Attributes.empty_merge a)

theorem putAttributes_eq : h.putAttributes s = s.merge (h.putAttributes ∅) := by
  unfold putAttributes
  dsimp only
  rw [Attributes.set?_eq_merge]
  cases h.unknownAttributes with
  | none => rfl
  | some unknown => exact Attributes.merge_assoc _ _ _

end Head

theorem ObjectFields.putAttributes_eq (o : ObjectFields) (s : Attributes) :
    o.putAttributes s = s.merge (o.putAttributes ∅) := by
  unfold putAttributes
  rw [Attributes.set?_eq_merge, Attributes.set?_eq_merge s, Attributes.merge_assoc,
    ← Attributes.set?_eq_merge]

theorem Body.putAttributes_eq (body : Body) (s : Attributes) :
    body.putAttributes s = s.merge (body.putAttributes ∅) := by
  cases body with
  | kml hint => exact s.set?_eq_merge "hint" hint
  | feature form fields => exact fields.object.putAttributes_eq s
  | point fields => exact fields.object.putAttributes_eq s
  | lineString fields tessellate => exact fields.object.putAttributes_eq s
  | _ => rfl

namespace Element

variable (e : Element) (a b s : Attributes)

/--
Taking in two bags one after the other is taking in the second one merged into the first.
-/
theorem takeAttributes_merge : (e.takeAttributes a).takeAttributes b = e.takeAttributes (a.merge b) := by
  have hbody := e.body.takeAttributes_merge a b
  have hrest : (e.body.takeAttributes (a.merge b)).2
      = (e.body.takeAttributes a).2.merge ((e.body.takeAttributes a).1.takeAttributes b).2 := by
    rw [Body.takeAttributes_snd, Body.takeAttributes_snd, Body.takeAttributes_snd,
      Body.attributeNames_takeAttributes, Attributes.eraseAll_merge]
  unfold takeAttributes
  dsimp only
  rw [hbody, hrest, Head.keepAttributes_merge]

theorem putAttributes_eq : e.putAttributes s = s.merge e.attributes := by
  unfold attributes putAttributes
  rw [Head.putAttributes_eq, Body.putAttributes_eq, Attributes.merge_assoc, ← Head.putAttributes_eq]

theorem attributes_eq : e.attributes = (e.body.putAttributes ∅).merge (e.head.putAttributes ∅) :=
  e.head.putAttributes_eq _

/--
Whether an element has no value for any of its unknown attributes.
-/
def Separate (e : Element) : Prop :=
  ∀ bag, e.head.unknownAttributes = some bag → ∀ name ∈ e.body.attributeNames, name ∉ bag.names

namespace Separate

variable {e e' : Element}

theorem congr (h : e.Separate) (hunknown : e'.head.unknownAttributes = e.head.unknownAttributes)
    (hclass : e'.body.class? = e.body.class?) (hplace : e'.body.place? = e.body.place?) :
    e'.Separate := by
  intro bag hbag
  rw [Body.attributeNames_congr hclass hplace]
  apply h
  rw [← hunknown]
  exact hbag

theorem of_unknown (h : e.head.unknownAttributes = none) : e.Separate := by
  intro bag hbag
  rw [h] at hbag
  cases hbag

theorem of_regular (h : e.Regular) : e.Separate := by
  intro bag hbag name hname hmem
  exact ((h.unknown bag hbag).2 name hmem).2 (Body.kind_of_attributeNames hname)

theorem takeAttributes (h : e.Separate) (a : Attributes) : (e.takeAttributes a).Separate := by
  have hrest : ∀ name ∈ e.body.attributeNames, name ∉ (e.body.takeAttributes a).2.names := by
    intro name hname hmem
    rw [Body.takeAttributes_snd, Attributes.names_eraseAll, List.mem_filter] at hmem
    simp [hname] at hmem
  intro bag hbag name hname hmem
  have hown : name ∈ e.body.attributeNames := by
    rw [← Body.attributeNames_takeAttributes e.body a]
    exact hname
  -- where nothing is left of the bag, the unknown attributes stay as they are
  by_cases hempty : (e.body.takeAttributes a).2 = ∅
  . have hkept : e.head.unknownAttributes = some bag := by
      unfold Element.takeAttributes at hbag
      dsimp only at hbag
      rw [hempty] at hbag
      exact hbag
    exact h bag hkept name hown hmem
  . unfold Element.takeAttributes at hbag
    dsimp only at hbag
    rw [Head.keepAttributes_of_ne _ hempty] at hbag
    cases hbag
    rw [Attributes.mem_names_merge] at hmem
    cases hmem with
    | inl hold =>
      cases hunknown : e.head.unknownAttributes with
      | none =>
        rw [hunknown] at hold
        cases hold
      | some unknown =>
        rw [hunknown] at hold
        exact h unknown hunknown name hown hold
    | inr hnew => exact hrest name hown hnew

end Separate

theorem localInvariant_separate : LocalInvariant Separate where
  new _ h := Separate.of_unknown h
  data he hunknown hclass hplace := he.congr hunknown hclass hplace
  placed _ he _ := he.congr rfl rfl rfl
  misplaced _ he := he.congr rfl rfl rfl
  takeAttributes a he := he.takeAttributes a
  regular h := Separate.of_regular h

end Element

/--
The attributes that an object has values for, with the values that there are.
-/
def ObjectFields.attributePairs (o : ObjectFields) : List (String × String) :=
  (o.id.map fun id => ("id", id)).toList ++ (o.targetId.map fun id => ("targetId", id)).toList

theorem ObjectFields.entries_putAttributes (o : ObjectFields) :
    (o.putAttributes ∅).entries = o.attributePairs := by
  have hother : "targetId" ∉ ((∅ : Attributes).set? "id" o.id).names := by
    rw [← Attributes.get?_eq_none, Attributes.get?_set?, if_neg (by decide)]
    rfl
  unfold putAttributes
  rw [Attributes.entries_set? _ hother, Attributes.entries_set? _ List.not_mem_nil]
  rfl

namespace Body

/--
The attributes that a body has values for, with the values that there are: the hint of the root, and the
numbers of features and geometries.
-/
def attributePairs : Body → List (String × String)
  | kml hint => (hint.map fun hint => ("hint", hint)).toList
  | feature _ fields => fields.object.attributePairs
  | point fields => fields.object.attributePairs
  | lineString fields _ => fields.object.attributePairs
  | _ => []

theorem entries_putAttributes (body : Body) : (body.putAttributes ∅).entries = body.attributePairs := by
  cases body with
  | kml hint => exact Attributes.entries_set? hint List.not_mem_nil
  | feature form fields => exact fields.object.entries_putAttributes
  | point fields => exact fields.object.entries_putAttributes
  | lineString fields tessellate => exact fields.object.entries_putAttributes
  | _ => rfl

theorem attributeNames_fresh (body : Body) : body.fresh.attributeNames = body.attributeNames := by
  cases body <;> rfl

/--
A new body takes the values of another one from any bag that has them.
-/
theorem putAttributes_fresh {body : Body} {a : Attributes}
    (h : ∀ name ∈ body.attributeNames, a.get? name = (body.putAttributes ∅).get? name) :
    (body.fresh.takeAttributes a).1.putAttributes ∅ = body.putAttributes ∅ := by
  cases body with
  | kml hint =>
    have hhint := h "hint" (by simp [attributeNames])
    simp only [putAttributes, Attributes.get?_set?, Attributes.get?_empty, if_true] at hhint
    simp [fresh, takeAttributes, Attributes.cut, putAttributes, hhint]
  | feature form fields =>
    have htake := ObjectFields.takeAttributes_empty h
    simp [fresh, takeAttributes, object?, updateObject, FeatureFields.empty, putAttributes, htake]
  | point fields =>
    have htake := ObjectFields.takeAttributes_empty h
    simp [fresh, takeAttributes, object?, updateObject, GeometryFields.empty, putAttributes, htake]
  | lineString fields tessellate =>
    have htake := ObjectFields.takeAttributes_empty h
    simp [fresh, takeAttributes, object?, updateObject, GeometryFields.empty, putAttributes, htake]
  | _ => rfl

end Body

namespace Element

variable {e : Element}

/--
The default namespace and the unknown attributes of an element have other names than its values.
-/
theorem Separate.notMem_names (h : e.Separate) {name : String} (hname : name ∈ e.body.attributeNames) :
    name ∉ (e.head.putAttributes ∅).names := by
  have hxmlns : name ≠ "xmlns" := by
    rintro rfl
    exact e.body.xmlns_notMem_attributeNames hname
  rw [← Attributes.get?_eq_none, Head.get?_putAttributes, Attributes.get?_set?, if_neg hxmlns,
    Attributes.get?_empty, Option.or_none]
  cases hunknown : e.head.unknownAttributes with
  | none => rfl
  | some bag => exact Attributes.get?_eq_none.mpr (h bag hunknown name hname)

theorem Separate.entries_attributes (h : e.Separate) :
    e.attributes.entries
      = (e.body.putAttributes ∅).entries ++ (e.head.putAttributes ∅).entries := by
  rw [attributes_eq]
  apply Attributes.entries_merge
  intro name hname
  exact h.notMem_names (Body.mem_attributeNames hname)

theorem Separate.get?_attributes (h : e.Separate) {name : String}
    (hname : name ∈ e.body.attributeNames) :
    e.attributes.get? name = (e.body.putAttributes ∅).get? name := by
  rw [attributes_eq, Attributes.get?_merge, Attributes.get?_eq_none.mpr (h.notMem_names hname),
    Option.none_or]

theorem Separate.rest_takeAttributes (h : e.Separate) :
    (e.body.fresh.takeAttributes e.attributes).2 = e.head.putAttributes ∅ := by
  rw [Body.takeAttributes_snd, Body.attributeNames_fresh, attributes_eq, Attributes.eraseAll_merge]
  rw [Attributes.eraseAll_eq_empty fun name => Body.mem_attributeNames]
  rw [Attributes.eraseAll_eq_self fun name hmem hname => h.notMem_names hname hmem]
  rw [Attributes.empty_merge]

/--
A new element that takes in what another one of its type puts into an empty bag puts the same there.
-/
theorem Separate.attributes_takeAttributes (h : e.Separate) (id : Nat) :
    ((ofBody id e.body.fresh).takeAttributes e.attributes).attributes = e.attributes := by
  have hbody := Body.putAttributes_fresh fun name hname => h.get?_attributes hname
  have hrest := h.rest_takeAttributes
  rw [attributes_eq (Element.takeAttributes _ _)]
  unfold Element.takeAttributes ofBody
  dsimp only
  -- the values go back to their places, and the default namespace is an unknown attribute now
  rw [hbody, hrest, Head.putAttributes_keepAttributes_new]
  exact e.attributes_eq.symm

end Element

namespace Workspace

/--
Whatever is done to a workspace, of all elements in it: bags that are taken in one after the other are
taken in like the second one merged into the first, and what an element puts into a bag is merged into it.
There are no values among the unknown attributes, so that an element lists its values first, as they are,
and then its default namespace and the unknown attributes; and a new element of its type that takes in
the list has the same list.
-/
theorem attribute_laws (fresh : Nat) (actions : List Action) :
    ∀ e ∈ ((empty fresh).run actions).elements,
      (∀ a b, (e.takeAttributes a).takeAttributes b = e.takeAttributes (a.merge b))
      ∧ (∀ s, e.putAttributes s = s.merge (e.putAttributes ∅))
      ∧ (∀ bag, e.head.unknownAttributes = some bag → ∀ name ∈ e.body.attributeNames, name ∉ bag.names)
      ∧ (e.putAttributes ∅).entries = e.body.attributePairs
        ++ (((∅ : Attributes).set? "xmlns" e.head.xmlns).merge
          (e.head.unknownAttributes.getD ∅)).entries
      ∧ ∀ id, ((Element.ofBody id e.body.fresh).takeAttributes (e.putAttributes ∅)).putAttributes ∅
        = e.putAttributes ∅ := by
  intro e he
  have hseparate : e.Separate := elements_run Element.localInvariant_separate fresh actions e he
  refine ⟨e.takeAttributes_merge, e.putAttributes_eq, hseparate, ?_, ?_⟩
  . rw [← e.body.entries_putAttributes, ← e.head.putAttributes_empty]
    exact hseparate.entries_attributes
  . exact hseparate.attributes_takeAttributes

theorem attribute_laws_kml_folder :
    let w := (empty 0).run [.command (.create "a" .kml),
      .command (.takeAttributes "a" (.ofList [("xmlns", "x"), ("hint", "h"), ("b", "1")])),
      .command (.setXmlns "a" "y"), .command (.create "f" .folder),
      .command (.takeAttributes "f" (.ofList [("b", "1"), ("targetId", "t"), ("id", "f1")]))]
    let kml : Element :=
      ⟨⟨0, none, "y", "", [], some (.ofList [("xmlns", "x"), ("b", "1")])⟩, .kml "h", [], []⟩
    let folder : Element :=
      ⟨⟨1, none, none, "", [], some (.ofList [("b", "1")])⟩,
        .feature .folder { FeatureFields.empty with object := ⟨"f1", "t"⟩ }, [], []⟩
    kml ∈ w.elements ∧ folder ∈ w.elements
      ∧ (kml.putAttributes ∅).entries = [("hint", "h"), ("xmlns", "x"), ("b", "1")]
      ∧ (folder.putAttributes ∅).entries = [("id", "f1"), ("targetId", "t"), ("b", "1")]
      ∧ "hint" ∉ (Attributes.ofList [("xmlns", "x"), ("b", "1")]).names
      ∧ "id" ∉ (Attributes.ofList [("b", "1")]).names
      ∧ ((Element.ofBody 5 (.kml none)).takeAttributes (kml.putAttributes ∅)).putAttributes ∅
        = kml.putAttributes ∅
      ∧ ((Element.ofBody 5 (.feature .folder .empty)).takeAttributes (folder.putAttributes ∅)).putAttributes ∅
        = folder.putAttributes ∅ := by
  intro w kml folder
  have hall : w.elements = [kml, folder] := by
    rfl
  have hkml : kml ∈ w.elements := by
    rw [hall]
    exact List.mem_cons_self
  have hfolder : folder ∈ w.elements := by
    rw [hall]
    exact List.mem_cons_of_mem _ (List.mem_singleton_self folder)
  obtain ⟨_, _, hseparate, hentries, hagain⟩ := attribute_laws 0 _ kml hkml
  obtain ⟨_, _, hseparate', hentries', hagain'⟩ := attribute_laws 0 _ folder hfolder
  refine ⟨hkml, hfolder, ?_, ?_, ?_, ?_, hagain 5, hagain' 5⟩
  . rw [hentries]
    rfl
  . rw [hentries']
    rfl
  . exact hseparate _ rfl "hint" (List.mem_singleton_self _)
  . exact hseparate' _ rfl "id" List.mem_cons_self

end Workspace

end KmlTree
