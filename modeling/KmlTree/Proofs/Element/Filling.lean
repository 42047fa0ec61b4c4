import KmlTree.Proofs.Element.Bare
import KmlTree.Proofs.Element.Reopening

/-!
This module contains the way of the values of an element through simple elements: what they are written
as fills a blank body with the same values again (`Body.fills_values`).
-/

namespace KmlTree

/--
Whether a body is filled to another one by reading simple elements one after the other.
-/
inductive Body.Fills : Body → List Emission → Body → Prop where
  | nil (body : Body) : Fills body [] body
  | cons {body body' body'' : Body} {kind : Kind} {text : String} {es : List Emission}
    (hsimple : kind.isSimple = true)
    (habsorb : ∀ id, body.absorb? (.ofText id kind text) = some body') (hrest : Fills body' es body'') :
    Fills body (.ofText kind text :: es) body''

/--
A body without the positions that it reads from its text.
-/
def Body.unread : Body → Body
  | coordinates _ _ => .coordinates [] []
  | body => body

namespace Body

namespace Fills

variable {body body' body'' : Body} {es fs : List Emission}

theorem append (h : Fills body es body') (h' : Fills body' fs body'') : Fills body (es ++ fs) body'' := by
  induction h with
  | nil => exact h'
  | cons hsimple habsorb _ ih => exact .cons hsimple habsorb (ih h')

theorem exists_eq_ofText (h : Fills body es body') {e : Emission} (he : e ∈ es) :
    ∃ kind text, e = .ofText kind text := by
  induction h with
  | nil => cases he
  | cons _ _ _ ih =>
    cases List.mem_cons.mp he with
    | inl hfirst => exact ⟨_, _, hfirst⟩
    | inr hrest => exact ih hrest

theorem option {α : Type} (kind : Kind) (text : α → String) (put : Option α → Body)
    (value? : Option α) (hsimple : kind.isSimple = true)
    (habsorb : ∀ value id, (put none).absorb? (.ofText id kind (text value)) = some (put (some value))) :
    Fills (put none) (value?.map fun value => Emission.ofText kind (text value)).toList (put value?) := by
  cases value? with
  | none => exact .nil _
  | some value => exact .cons hsimple (habsorb value) (.nil _)

end Fills

theorem flag?_ofText (id : Nat) (kind : Kind) (value : Bool) :
    (Element.ofText id kind (flagText value)).flag? = some value := by
  have hread : readFlag? (trim (flagText value).toList) = some value := by
    cases value <;> decide
  unfold Element.flag? Element.scalar? Element.ofText Scalar.read?
  dsimp only
  rw [hread]
  rfl

theorem mode?_ofText (id : Nat) (mode : AltitudeMode) :
    (Element.ofText id .altitudeMode mode.enumerant).enumerantId?.bind AltitudeMode.ofInt?
      = some mode := by
  have hread : Kind.altitudeMode.enumerantId? (String.ofList (trim mode.enumerant.toList))
      = some mode.toInt := by
    cases mode <;> decide +kernel
  unfold Element.enumerantId? Element.scalar? Element.ofText Scalar.read?
  dsimp only
  rw [hread]
  cases mode <;> rfl

theorem ofEnumerant?_mode (mode : AltitudeMode) :
    Emission.ofEnumerant? .altitudeMode mode.toInt = some (.ofText .altitudeMode mode.enumerant) := by
  cases mode <;> rfl

theorem map_map_eq_some {α β γ : Type} {value? : Option α} {value : α} (h : value? = some value)
    (f : α → β) (g : β → γ) : (value?.map f).map g = some (g (f value)) := by
  rw [h]
  rfl

theorem fills_feature (form : FeatureForm) (f : FeatureFields) :
    Fills (.feature form { FeatureFields.empty with object := f.object }) f.emissions
      (.feature form f) := by
  obtain ⟨object, name, visibility, opened, address, description, styleUrl⟩ := f
  have hname := Fills.option .name (fun s => s)
    (fun v => .feature form ⟨object, v, none, none, none, none, none⟩) name rfl fun _ _ => rfl
  have hvisibility := Fills.option .visibility flagText
    (fun v => .feature form ⟨object, name, v, none, none, none, none⟩) visibility rfl
    fun v id => map_map_eq_some (flag?_ofText id .visibility v) _ _
  have hopened := Fills.option .opened flagText
    (fun v => .feature form ⟨object, name, visibility, v, none, none, none⟩) opened rfl
    fun v id => map_map_eq_some (flag?_ofText id .opened v) _ _
  have haddress := Fills.option .address (fun s => s)
    (fun v => .feature form ⟨object, name, visibility, opened, v, none, none⟩) address rfl
    fun _ _ => rfl
  have hdescription := Fills.option .description (fun s => s)
    (fun v => .feature form ⟨object, name, visibility, opened, address, v, none⟩) description rfl
    fun _ _ => rfl
  have hstyleUrl := Fills.option .styleUrl (fun s => s)
    (fun v => .feature form ⟨object, name, visibility, opened, address, description, v⟩) styleUrl rfl
    fun _ _ => rfl
  exact ((((hname.append hvisibility).append hopened).append haddress).append hdescription).append
    hstyleUrl

theorem fills_geometry (put put' : GeometryFields → Body) (g : GeometryFields)
    {special : List Emission}
    (hput : ∀ g e, e.isPlain = true → e.kind ≠ .tessellate →
      (put g).absorb? e = (g.absorb? e).map put)
    (hput' : ∀ g e, e.isPlain = true → e.kind ≠ .tessellate →
      (put' g).absorb? e = (g.absorb? e).map put')
    (hspecial : Fills (put ⟨g.object, g.extrude, none⟩) special (put' ⟨g.object, g.extrude, none⟩)) :
    Fills (put { GeometryFields.empty with object := g.object }) (g.emissions special) (put' g) := by
  obtain ⟨object, extrude, mode⟩ := g
  have hextrude := Fills.option .extrude flagText (fun v => put ⟨object, v, none⟩) extrude rfl
    fun v id => by
      rw [hput _ _ rfl (by simp [Element.kind, Element.ofText, kind])]
      exact map_map_eq_some (flag?_ofText id .extrude v) _ _
  have hmode := Fills.option .altitudeMode AltitudeMode.enumerant
    (fun v => put' ⟨object, extrude, v⟩) mode rfl
    fun v id => by
      rw [hput' _ _ rfl (by simp [Element.kind, Element.ofText, kind])]
      exact map_map_eq_some (mode?_ofText id v) _ _
  have hwritten : (mode.bind fun mode => Emission.ofEnumerant? .altitudeMode mode.toInt).toList
      = (mode.map fun mode => Emission.ofText .altitudeMode mode.enumerant).toList := by
    cases mode with
    | none => rfl
    | some mode => exact congrArg Option.toList (ofEnumerant?_mode mode)
  unfold GeometryFields.emissions
  dsimp only
  rw [hwritten]
  exact (hextrude.append hspecial).append hmode

theorem absorb?_lineString {e : Element} (hplain : e.isPlain = true) (hkind : e.kind ≠ .tessellate)
    (g : GeometryFields) (tessellate : Option Bool) :
    (Body.lineString g tessellate).absorb? e
      = (g.absorb? e).map fun fields => .lineString fields tessellate := by
  unfold absorb?
  rw [if_pos hplain]
  dsimp only
  split
  . next heq => exact absurd heq hkind
  . rfl

/--
What the values of an element are written as fills a blank body with them.
-/
theorem fills_values (body : Body) : Fills body.blank body.values body.unread := by
  cases body with
  | feature form fields => exact fills_feature form fields
  | point fields =>
    apply fills_geometry .point .point fields
    . intro g e hplain _
      unfold absorb?
      rw [if_pos hplain]
    . intro g e hplain _
      unfold absorb?
      rw [if_pos hplain]
    . exact .nil _
  | lineString fields tessellate =>
    apply fills_geometry (fun g => .lineString g none) (fun g => .lineString g tessellate) fields
    . intro g e hplain hkind
      exact absorb?_lineString hplain hkind g none
    . intro g e hplain hkind
      exact absorb?_lineString hplain hkind g tessellate
    . apply Fills.option .tessellate flagText
        (fun v => .lineString ⟨fields.object, fields.extrude, none⟩ v) tessellate rfl
      intro v id
      have hvalue := congrArg
        (Option.map fun v => Body.lineString ⟨fields.object, fields.extrude, none⟩ (some v))
        (flag?_ofText id .tessellate v)
      exact hvalue
  | _ => exact .nil _

end Body

end KmlTree
