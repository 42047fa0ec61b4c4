import KmlTree.Element.Content
import KmlTree.Proofs.Element.Dispatch

/-!
This module contains the values that fields are read as. An element that lacks the value of a field sets it
in the way in which the value is set directly (`Body.absorb?_eq`), and it does not lack the value any more
(`Element.ReadsValue.assign?_ne_self`).
-/

namespace KmlTree

/--
The value that a text spells for a kind, as a setting of this value.
-/
def Kind.setting? (kind : Kind) (text : String) : Option Setting :=
  match kind with
  | .name => some (.name (some text))
  | .visibility => (flagOf? text).map fun value => .visibility (some value)
  | .opened => (flagOf? text).map fun value => .opened (some value)
  | .address => some (.address (some text))
  | .description => some (.description (some text))
  | .styleUrl => some (.styleUrl (some text))
  | .extrude => (flagOf? text).map fun value => .extrude (some value)
  | .tessellate => (flagOf? text).map fun value => .tessellate (some value)
  | .altitudeMode => (modeOf? text).map fun mode => .altitudeMode (some mode)
  | _ => none

namespace Element

/--
The setting that a field with nothing but its text stands for.
-/
def setting? (e : Element) : Option Setting :=
  (e.plainText? e.kind).bind e.kind.setting?

/--
Whether an element reads a child into one of its values: it lacks the value, and the child is a plain field
whose text spells it.
-/
def ReadsValue (owner child : Element) (s : Setting) : Prop :=
  owner.body.lacks child.kind = true ∧ child.setting? = some s

end Element

section Absorb

variable {e : Element} {text : String} {body : Body}

/--
Filling an empty value is the same as assigning what it is read as.
-/
theorem map_fill? {α β γ : Type} {current value? : Option α} {put : Option α → β} {f : β → γ}
    {assign : Setting → Option γ} (setting : α → Setting)
    (h : ∀ value, assign (setting value) = some (f (put (some value)))) :
    (fill? current value? put).map f
      = if current.isNone then (value?.map setting).bind assign else none := by
  cases current with
  | none =>
    cases value? with
    | none => rfl
    | some value => exact (h value).symm
  | some => rfl

theorem FeatureFields.map_absorb? (form : FeatureForm) (f : FeatureFields)
    (htext : e.plainText? e.kind = some text) :
    (f.absorb? e).map (.feature form)
      = if (Body.feature form f).lacks e.kind then
          (e.kind.setting? text).bind (Body.feature form f).assign?
        else
          none := by
  unfold absorb?
  rw [Element.text?_of_plainText? htext, Element.flag?_of_plainText? htext]
  generalize e.kind = kind
  cases kind with
  | name => exact map_fill? (fun text => .name (some text)) fun _ => rfl
  | visibility => exact map_fill? (fun value => .visibility (some value)) fun _ => rfl
  | opened => exact map_fill? (fun value => .opened (some value)) fun _ => rfl
  | address => exact map_fill? (fun text => .address (some text)) fun _ => rfl
  | description => exact map_fill? (fun text => .description (some text)) fun _ => rfl
  | styleUrl => exact map_fill? (fun text => .styleUrl (some text)) fun _ => rfl
  | _ => rfl

/--
Points and line strings read the values that they share in the same way.
-/
theorem GeometryFields.map_absorb? (g : GeometryFields) {put : GeometryFields → Body}
    (htext : e.plainText? e.kind = some text)
    (hlacks : (put g).lacks e.kind = (Body.point g).lacks e.kind)
    (hupdate : ∀ f, Body.updateGeometry? f (put g) = some (put (f g))) :
    (g.absorb? e).map put
      = if (put g).lacks e.kind then (e.kind.setting? text).bind (put g).assign? else none := by
  have hmode := Element.mode?_of_plainText? htext
  unfold absorb?
  rw [hlacks, Element.flag?_of_plainText? htext]
  generalize e.kind = kind at hmode
  cases kind with
  | extrude => exact map_fill? (fun value => .extrude (some value)) fun _ => hupdate _
  | altitudeMode =>
    rw [hmode rfl]
    exact map_fill? (fun mode => .altitudeMode (some mode)) fun _ => hupdate _
  | _ => rfl

/--
A field is read into a value by setting this value to what the field stands for, if there is none.
-/
theorem Body.absorb?_eq (body : Body) (e : Element) :
    body.absorb? e = if body.lacks e.kind then e.setting?.bind body.assign? else none := by
  unfold Element.setting?
  cases htext : e.plainText? e.kind with
  | none =>
    rw [absorb?_of_plainText? htext]
    exact (ite_self none).symm
  | some text =>
    obtain ⟨_, hplain, _⟩ := Element.plainText?_eq_some.mp htext
    unfold absorb?
    rw [if_pos hplain, Option.bind_some]
    cases body with
    | feature form fields => exact fields.map_absorb? form htext
    | point fields => exact fields.map_absorb? htext rfl fun _ => rfl
    | lineString fields tessellate =>
      dsimp only
      split
      . next hkind =>
        rw [hkind, Element.flag?_of_plainText? htext]
        exact Option.map_id_apply.symm.trans
          (map_fill? (fun value => .tessellate (some value)) fun _ => rfl)
      . next hkind =>
        apply fields.map_absorb? htext
        . generalize e.kind = kind at hkind
          cases kind <;> first | rfl | exact absurd rfl hkind
        . intro _
          rfl
    | _ => rfl

/--
A value that is lacking can be set, and is not lacking then.
-/
theorem Body.exists_assign? {kind : Kind} {s : Setting} (hlacks : body.lacks kind = true)
    (hs : kind.setting? text = some s) : ∃ new, body.assign? s = some new ∧ new.lacks kind = false := by
  cases kind with
  | name | address | description | styleUrl =>
    cases hs
    cases body <;> first | exact ⟨_, rfl, rfl⟩ | cases hlacks
  | visibility | opened | extrude | tessellate | altitudeMode =>
    obtain ⟨value, _, hvalue⟩ := Option.map_eq_some_iff.mp hs
    cases hvalue
    cases body <;> first | exact ⟨_, rfl, rfl⟩ | cases hlacks
  | _ => cases hs

end Absorb

namespace Element

variable {owner child : Element} {s : Setting}

theorem ReadsValue.absorb?_eq (h : owner.ReadsValue child s) :
    owner.body.absorb? child = owner.body.assign? s := by
  rw [Body.absorb?_eq, if_pos h.1, h.2]
  rfl

theorem absorb?_of_not_readsValue (h : ∀ s, ¬ owner.ReadsValue child s) :
    owner.body.absorb? child = none := by
  rw [Body.absorb?_eq]
  split
  . next hlacks =>
    cases hs : child.setting? with
    | none => rfl
    | some s => exact absurd ⟨hlacks, hs⟩ (h s)
  . rfl

theorem ReadsValue.exists_assign? (h : owner.ReadsValue child s) :
    ∃ new, owner.body.assign? s = some new ∧ new.lacks child.kind = false := by
  obtain ⟨hlacks, hs⟩ := h
  obtain ⟨text, _, hs⟩ := Option.bind_eq_some_iff.mp hs
  exact Body.exists_assign? hlacks hs

theorem ReadsValue.assign?_ne_self (h : owner.ReadsValue child s) : owner.assign? s ≠ some owner := by
  obtain ⟨new, hassign, hnew⟩ := h.exists_assign?
  unfold assign?
  rw [hassign]
  intro hsame
  have hbody : new = owner.body := congrArg Element.body (Option.some.inj hsame)
  rw [hbody, h.1] at hnew
  cases hnew

theorem absorb?_of_hasPlaceFor (h : owner.hasPlaceFor child = true) :
    owner.body.absorb? child = none := by
  rw [Option.eq_none_iff_forall_ne_some]
  intro new habsorb
  obtain ⟨_, _, kind, hbody⟩ := Body.absorb?_spec habsorb
  unfold hasPlaceFor at h
  rw [hbody] at h
  cases h

end Element

end KmlTree
