import KmlTree.Element.Child
import KmlTree.Element.Content

/-!
This module contains what an element does with a child that nothing has claimed yet. There are four
ways (`Element.Added`), and in none of them does the element turn into one of another kind.
-/

namespace KmlTree

/--
Whether two bodies differ at most in the values that fields of theirs are read into, so that their
elements have the same kind, the same attributes and the same places for children.
-/
structure Body.Alike (a b : Body) : Prop where
  kind : b.kind = a.kind
  class? : b.class? = a.class?
  place? : b.place? = a.place?
  isContainer : b.isContainer = a.isContainer
  putAttributes : ∀ bag, b.putAttributes bag = a.putAttributes bag

namespace Body.Alike

theorem refl (a : Body) : Alike a a :=
  ⟨rfl, rfl, rfl, rfl, fun _ => rfl⟩

theorem trans {a b c : Body} (h : Alike a b) (h' : Alike b c) : Alike a c where
  kind := by rw [h'.kind, h.kind]
  class? := by rw [h'.class?, h.class?]
  place? := by rw [h'.place?, h.place?]
  isContainer := by rw [h'.isContainer, h.isContainer]
  putAttributes := by
    intro bag
    rw [h'.putAttributes, h.putAttributes]

theorem feature (form : FeatureForm) {f f' : FeatureFields} (h : f'.object = f.object) :
    Alike (.feature form f) (.feature form f') where
  kind := rfl
  class? := rfl
  place? := rfl
  isContainer := rfl
  putAttributes := by
    intro bag
    simp only [Body.putAttributes, object?, h]

theorem point {g g' : GeometryFields} (h : g'.object = g.object) : Alike (.point g) (.point g') where
  kind := rfl
  class? := rfl
  place? := rfl
  isContainer := rfl
  putAttributes := by
    intro bag
    simp only [Body.putAttributes, object?, h]

theorem lineString {g g' : GeometryFields} (t t' : Option Bool) (h : g'.object = g.object) :
    Alike (.lineString g t) (.lineString g' t') where
  kind := rfl
  class? := rfl
  place? := rfl
  isContainer := rfl
  putAttributes := by
    intro bag
    simp only [Body.putAttributes, object?, h]

end Body.Alike

theorem fill?_eq_some {α β : Type} {current value? : Option α} {put : Option α → β} {b : β}
    (h : fill? current value? put = some b) :
    current = none ∧ ∃ value, value? = some value ∧ b = put (some value) := by
  unfold fill? at h
  split at h
  . simp only [Option.map_eq_some_iff] at h
    obtain ⟨value, hvalue, hput⟩ := h
    exact ⟨rfl, value, hvalue, hput.symm⟩
  . simp at h

namespace Element

theorem field_of_scalar? {e : Element} {type : ScalarType} {s : Scalar}
    (h : e.scalar? type = some s) : ∃ kind, e.body = .field kind := by
  unfold scalar? at h
  split at h
  . next kind hbody => exact ⟨kind, hbody⟩
  . simp at h

theorem field_of_text? {e : Element} {s : String} (h : e.text? = some s) :
    ∃ kind, e.body = .field kind := by
  unfold text? at h
  split at h
  . next hscalar => exact field_of_scalar? hscalar
  . simp at h

theorem field_of_flag? {e : Element} {b : Bool} (h : e.flag? = some b) :
    ∃ kind, e.body = .field kind := by
  unfold flag? at h
  split at h
  . next hscalar => exact field_of_scalar? hscalar
  . simp at h

theorem field_of_enumerantId? {e : Element} {n : Int} (h : e.enumerantId? = some n) :
    ∃ kind, e.body = .field kind := by
  unfold enumerantId? at h
  split at h
  . next hscalar => exact field_of_scalar? hscalar
  . simp at h

end Element

theorem FeatureFields.absorb?_spec {f f' : FeatureFields} {e : Element} (h : f.absorb? e = some f') :
    f'.object = f.object ∧ ∃ kind, e.body = .field kind := by
  unfold absorb? at h
  split at h
  case h_1 | h_4 | h_5 | h_6 =>
    obtain ⟨_, text, htext, rfl⟩ := fill?_eq_some h
    exact ⟨rfl, Element.field_of_text? htext⟩
  case h_2 | h_3 =>
    obtain ⟨_, flag, hflag, rfl⟩ := fill?_eq_some h
    exact ⟨rfl, Element.field_of_flag? hflag⟩
  case h_7 => simp at h

theorem GeometryFields.absorb?_spec {g g' : GeometryFields} {e : Element}
    (h : g.absorb? e = some g') : g'.object = g.object ∧ ∃ kind, e.body = .field kind := by
  unfold absorb? at h
  split at h
  . obtain ⟨_, flag, hflag, rfl⟩ := fill?_eq_some h
    exact ⟨rfl, Element.field_of_flag? hflag⟩
  . obtain ⟨_, mode, hmode, rfl⟩ := fill?_eq_some h
    simp only [Option.bind_eq_some_iff] at hmode
    obtain ⟨n, hn, _⟩ := hmode
    exact ⟨rfl, Element.field_of_enumerantId? hn⟩
  . simp at h

/--
Only a plain field is read into a value, and nothing but that value changes.
-/
theorem Body.absorb?_spec {body new : Body} {e : Element} (h : body.absorb? e = some new) :
    Alike body new ∧ e.isPlain = true ∧ ∃ kind, e.body = .field kind := by
  unfold absorb? at h
  split at h
  . next hplain =>
    split at h
    . next form fields =>
      simp only [Option.map_eq_some_iff] at h
      obtain ⟨fields', habsorb, rfl⟩ := h
      obtain ⟨hobject, hfield⟩ := FeatureFields.absorb?_spec habsorb
      exact ⟨.feature form hobject, hplain, hfield⟩
    . next fields =>
      simp only [Option.map_eq_some_iff] at h
      obtain ⟨fields', habsorb, rfl⟩ := h
      obtain ⟨hobject, hfield⟩ := GeometryFields.absorb?_spec habsorb
      exact ⟨.point hobject, hplain, hfield⟩
    . next fields tessellate =>
      split at h
      . obtain ⟨_, flag, hflag, rfl⟩ := fill?_eq_some h
        exact ⟨.lineString _ _ rfl, hplain, Element.field_of_flag? hflag⟩
      . simp only [Option.map_eq_some_iff] at h
        obtain ⟨fields', habsorb, rfl⟩ := h
        obtain ⟨hobject, hfield⟩ := GeometryFields.absorb?_spec habsorb
        exact ⟨.lineString _ _ hobject, hplain, hfield⟩
    . simp at h
  . simp at h

theorem Body.kind_updateObject (f : ObjectFields → ObjectFields) (body : Body) :
    (body.updateObject f).kind = body.kind := by
  cases body <;> rfl

theorem Body.kind_takeAttributes (body : Body) (a : Attributes) :
    (body.takeAttributes a).1.kind = body.kind := by
  unfold takeAttributes
  split
  . rfl
  . split
    . dsimp only
      exact kind_updateObject _ _
    . rfl

theorem Body.kind_readText (body : Body) (text : String) : (body.readText text).kind = body.kind := by
  cases body <;> rfl

namespace Element

def inside (parent : Nat) (e : Element) : Element :=
  { e with head.parent := some parent }

theorem claim?_eq_some {parent : Nat} {e : Element} (hparent : e.head.parent = none)
    (hid : parent ≠ e.head.id) : e.claim? parent = some (e.inside parent) := by
  unfold claim?
  simp [hparent, hid, inside]

theorem claim?_spec {parent : Nat} {e e' : Element} (h : e.claim? parent = some e') :
    e.parent? = none ∧ parent ≠ e.id ∧ e' = e.inside parent := by
  unfold claim? at h
  split at h
  . cases h
  . next hfree =>
    simp only [Bool.or_eq_true, beq_iff_eq, not_or, Bool.not_eq_true, Option.isSome_eq_false_iff,
      Option.isNone_iff_eq_none] at hfree
    cases h
    exact ⟨hfree.1, hfree.2, rfl⟩

/--
The ways in which an element takes in a child.
-/
inductive Added (owner child : Element) : Element → Prop where
  | markup (m : String) (hbody : child.body = .fragment m) : Added owner child (owner.keepMarkup m)
  | placed (hbody : ∀ m, child.body ≠ .fragment m) (hplace : owner.hasPlaceFor child = true) :
    Added owner child { owner with placed := owner.placed ++ [child.inside owner.id] }
  | absorbed (body : Body) (hplace : owner.hasPlaceFor child = false)
    (habsorb : owner.body.absorb? child = some body) : Added owner child { owner with body := body }
  | misplaced (hbody : ∀ m, child.body ≠ .fragment m) (hplace : owner.hasPlaceFor child = false)
    (habsorb : owner.body.absorb? child = none) :
    Added owner child { owner with misplaced := owner.misplaced ++ [child.inside owner.id] }

/--
A child that nothing has claimed is taken in, in one of the four ways.
-/
theorem added_add {owner child : Element} (hparent : child.head.parent = none)
    (hid : owner.id ≠ child.id) : Added owner child (owner.add child) := by
  unfold add
  split
  . next m hbody => exact .markup m hbody
  . next hbody =>
    split
    . next hplace =>
      unfold appendChild?
      rw [claim?_eq_some hparent hid]
      exact .placed hbody hplace
    . next hplace =>
      simp only [Bool.not_eq_true] at hplace
      split
      . next body habsorb => exact .absorbed body hplace habsorb
      . next habsorb =>
        unfold keepMisplaced
        rw [claim?_eq_some hparent hid]
        exact .misplaced hbody hplace habsorb

namespace Added

variable {owner child e : Element}

theorem alike (h : Added owner child e) : owner.body.Alike e.body := by
  cases h with
  | markup => exact .refl _
  | placed => exact .refl _
  | absorbed body hplace habsorb => exact (Body.absorb?_spec habsorb).1
  | misplaced => exact .refl _

theorem id (h : Added owner child e) : e.id = owner.id := by
  cases h <;> rfl

theorem kind (h : Added owner child e) : e.kind = owner.kind :=
  h.alike.kind

end Added

@[simp]
theorem kind_add (owner child : Element) : (owner.add child).kind = owner.kind := by
  unfold add
  split
  . rfl
  . split
    . unfold appendChild?
      cases child.claim? owner.id <;> rfl
    . split
      . next body habsorb => exact (Body.absorb?_spec habsorb).1.kind
      . unfold keepMisplaced
        split <;> rfl

@[simp]
theorem kind_setText (e : Element) (text : String) : (e.setText text).kind = e.kind :=
  Body.kind_readText _ _

@[simp]
theorem kind_takeAttributes (e : Element) (a : Attributes) : (e.takeAttributes a).kind = e.kind :=
  Body.kind_takeAttributes _ _

end Element

end KmlTree
