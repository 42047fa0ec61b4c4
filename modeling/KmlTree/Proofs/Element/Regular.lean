import KmlTree.Proofs.Attributes
import KmlTree.Proofs.Element.Family

/-!
This module contains the invariant of an element that has only taken in attributes, children and text
(`Element.Regular`): each child is where the element puts it, and would be put there again.
-/

namespace KmlTree

/--
The names of the attributes that elements of a kind have values for.
-/
def Kind.attributeNames : Kind → List String
  | .kml => ["hint"]
  | .document | .folder | .placemark | .point | .lineString => ["id", "targetId"]
  | _ => []

namespace Body

/--
Whether a body is one of an element of the catalog.
-/
def isListed : Body → Bool
  | field kind => kind.isSimple
  | fragment _ => false
  | foreign _ _ => false
  | _ => true

theorem isListed_updateObject (f : ObjectFields → ObjectFields) (body : Body) :
    (body.updateObject f).isListed = body.isListed := by
  cases body <;> rfl

theorem isListed_takeAttributes (body : Body) (a : Attributes) :
    (body.takeAttributes a).1.isListed = body.isListed := by
  unfold takeAttributes
  split
  . rfl
  . split
    . dsimp only
      exact isListed_updateObject _ _
    . rfl

theorem isListed_absorb? {body new : Body} {e : Element} (h : body.absorb? e = some new)
    (hbody : body.isListed = true) : new.isListed = true := by
  unfold absorb? at h
  split at h
  . split at h
    . simp only [Option.map_eq_some_iff] at h
      obtain ⟨_, _, rfl⟩ := h
      rfl
    . simp only [Option.map_eq_some_iff] at h
      obtain ⟨_, _, rfl⟩ := h
      rfl
    . split at h
      . obtain ⟨_, _, _, rfl⟩ := fill?_eq_some h
        rfl
      . simp only [Option.map_eq_some_iff] at h
        obtain ⟨_, _, rfl⟩ := h
        rfl
    . simp at h
  . simp at h

theorem alike_readText (body : Body) (text : String) : body.Alike (body.readText text) := by
  cases body <;> exact ⟨rfl, rfl, rfl, rfl, fun _ => rfl⟩

theorem absorb?_readText (body : Body) (text : String) (e : Element) (h : body.absorb? e = none) :
    (body.readText text).absorb? e = none := by
  cases body with
  | coordinates positions skipped =>
    unfold absorb?
    split <;> rfl
  | _ => exact h

theorem isListed_readText (body : Body) (text : String) :
    (body.readText text).isListed = body.isListed := by
  cases body <;> rfl

end Body

theorem fill?_eq_none {α β : Type} {current value? : Option α} {put : Option α → β} :
    fill? current value? put = none ↔ current.isSome = true ∨ value? = none := by
  unfold fill?
  cases current with
  | none => simp
  | some value => simp

namespace FeatureFields

theorem absorb?_eq_none {f f' : FeatureFields} {c d : Element} (hc : f.absorb? c = none)
    (hd : f.absorb? d = some f') : f'.absorb? c = none := by
  unfold absorb? at hd
  split at hd
  case h_7 => simp at hd
  all_goals
    obtain ⟨_, value, _, rfl⟩ := fill?_eq_some hd
    unfold absorb? at hc ⊢
    split
    all_goals
      simp_all [fill?_eq_none]

end FeatureFields

namespace GeometryFields

theorem absorb?_eq_none {g g' : GeometryFields} {c d : Element} (hc : g.absorb? c = none)
    (hd : g.absorb? d = some g') : g'.absorb? c = none := by
  unfold absorb? at hd
  split at hd
  case h_3 => simp at hd
  all_goals
    obtain ⟨_, value, _, rfl⟩ := fill?_eq_some hd
    unfold absorb? at hc ⊢
    split
    all_goals
      simp_all [fill?_eq_none]

end GeometryFields

namespace Body

theorem absorb?_eq_none {body new : Body} {c d : Element} (hc : body.absorb? c = none)
    (hd : body.absorb? d = some new) : new.absorb? c = none := by
  unfold absorb? at hd
  split at hd
  . unfold absorb? at hc ⊢
    split
    . next hplain =>
      rw [if_pos hplain] at hc
      split at hd
      . simp only [Option.map_eq_some_iff, Option.map_eq_none_iff] at *
        obtain ⟨fields, hfields, rfl⟩ := hd
        simpa using FeatureFields.absorb?_eq_none hc hfields
      . simp only [Option.map_eq_some_iff, Option.map_eq_none_iff] at *
        obtain ⟨fields, hfields, rfl⟩ := hd
        simpa using GeometryFields.absorb?_eq_none hc hfields
      . next fields tessellate =>
        split at hd
        . obtain ⟨_, flag, _, rfl⟩ := fill?_eq_some hd
          dsimp only at hc ⊢
          split
          . simp [fill?_eq_none]
          . next hkind => simpa using hc
        . simp only [Option.map_eq_some_iff] at hd
          obtain ⟨fields', hfields, rfl⟩ := hd
          dsimp only at hc ⊢
          split
          . next hkind => simpa [hkind, fill?_eq_none] using hc
          . next hkind =>
            split at hc
            . next hkind' => exact absurd hkind' hkind
            . simp only [Option.map_eq_none_iff] at hc ⊢
              exact GeometryFields.absorb?_eq_none hc hfields
      . simp at hd
    . rfl
  . simp at hd

end Body

namespace Element

/--
Whether an element is as the reading of a document leaves it, its children apart.
-/
structure Regular (e : Element) : Prop where
  listed : e.body.isListed = true
  placed : ∀ c ∈ e.placed, c.body.class?.isSome = true ∧ e.body.place? = c.body.class?
  single : e.body.isContainer = true ∨ e.placed.length ≤ 1
  misplaced : ∀ c ∈ e.misplaced, e.hasPlaceFor c = false ∧ e.body.absorb? c = none
  unknown : ∀ bag, e.head.unknownAttributes = some bag →
    bag.isEmpty = false ∧ ∀ name ∈ bag.names, name ≠ "xmlns" ∧ name ∉ e.kind.attributeNames

namespace Regular

theorem inside {e : Element} (h : e.Regular) (parent : Nat) : (e.inside parent).Regular :=
  ⟨h.listed, h.placed, h.single, h.misplaced, h.unknown⟩

theorem placed_eq_nil {e : Element} (h : e.Regular) (hplace : e.body.place? = none) :
    e.placed = [] := by
  cases hplaced : e.placed with
  | nil => rfl
  | cons c cs =>
    obtain ⟨hclass, hsame⟩ := h.placed c (by simp [hplaced])
    rw [← hsame, hplace] at hclass
    simp at hclass

/--
There is nothing in a plain field but its text.
-/
theorem of_isPlain {e : Element} {kind : Kind} (h : e.Regular) (hplain : e.isPlain = true)
    (hbody : e.body = .field kind) :
    e.placed = [] ∧ e.misplaced = [] ∧ e.head.unknown = [] ∧ e.head.unknownAttributes = none := by
  unfold isPlain hasUnknownChildren at hplain
  simp only [Bool.and_eq_true, Bool.not_eq_true', Bool.or_eq_false_iff, Bool.not_eq_false',
    List.isEmpty_iff, Option.isNone_iff_eq_none] at hplain
  obtain ⟨hattributes, hunknown, hmisplaced⟩ := hplain
  have hplace : e.body.place? = none := by
    rw [hbody]
    rfl
  exact ⟨h.placed_eq_nil hplace, hmisplaced, hunknown, hattributes⟩

theorem added {owner child e : Element} (h : owner.Regular) (hadd : Added owner child e) :
    e.Regular := by
  cases hadd with
  | markup m hbody => exact ⟨h.listed, h.placed, h.single, h.misplaced, h.unknown⟩
  | placed hbody hplace =>
    unfold hasPlaceFor at hplace
    simp only [Bool.and_eq_true, beq_iff_eq, Bool.or_eq_true, List.isEmpty_iff] at hplace
    obtain ⟨⟨hclass, hsame⟩, hroom⟩ := hplace
    refine ⟨h.listed, ?_, ?_, ?_, h.unknown⟩
    . intro c hc
      simp only [List.mem_append, List.mem_singleton] at hc
      cases hc with
      | inl hc => exact h.placed c hc
      | inr hc =>
        subst hc
        exact ⟨hclass, hsame⟩
    . cases hroom with
      | inl hcontainer => exact Or.inl hcontainer
      | inr hempty => exact Or.inr (by simp [hempty])
    . intro c hc
      obtain ⟨hrefused, habsorb⟩ := h.misplaced c hc
      refine ⟨?_, habsorb⟩
      unfold hasPlaceFor at hrefused ⊢
      simp only [Bool.and_eq_false_iff, Bool.or_eq_false_iff] at hrefused ⊢
      cases hrefused with
      | inl hclass => exact Or.inl hclass
      | inr hfull => exact Or.inr ⟨hfull.1, by simp⟩
  | absorbed body hplace habsorb =>
    obtain ⟨halike, _, _⟩ := Body.absorb?_spec habsorb
    refine ⟨Body.isListed_absorb? habsorb h.listed, ?_, ?_, ?_, ?_⟩
    . intro c hc
      rw [halike.place?]
      exact h.placed c hc
    . rw [halike.isContainer]
      exact h.single
    . intro c hc
      obtain ⟨hrefused, hkept⟩ := h.misplaced c hc
      refine ⟨?_, Body.absorb?_eq_none hkept habsorb⟩
      unfold hasPlaceFor at hrefused ⊢
      rw [halike.place?, halike.isContainer]
      exact hrefused
    . intro bag hbag
      have hkind : kind { owner with body := body } = owner.kind := halike.kind
      rw [hkind]
      exact h.unknown bag hbag
  | misplaced hbody hplace habsorb =>
    refine ⟨h.listed, h.placed, h.single, ?_, h.unknown⟩
    intro c hc
    simp only [List.mem_append, List.mem_singleton] at hc
    cases hc with
    | inl hc => exact h.misplaced c hc
    | inr hc =>
      subst hc
      exact ⟨hplace, habsorb⟩

theorem setText {e : Element} (h : e.Regular) (text : String) : (e.setText text).Regular := by
  have halike := e.body.alike_readText text
  refine ⟨?_, ?_, ?_, ?_, ?_⟩
  . exact (Body.isListed_readText _ _).trans h.listed
  . intro c hc
    have hplace : (e.setText text).body.place? = e.body.place? := halike.place?
    rw [hplace]
    exact h.placed c hc
  . have hcontainer : (e.setText text).body.isContainer = e.body.isContainer := halike.isContainer
    rw [hcontainer]
    exact h.single
  . intro c hc
    obtain ⟨hrefused, hkept⟩ := h.misplaced c hc
    refine ⟨?_, Body.absorb?_readText _ _ _ hkept⟩
    unfold hasPlaceFor at hrefused ⊢
    have hplace : (e.setText text).body.place? = e.body.place? := halike.place?
    have hcontainer : (e.setText text).body.isContainer = e.body.isContainer := halike.isContainer
    rw [hplace, hcontainer]
    exact hrefused
  . intro bag hbag
    rw [kind_setText]
    exact h.unknown bag hbag

end Regular

end Element

end KmlTree
