import KmlTree.Proofs.Element.Gathering
import Mathlib.Data.List.Count

/-!
This module contains the census of an element: one entry for each element that it is described with, and
one for each piece of markup that is kept in it. An element that takes in another one has the entries of
both (`Element.census_added`), also where the other one is read into a value and dropped.
-/

namespace KmlTree

namespace Emission

/--
The kind of the element that begins with an emission of the basic vocabulary.
-/
def announced : Emission → List Kind
  | openTag kind _ => [kind]
  | simple kind _ _ => [kind]
  | _ => []

/--
The kinds of all elements that begin in a list of emissions, in the basic vocabulary.
-/
def roll (es : List Emission) : List Kind := es.flatMap fun e => e.basic.announced

theorem picks_announced : Picks announced :=
  ⟨fun _ _ => rfl, fun _ => rfl, fun _ => rfl, fun _ _ _ => rfl⟩

@[simp]
theorem roll_nil : roll [] = [] := by
  rfl

@[simp]
theorem roll_ofText (kind : Kind) (text : String) : roll [.ofText kind text] = [kind] := by
  rfl

@[simp]
theorem roll_ofFlag (kind : Kind) (value : Bool) : roll [.ofFlag kind value] = [kind] := by
  rfl

theorem roll_mode (mode : AltitudeMode) :
    roll (ofEnumerant? .altitudeMode mode.toInt).toList = [.altitudeMode] := by
  cases mode <;> rfl

theorem roll_append (es fs : List Emission) : roll (es ++ fs) = roll es ++ roll fs :=
  List.flatMap_append

end Emission

open Emission

-- The values are at fixed positions among each other, so the kinds are compared by their numbers.
theorem FeatureFields.roll_absorb {f f' : FeatureFields} {e : Element} (h : f.absorb? e = some f') :
    (roll f'.emissions).Perm (e.kind :: roll f.emissions) := by
  rw [List.perm_iff_count]
  intro kind
  unfold absorb? at h
  split at h
  case h_7 => cases h
  all_goals
    next hkind =>
      obtain ⟨hnone, value, _, rfl⟩ := fill?_eq_some h
      unfold emissions
      simp only [hkind, hnone, roll_append, Option.map_none, Option.map_some, Option.toList_none,
        Option.toList_some, roll_nil, roll_ofText, roll_ofFlag, List.count_append, List.count_cons,
        List.count_nil]
      omega

theorem GeometryFields.roll_absorb {g g' : GeometryFields} {e : Element} (h : g.absorb? e = some g')
    (special : List Emission) :
    (roll (g'.emissions special)).Perm (e.kind :: roll (g.emissions special)) := by
  rw [List.perm_iff_count]
  intro kind
  unfold absorb? at h
  split at h
  case h_3 => cases h
  all_goals
    next hkind =>
      obtain ⟨hnone, value, _, rfl⟩ := fill?_eq_some h
      unfold emissions
      simp only [hkind, hnone, roll_append, Option.map_none, Option.map_some, Option.toList_none,
        Option.toList_some, Option.bind_none, Option.bind_some, roll_nil, roll_ofFlag, roll_mode,
        List.count_append, List.count_cons, List.count_nil]
      omega

namespace Body

/--
An element that reads another one into a value is described with one more simple element, which has the
kind of the other one.
-/
theorem roll_absorb {body new : Body} {e : Element} (h : body.absorb? e = some new) :
    (roll new.values).Perm (e.kind :: roll body.values) := by
  unfold absorb? at h
  split at h
  . split at h
    . next form fields =>
      obtain ⟨fields', habsorb, rfl⟩ := Option.map_eq_some_iff.mp h
      exact FeatureFields.roll_absorb habsorb
    . next fields =>
      obtain ⟨fields', habsorb, rfl⟩ := Option.map_eq_some_iff.mp h
      exact GeometryFields.roll_absorb habsorb []
    . next fields tessellate =>
      split at h
      . next hkind =>
        obtain ⟨hnone, flag, _, rfl⟩ := fill?_eq_some h
        rw [hkind, hnone]
        unfold values content GeometryFields.emissions
        simp only [roll_append, Option.map_none, Option.map_some, Option.toList_none,
          Option.toList_some, roll_ofFlag, List.append_nil, List.append_assoc]
        exact List.perm_middle
      . obtain ⟨fields', habsorb, rfl⟩ := Option.map_eq_some_iff.mp h
        exact GeometryFields.roll_absorb habsorb _
    . cases h
  . cases h

end Body

namespace Element

/--
The entries of an element itself: its kind, the kinds of its values, and a blank one for each piece of
markup.
-/
def ownCensus (e : Element) : List (Option Kind) :=
  some e.kind :: (roll e.body.values).map some ++ e.head.unknown.map fun _ => none

/--
The entries of an element and of all elements in it.
-/
def census (e : Element) : List (Option Kind) := e.all.flatMap ownCensus

theorem census_eq (e : Element) :
    e.census = e.ownCensus ++ (e.placed ++ e.misplaced).flatMap census :=
  flatMap_all ownCensus e

theorem census_inside (e : Element) (parent : Nat) : (e.inside parent).census = e.census := by
  rw [census_eq, census_eq e]
  rfl

theorem count_some_ownCensus (e : Element) (kind : Kind) :
    e.ownCensus.count (some kind) = (e.ownGathering announced).count kind := by
  have hsome : ((roll e.body.values).map some).count (some kind) = (roll e.body.values).count kind :=
    List.count_map_of_injective _ some (fun _ _ => Option.some.inj) kind
  have hblank : (e.head.unknown.map fun _ => (none : Option Kind)).count (some kind) = 0 := by
    simp [List.count_eq_zero]
  have hown : e.ownGathering announced = e.kind :: roll e.body.values := by
    rfl
  unfold ownCensus
  rw [hown, List.cons_append, List.count_cons, List.count_append, hsome, hblank, List.count_cons]
  simp

theorem count_none_ownCensus (e : Element) : e.ownCensus.count none = e.head.unknown.length := by
  unfold ownCensus
  simp [List.count_eq_zero]

/--
A kind is in the census of an element as often as elements of that kind begin in its description.
-/
theorem count_some_census (e : Element) (h : ∀ x ∈ e.all, x.Regular) (kind : Kind) :
    e.census.count (some kind) = (roll e.emissions).count kind := by
  have hroll : roll e.emissions = e.gathering announced := gather_emissions picks_announced e h
  rw [hroll]
  unfold census gathering
  rw [List.count_flatMap, List.count_flatMap]
  apply congrArg List.sum
  exact List.map_congr_left fun x _ => x.count_some_ownCensus kind

/--
The blank entries in the census of an element are as many as the pieces of markup that are kept in it.
-/
theorem count_none_census (e : Element) :
    e.census.count none = (e.all.flatMap fun x => x.head.unknown).length := by
  unfold census
  rw [List.count_flatMap, List.length_flatMap]
  apply congrArg List.sum
  exact List.map_congr_left fun x _ => x.count_none_ownCensus

theorem census_setText (e : Element) (text : String) : (e.setText text).census = e.census := by
  have hown : (e.setText text).ownCensus = e.ownCensus := by
    unfold ownCensus
    rw [kind_setText]
    unfold setText
    dsimp only
    rw [Body.values_readText]
    rfl
  rw [census_eq, census_eq e, hown]
  rfl

theorem census_keepMarkup (e : Element) (markup : String) :
    (e.keepMarkup markup).census.Perm (e.census ++ [none]) := by
  have hown : (e.keepMarkup markup).ownCensus = e.ownCensus ++ [none] := by
    unfold ownCensus keepMarkup
    simp only [List.map_append, List.map_cons, List.map_nil, List.append_assoc]
    rfl
  rw [census_eq, census_eq e, hown, List.append_assoc, List.append_assoc]
  apply List.Perm.append_left
  exact List.perm_append_comm

/--
A field that has nothing but its text has one entry.
-/
theorem census_plain {e : Element} {kind : Kind} (hregular : e.Regular) (hplain : e.isPlain = true)
    (hbody : e.body = .field kind) : e.census = [some e.kind] := by
  obtain ⟨hplaced, hmisplaced, hunknown, _⟩ := hregular.of_isPlain hplain hbody
  have hvalues : e.body.values = [] := by
    rw [hbody]
    rfl
  rw [census_eq, hplaced, hmisplaced]
  unfold ownCensus
  rw [hunknown, hvalues]
  rfl

theorem census_added {owner child e : Element} (h : Added owner child e) (hchild : child.Regular) :
    e.census.Perm (owner.census ++ child.census) := by
  cases h with
  | markup m hbody =>
    have := hchild.listed
    rw [hbody] at this
    cases this
  | placed =>
    rw [census_eq, census_eq owner]
    simp only [List.flatMap_append, List.flatMap_cons, List.flatMap_nil, census_inside,
      List.append_assoc, List.nil_append]
    apply List.Perm.append_left
    apply List.Perm.append_left
    exact List.perm_append_comm
  | absorbed body hplace habsorb =>
    obtain ⟨halike, hplain, field, hbody⟩ := Body.absorb?_spec habsorb
    have hown : (ownCensus { owner with body := body }).Perm
        (owner.ownCensus ++ [some child.kind]) := by
      have hkind : kind { owner with body := body } = owner.kind := halike.kind
      have hvalues := (Body.roll_absorb habsorb).map some
      unfold ownCensus
      rw [hkind]
      simp only [List.cons_append]
      apply List.Perm.cons
      exact (hvalues.append_right _).trans (List.perm_append_singleton _ _).symm
    rw [census_plain hchild hplain hbody, census_eq, census_eq owner, List.append_assoc]
    apply (hown.append_right _).trans
    rw [List.append_assoc]
    apply List.Perm.append_left
    exact List.perm_append_comm
  | misplaced =>
    rw [census_eq, census_eq owner]
    simp only [List.flatMap_append, List.flatMap_cons, List.flatMap_nil, census_inside,
      List.append_assoc, List.append_nil]
    exact List.Perm.refl _

end Element

end KmlTree
