import KmlTree.Proofs.Element.Filling
import KmlTree.Proofs.Element.Gathering

/-!
This module contains the list of all attributes that an element and those in it are described with.
-/

namespace KmlTree

namespace Emission

/--
The attributes that an emission of the basic vocabulary lists, each with the kind of its element.
-/
def tally : Emission → List (Kind × String × String)
  | openTag kind attributes => attributes.entries.map (kind, ·)
  | simple kind attributes _ => attributes.entries.map (kind, ·)
  | _ => []

/--
The attributes that a list of emissions lists in the basic vocabulary.
-/
def tallyOf (es : List Emission) : List (Kind × String × String) :=
  es.flatMap fun e => e.basic.tally

theorem picks_tally : Picks tally :=
  ⟨fun _ _ => rfl, fun _ => rfl, fun _ => rfl, fun _ _ _ => rfl⟩

end Emission

open Emission

theorem Body.gather_tally_values (body : Body) : gather tally body.values = [] := by
  unfold gather
  rw [List.flatMap_eq_nil_iff]
  intro e he
  obtain ⟨kind, text, rfl⟩ := body.fills_values.exists_eq_ofText he
  rfl

namespace Element

/--
The attributes of an element itself, each with the kind of the element.
-/
def ownTally (e : Element) : List (Kind × String × String) := e.attributes.entries.map (e.kind, ·)

/--
The attributes of an element and of all elements in it.
-/
def tally (e : Element) : List (Kind × String × String) := e.all.flatMap ownTally

theorem tally_eq (e : Element) :
    e.tally = e.ownTally ++ (e.placed ++ e.misplaced).flatMap tally :=
  flatMap_all ownTally e

theorem tally_inside (e : Element) (parent : Nat) : (e.inside parent).tally = e.tally := by
  rw [tally_eq, tally_eq e]
  rfl

/--
A regular element is described with the attributes of all elements in it.
-/
theorem tallyOf_emissions (e : Element) (h : ∀ x ∈ e.all, x.Regular) :
    tallyOf e.emissions = e.tally := by
  have hgather : gather Emission.tally e.emissions = e.gathering Emission.tally :=
    gather_emissions picks_tally e h
  have hown (x : Element) : x.ownGathering Emission.tally = x.ownTally := by
    unfold ownGathering
    rw [Body.gather_tally_values, List.append_nil]
    rfl
  calc
    tallyOf e.emissions = e.gathering Emission.tally := hgather
    _ = e.tally := List.flatMap_congr fun x _ => hown x

end Element

end KmlTree
