import KmlTree.Element.Basic

/-!
This module contains the outline of an element: every element in it in pre-order, with the place where
it is held.
-/

namespace KmlTree

/--
Where an element is held by its parent.
-/
inductive Place where
  | root
  | feature
  | featureAt (index : Nat)
  | geometry
  | coordinates
  | misplacedAt (index : Nat)
deriving DecidableEq

def Body.placeOf (body : Body) (index : Nat) : Place :=
  match body.place? with
  | some .feature => if body.isContainer then .featureAt index else .feature
  | some .geometry => .geometry
  | _ => .coordinates

/--
An entry of an outline. `parentOk` tells whether the element says that its parent is the one that
holds it.
-/
structure OutlineNode where
  depth : Nat
  place : Place
  parentOk : Bool
  element : Element

mutual

/--
The outline of an element that is held at a given place. The placed children come before the misplaced
ones.
-/
def Element.outlineAt (depth : Nat) (place : Place) (holder : Option Nat) :
    Element → List OutlineNode
  | ⟨head, body, placed, misplaced⟩ =>
    ⟨depth, place, holder.isNone || head.parent == holder, ⟨head, body, placed, misplaced⟩⟩
      :: outlineOfAll (depth + 1) body.placeOf head.id 0 placed
      ++ outlineOfAll (depth + 1) .misplacedAt head.id 0 misplaced

/--
The outlines of the children of one element, of which the first has the given index.
-/
def outlineOfAll (depth : Nat) (place : Nat → Place) (holder index : Nat) :
    List Element → List OutlineNode
  | [] => []
  | e :: es =>
    e.outlineAt depth (place index) (some holder) ++ outlineOfAll depth place holder (index + 1) es

end

def Element.outline (e : Element) : List OutlineNode :=
  e.outlineAt 0 .root none

end KmlTree
