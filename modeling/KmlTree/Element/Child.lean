import KmlTree.Element.Scalar

/-!
This module contains what an element does with a child that is offered to it (`Element.add`). A field
of a kind that the element has an empty value of is read and dropped. An element that there is a place
for is placed. Markup is kept as text, and every other element is kept as misplaced. Nothing is kept
that has been claimed before.
-/

namespace KmlTree

def fill? {α β : Type} (current : Option α) (value? : Option α) (put : Option α → β) : Option β :=
  match current with
  | none => value?.map fun value => put (some value)
  | some _ => none

namespace FeatureFields

/--
Read a field into the values of a feature, if the value of its kind is empty.
-/
def absorb? (f : FeatureFields) (e : Element) : Option FeatureFields :=
  match e.kind with
  | .name => fill? f.name e.text? fun value => { f with name := value }
  | .visibility => fill? f.visibility e.flag? fun value => { f with visibility := value }
  | .opened => fill? f.opened e.flag? fun value => { f with opened := value }
  | .address => fill? f.address e.text? fun value => { f with address := value }
  | .description => fill? f.description e.text? fun value => { f with description := value }
  | .styleUrl => fill? f.styleUrl e.text? fun value => { f with styleUrl := value }
  | _ => none

end FeatureFields

namespace GeometryFields

/--
Read a field into the values of a geometry, if the value of its kind is empty.
-/
def absorb? (g : GeometryFields) (e : Element) : Option GeometryFields :=
  match e.kind with
  | .extrude => fill? g.extrude e.flag? fun value => { g with extrude := value }
  | .altitudeMode =>
    fill? g.altitudeMode (e.enumerantId?.bind AltitudeMode.ofInt?) fun value =>
      { g with altitudeMode := value }
  | _ => none

end GeometryFields

namespace Body

/--
Read a field into the values of an element, if the value of its kind is empty. A field that carries
more than its text is not read, since the rest would be lost.
-/
def absorb? (body : Body) (e : Element) : Option Body :=
  if e.isPlain then
    match body with
    | feature form fields => (fields.absorb? e).map fun fields => .feature form fields
    | point fields => (fields.absorb? e).map .point
    | lineString fields tessellate =>
      match e.kind with
      | .tessellate => fill? tessellate e.flag? fun value => .lineString fields value
      | _ => (fields.absorb? e).map fun fields => .lineString fields tessellate
    | _ => none
  else
    none

end Body

namespace Element

def hasPlaceFor (owner child : Element) : Bool :=
  child.body.class?.isSome && owner.body.place? == child.body.class?
    && (owner.body.isContainer || owner.placed.isEmpty)

def keepMarkup (owner : Element) (markup : String) : Element :=
  { owner with head.unknown := owner.head.unknown ++ [markup] }

def keepMisplaced (owner child : Element) : Element :=
  match child.claim? owner.id with
  | some child => { owner with misplaced := owner.misplaced ++ [child] }
  | none => owner

def appendChild? (owner child : Element) : Option Element :=
  (child.claim? owner.id).map fun child => { owner with placed := owner.placed ++ [child] }

/--
Replace the children in their place by a single one, unless it is claimed already.
-/
def replaceChild? (owner child : Element) : Option Element :=
  (child.claim? owner.id).map fun child => { owner with placed := [child] }

def clearPlaced (owner : Element) : Element :=
  { owner with placed := [] }

def add (owner child : Element) : Element :=
  match child.body with
  | .fragment markup => owner.keepMarkup markup
  | _ =>
    if owner.hasPlaceFor child then
      (owner.appendChild? child).getD owner
    else
      match owner.body.absorb? child with
      | some body => { owner with body := body }
      | none => owner.keepMisplaced child

end Element

end KmlTree
