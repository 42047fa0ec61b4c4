import KmlTree.Element.Basic

/-!
This module contains the way of attributes into an element and out of it. An element takes the
attributes that its kind has a value for and keeps the rest as unknown. It lists its values first,
then its default namespace, then the unknown attributes.
-/

namespace KmlTree

namespace ObjectFields

/--
Take the attributes of an object out of a bag: the values with them, and what is left.
-/
def takeAttributes (o : ObjectFields) (a : Attributes) : ObjectFields × Attributes :=
  let (id, a) := a.cut "id"
  let (targetId, a) := a.cut "targetId"
  (⟨id <|> o.id, targetId <|> o.targetId⟩, a)

def putAttributes (o : ObjectFields) (a : Attributes) : Attributes :=
  (a.set? "id" o.id).set? "targetId" o.targetId

end ObjectFields

namespace Body

def object? : Body → Option ObjectFields
  | feature _ fields => some fields.object
  | point fields => some fields.object
  | lineString fields _ => some fields.object
  | _ => none

def updateObject (f : ObjectFields → ObjectFields) : Body → Body
  | feature form fields => .feature form { fields with object := f fields.object }
  | point fields => .point { fields with object := f fields.object }
  | lineString fields tessellate =>
    .lineString { fields with object := f fields.object } tessellate
  | body => body

/--
Take the attributes that an element has values for out of a bag: the element with them, and what is
left.
-/
def takeAttributes (body : Body) (a : Attributes) : Body × Attributes :=
  match body with
  | kml hint =>
    let (new, a) := a.cut "hint"
    (.kml (new <|> hint), a)
  | body =>
    match body.object? with
    | some object =>
      let (object, a) := object.takeAttributes a
      (body.updateObject fun _ => object, a)
    | none => (body, a)

def putAttributes (body : Body) (a : Attributes) : Attributes :=
  match body with
  | kml hint => a.set? "hint" hint
  | body =>
    match body.object? with
    | some object => object.putAttributes a
    | none => a

end Body

namespace Head

def keepAttributes (h : Head) (a : Attributes) : Head :=
  if a.isEmpty then
    h
  else
    match h.unknownAttributes with
    | some unknown => { h with unknownAttributes := some (unknown.merge a) }
    | none => { h with unknownAttributes := some a }

def putAttributes (h : Head) (a : Attributes) : Attributes :=
  let a := a.set? "xmlns" h.xmlns
  match h.unknownAttributes with
  | some unknown => a.merge unknown
  | none => a

end Head

namespace Element

def takeAttributes (e : Element) (a : Attributes) : Element :=
  let (body, rest) := e.body.takeAttributes a
  { e with body := body, head := e.head.keepAttributes rest }

def setXmlns (e : Element) (xmlns : String) : Element :=
  { e with head.xmlns := some xmlns }

def putAttributes (e : Element) (a : Attributes) : Attributes :=
  e.head.putAttributes (e.body.putAttributes a)

def attributes (e : Element) : Attributes :=
  e.putAttributes ∅

end Element

end KmlTree
