import KmlTree.Document.Parse
import KmlTree.Workspace.Basic

/-!
This module contains the commands that make elements, change them and move them from slot to slot and
into each other. An element is always at exactly one place, so a command takes a child out of its slot
before it does anything with it, and puts it back if the child is refused.
-/

namespace KmlTree

inductive Command where
  | create (slot : String) (kind : Kind)
  | createField (slot : String) (kind : Kind) (text : String)
  | createFragment (slot markup : String)
  | createForeign (slot : String) (kind : Kind) (others : List Kind)
  | parse (slot text : String)
  | drop (slot : String)
  | add (slot child : String)
  /-- Claim an element for a parent without moving it. -/
  | claim (slot parent : String)
  | takeAttributes (slot : String) (attributes : Attributes)
  | setXmlns (slot xmlns : String)
  | setText (slot text : String)
  | storeText (slot text : String)
  | keepMarkup (slot markup : String)
  | assign (slot : String) (setting : Setting)
  | setAltitudeMode (slot : String) (id : Int)
  | clearChild (slot : String) (childClass : ChildClass)
  | setChild (slot : String) (childClass : ChildClass) (child : Option String)
  | addFeature (slot child : String)
  | addPosition (slot : String) (position : Position)
  | clearPositions (slot : String)
  /-- Claim an element for the owner in a slot and make it the single one, or drop the single one. -/
  | claimSingle (slot : String) (child : Option String)
  /-- Claim an element for the owner in a slot and append it to the list. -/
  | claimListed (slot : String) (child : Option String)

inductive Answer where
  /-- A slot that the command names is empty, or it names one slot twice. -/
  | skipped
  | done
  | flag (value : Bool)
  | accepted
  | rejected
  | notApplicable
  | unfit (childClass : ChildClass)
  | failed (error : ParseError)
  | size (count : Nat)

namespace Body

/--
The class of the only child of an element. A container has any number of children instead.
-/
def singleClass? (body : Body) : Option ChildClass :=
  if body.isContainer then none else body.place?

end Body

namespace Workspace

def update (w : Workspace) (slot : String) (f : Element → Element × Answer) : Workspace × Answer :=
  match w.get? slot with
  | none => (w, .skipped)
  | some e =>
    let (e, answer) := f e
    (w.put slot e, answer)

def update? (w : Workspace) (slot : String) (f : Element → Option Element)
    (answer : Element → Answer) : Workspace × Answer :=
  w.update slot fun e =>
    match f e with
    | some e => (e, answer e)
    | none => (e, .notApplicable)

/--
Do something with the element of a slot and a child from another one. The child is out of its slot
from then on unless `f` returns it.
-/
def withChild (w : Workspace) (slot child : String)
    (f : Workspace → Element → Element → Workspace × Answer × Option Element) :
    Workspace × Answer :=
  if slot = child then
    (w, .skipped)
  else
    match w.get? slot, w.get? child with
    | some e, some c =>
      match f (w.erase child) e c with
      | (w, answer, none) => (w, answer)
      | (w, answer, some c) => (w.put child c, answer)
    | _, _ => (w, .skipped)

/--
Replace or append a child that has the right class. `applicable` tells whether the owner has a place of
that class, and `install?` puts the child there unless it is claimed already.
-/
def install (slot : String) (childClass : ChildClass) (applicable : Element → Bool)
    (install? : Element → Element → Option Element) (w : Workspace) (e child : Element) :
    Workspace × Answer × Option Element :=
  if child.body.class? = some childClass then
    if applicable e then
      match install? e child with
      | some e => (w.put slot e, .accepted, none)
      | none => (w, .rejected, some child)
    else
      (w, .notApplicable, some child)
  else
    (w, .unfit childClass, some child)

/--
Claim a child for an owner, and put it away by `store` unless it is claimed already.
-/
def claimFor (store : Workspace → Element → Workspace) (w : Workspace) (e child : Element) :
    Workspace × Answer × Option Element :=
  match child.claim? e.id with
  | some child => (store w child, .accepted, none)
  | none => (w, .rejected, some child)

def positionCount (e : Element) : Answer :=
  match e.body with
  | .coordinates positions _ => .size positions.length
  | _ => .notApplicable

def exec (w : Workspace) : Command → Workspace × Answer
  | .create slot kind =>
    match Element.create? w.fresh kind with
    | some e => (w.putNew slot e (w.fresh + 1), .flag true)
    | none => (w, .flag false)
  | .createField slot kind text =>
    (w.putNew slot (.ofText w.fresh kind text) (w.fresh + 1), .flag true)
  | .createFragment slot markup =>
    (w.putNew slot (.ofBody w.fresh (.fragment markup)) (w.fresh + 1), .flag true)
  | .createForeign slot kind others =>
    (w.putNew slot (.ofBody w.fresh (.foreign kind others)) (w.fresh + 1), .flag true)
  | .parse slot text =>
    match parseDocument defaultNestingLimit w.fresh text with
    | .ok (e, fresh) => (w.putNew slot e fresh, .flag true)
    | .error error => (w, .failed error)
  | .drop slot =>
    match w.get? slot with
    | some _ => (w.erase slot, .done)
    | none => (w, .skipped)
  | .add slot child => w.withChild slot child fun w e c => (w.put slot (e.add c), .done, none)
  | .claim slot parent =>
    match w.get? parent with
    | none => (w, .skipped)
    | some p =>
      w.update slot fun e =>
        match e.claim? p.id with
        | some e => (e, .flag true)
        | none => (e, .flag false)
  | .takeAttributes slot attributes =>
    w.update slot fun e => (e.takeAttributes attributes, .done)
  | .setXmlns slot xmlns => w.update slot fun e => (e.setXmlns xmlns, .done)
  | .setText slot text => w.update slot fun e => (e.setText text, .done)
  | .storeText slot text => w.update slot fun e => (e.storeText text, .done)
  | .keepMarkup slot markup => w.update slot fun e => (e.keepMarkup markup, .done)
  | .assign slot setting => w.update? slot (·.assign? setting) fun _ => .accepted
  | .setAltitudeMode slot id =>
    w.update slot fun e =>
      match e.assign? (.altitudeMode (AltitudeMode.ofInt? id)) with
      | none => (e, .notApplicable)
      | some e' => if (AltitudeMode.ofInt? id).isSome then (e', .accepted) else (e, .rejected)
  | .clearChild slot childClass =>
    w.update? slot
      (fun e => if e.body.singleClass? = some childClass then some e.clearPlaced else none)
      fun _ => .accepted
  | .setChild slot childClass none =>
    w.update? slot
      (fun e => if e.body.singleClass? = some childClass then some e.clearPlaced else none)
      fun _ => .accepted
  | .setChild slot childClass (some child) =>
    w.withChild slot child
      (install slot childClass (fun e => e.body.singleClass? = some childClass) Element.replaceChild?)
  | .addFeature slot child =>
    w.withChild slot child
      (install slot .feature (fun e => e.body.isContainer) Element.appendChild?)
  | .addPosition slot position => w.update? slot (·.addPosition? position) positionCount
  | .clearPositions slot => w.update? slot Element.clearPositions? positionCount
  | .claimSingle slot none =>
    match w.get? slot with
    | some _ => ({ w with single := none }, .accepted)
    | none => (w, .skipped)
  | .claimSingle slot (some child) =>
    w.withChild slot child (claimFor fun w c => { w with single := some c })
  | .claimListed slot none =>
    match w.get? slot with
    | some _ => (w, .accepted)
    | none => (w, .skipped)
  | .claimListed slot (some child) =>
    w.withChild slot child (claimFor fun w c => { w with listed := w.listed ++ [c] })

end Workspace

end KmlTree
