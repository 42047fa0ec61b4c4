import KmlTree.Element.Attributes

/-!
This module contains the setting of the text and of the values of an element.
-/

namespace KmlTree

/--
A value of an element that is to be set, or to be cleared where there is nothing given.
-/
inductive Setting where
  | id (value : Option String)
  | targetId (value : Option String)
  | hint (value : Option String)
  | name (value : Option String)
  | visibility (value : Option Bool)
  | opened (value : Option Bool)
  | address (value : Option String)
  | description (value : Option String)
  | styleUrl (value : Option String)
  | extrude (value : Option Bool)
  | tessellate (value : Option Bool)
  | altitudeMode (value : Option AltitudeMode)
deriving DecidableEq

namespace Body

def updateFeature? (f : FeatureFields → FeatureFields) : Body → Option Body
  | feature form fields => some (.feature form (f fields))
  | _ => none

def updateGeometry? (f : GeometryFields → GeometryFields) : Body → Option Body
  | point fields => some (.point (f fields))
  | lineString fields tessellate => some (.lineString (f fields) tessellate)
  | _ => none

def updateObject? (f : ObjectFields → ObjectFields) (body : Body) : Option Body :=
  body.object?.map fun _ => body.updateObject f

def assign? (body : Body) : Setting → Option Body
  | .id value => body.updateObject? fun o => { o with id := value }
  | .targetId value => body.updateObject? fun o => { o with targetId := value }
  | .hint value =>
    match body with
    | kml _ => some (.kml value)
    | _ => none
  | .name value => body.updateFeature? fun f => { f with name := value }
  | .visibility value => body.updateFeature? fun f => { f with visibility := value }
  | .opened value => body.updateFeature? fun f => { f with opened := value }
  | .address value => body.updateFeature? fun f => { f with address := value }
  | .description value => body.updateFeature? fun f => { f with description := value }
  | .styleUrl value => body.updateFeature? fun f => { f with styleUrl := value }
  | .extrude value => body.updateGeometry? fun g => { g with extrude := value }
  | .tessellate value =>
    match body with
    | lineString fields _ => some (.lineString fields value)
    | _ => none
  | .altitudeMode value => body.updateGeometry? fun g => { g with altitudeMode := value }

def updatePositions? (f : List Position × List String → List Position × List String) :
    Body → Option Body
  | coordinates positions skipped =>
    let (positions, skipped) := f (positions, skipped)
    some (.coordinates positions skipped)
  | _ => none

/--
The body of an element that receives a text. Only coordinates read it; they add what they find to what
they have.
-/
def readText (body : Body) (text : String) : Body :=
  (body.updatePositions? fun (positions, skipped) =>
    let (newPositions, newSkipped) := readPositions text.toList
    (positions ++ newPositions, skipped ++ newSkipped)).getD body

end Body

namespace Element

def assign? (e : Element) (s : Setting) : Option Element :=
  (e.body.assign? s).map fun body => { e with body := body }

/--
Store a text in an element without reading it.
-/
def storeText (e : Element) (text : String) : Element :=
  { e with head.charData := text }

/--
Give an element the text that stands directly inside of it.
-/
def setText (e : Element) (text : String) : Element :=
  { e.storeText text with body := e.body.readText text }

def addPosition? (e : Element) (p : Position) : Option Element :=
  (e.body.updatePositions? fun (positions, skipped) => (positions ++ [p], skipped)).map fun body =>
    { e with body := body }

/--
Remove all positions from a list of coordinates, and all tuples that are none.
-/
def clearPositions? (e : Element) : Option Element :=
  (e.body.updatePositions? fun _ => ([], [])).map fun body => { e with body := body }

end Element

end KmlTree
