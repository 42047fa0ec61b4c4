import KmlTree.Attributes
import KmlTree.Position
import KmlTree.Schema.Kind

/-!
This module contains the elements of a document as trees. An element is made of a `Head`, which every
element has, a `Body` with what only elements of its kind have, and two lists of children: those that
stand where the schema wants them and those that do not.
-/

namespace KmlTree

/--
The attributes that features and geometries have in common.
-/
structure ObjectFields where
  id : Option String
  targetId : Option String
deriving DecidableEq

/--
The values that all features have in common.
-/
structure FeatureFields where
  object : ObjectFields
  name : Option String
  visibility : Option Bool
  opened : Option Bool
  address : Option String
  description : Option String
  styleUrl : Option String
deriving DecidableEq

/--
The values that all geometries have in common.
-/
structure GeometryFields where
  object : ObjectFields
  extrude : Option Bool
  altitudeMode : Option AltitudeMode
deriving DecidableEq

inductive FeatureForm where
  | document
  | folder
  | placemark
deriving DecidableEq

/--
What an element holds beyond what all elements do.
-/
inductive Body where
  | kml (hint : Option String)
  | feature (form : FeatureForm) (fields : FeatureFields)
  | point (fields : GeometryFields)
  | lineString (fields : GeometryFields) (tessellate : Option Bool)
  /-- A list of positions, and the tuples of its text that are none. -/
  | coordinates (positions : List Position) (skipped : List String)
  | field (kind : Kind)
  | fragment (markup : String)
  /-- An element that is not of the catalog but claims a kind, and kinds that it can stand for. -/
  | foreign (kind : Kind) (others : List Kind)

/--
What every element has. `charData` is the text directly inside of it, `unknown` the markup in it that
is not of the catalog, and `unknownAttributes` the attributes that its kind does not have. There is
no bag of unknown attributes before the first one is seen.
-/
structure Head where
  id : Nat
  parent : Option Nat
  xmlns : Option String
  charData : String
  unknown : List String
  unknownAttributes : Option Attributes
deriving DecidableEq

/--
An element with everything in it. The children in `placed` are those that its kind has a place for,
the ones in `misplaced` those that it has none for.
-/
structure Element where
  head : Head
  body : Body
  placed : List Element
  misplaced : List Element

namespace ObjectFields

def empty : ObjectFields := ⟨none, none⟩

end ObjectFields

namespace FeatureFields

def empty : FeatureFields := ⟨.empty, none, none, none, none, none, none⟩

end FeatureFields

namespace GeometryFields

def empty : GeometryFields := ⟨.empty, none, none⟩

end GeometryFields

namespace FeatureForm

def kind : FeatureForm → Kind
  | .document => .document
  | .folder => .folder
  | .placemark => .placemark

def isContainer : FeatureForm → Bool
  | .document => true
  | .folder => true
  | .placemark => false

end FeatureForm

/--
The classes of children that the schema has places for.
-/
inductive ChildClass where
  | feature
  | geometry
  | coordinates
deriving DecidableEq

namespace Body

def kind : Body → Kind
  | kml _ => .kml
  | feature form _ => form.kind
  | point _ => .point
  | lineString _ _ => .lineString
  | coordinates _ _ => .coordinates
  | field kind => kind
  | fragment _ => .unknown
  | foreign kind _ => kind

def kinds : Body → List Kind
  | kml _ => [.kml, .unknown]
  | feature form _ =>
    form.kind :: (if form.isContainer then [.container] else []) ++ [.feature, .object, .unknown]
  | point _ => [.point, .geometry, .object, .unknown]
  | lineString _ _ => [.lineString, .geometry, .object, .unknown]
  | coordinates _ _ => [.coordinates, .unknown]
  | field _ => [.unknown]
  | fragment _ => [.unknown]
  | foreign _ others => .unknown :: others

/--
The class that an element belongs to as a child.
-/
def class? : Body → Option ChildClass
  | feature _ _ => some .feature
  | point _ => some .geometry
  | lineString _ _ => some .geometry
  | coordinates _ _ => some .coordinates
  | _ => none

/--
Whether an element may have any number of children in their place. All others have at most one.
-/
def isContainer : Body → Bool
  | feature form _ => form.isContainer
  | _ => false

/--
The class of children that an element has a place for.
-/
def place? : Body → Option ChildClass
  | kml _ => some .feature
  | feature form _ => if form.isContainer then some .feature else some .geometry
  | point _ => some .coordinates
  | lineString _ _ => some .coordinates
  | _ => none

end Body

namespace Head

def new (id : Nat) : Head := ⟨id, none, none, "", [], none⟩

end Head

namespace Element

def ofBody (id : Nat) (body : Body) : Element := ⟨.new id, body, [], []⟩

def ofText (id : Nat) (kind : Kind) (text : String) : Element :=
  ⟨{ Head.new id with charData := text }, .field kind, [], []⟩

def id (e : Element) : Nat := e.head.id

def parent? (e : Element) : Option Nat := e.head.parent

def kind (e : Element) : Kind := e.body.kind

def isA (e : Element) (k : Kind) : Bool := e.body.kinds.contains k

def hasUnknownChildren (e : Element) : Bool :=
  !e.head.unknown.isEmpty || !e.misplaced.isEmpty

/--
Whether there is nothing that the schema does not know of in an element.
-/
def isPlain (e : Element) : Bool :=
  e.head.unknownAttributes.isNone && !e.hasUnknownChildren

/--
Claim an element for the parent with a given number. An element can be claimed only once, and not by
itself.
-/
def claim? (parent : Nat) (e : Element) : Option Element :=
  if e.head.parent.isSome || parent == e.head.id then
    none
  else
    some { e with head.parent := some parent }

/--
The fresh element of a kind. There is none of the abstract kinds and of the unknown one.
-/
def create? (id : Nat) (kind : Kind) : Option Element :=
  match kind with
  | .kml => some (ofBody id (.kml none))
  | .document => some (ofBody id (.feature .document .empty))
  | .folder => some (ofBody id (.feature .folder .empty))
  | .placemark => some (ofBody id (.feature .placemark .empty))
  | .point => some (ofBody id (.point .empty))
  | .lineString => some (ofBody id (.lineString .empty none))
  | .coordinates => some (ofBody id (.coordinates [] []))
  | kind => if kind.isSimple then some (ofBody id (.field kind)) else none

end Element

end KmlTree
