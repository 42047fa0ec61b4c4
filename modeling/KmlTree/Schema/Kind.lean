/-!
This module contains the kinds of elements of the catalog, among them the abstract ones that only
classify others, and what the schema says of each: its tag and its content model.
-/

namespace KmlTree

inductive Kind where
  | unknown
  | object
  | feature
  | container
  | geometry
  | kml
  | document
  | folder
  | placemark
  | point
  | lineString
  | coordinates
  | name
  | visibility
  | opened
  | address
  | description
  | styleUrl
  | extrude
  | tessellate
  | altitudeMode
deriving DecidableEq, Inhabited

/--
The content that an element of the catalog may have.
-/
inductive ContentModel where
  | simple
  | complex
deriving DecidableEq

namespace Kind

def all : List Kind :=
  [.unknown, .object, .feature, .container, .geometry, .kml, .document, .folder, .placemark, .point,
   .lineString, .coordinates, .name, .visibility, .opened, .address, .description, .styleUrl,
   .extrude, .tessellate, .altitudeMode]

/--
The tags of the catalog with their kinds and content models.
-/
def catalog : List (String × Kind × ContentModel) :=
  [("kml", .kml, .complex), ("Document", .document, .complex), ("Folder", .folder, .complex),
   ("Placemark", .placemark, .complex), ("Point", .point, .complex),
   ("LineString", .lineString, .complex), ("coordinates", .coordinates, .complex),
   ("name", .name, .simple), ("visibility", .visibility, .simple), ("open", .opened, .simple),
   ("address", .address, .simple), ("description", .description, .simple),
   ("styleUrl", .styleUrl, .simple), ("extrude", .extrude, .simple),
   ("tessellate", .tessellate, .simple), ("altitudeMode", .altitudeMode, .simple)]

def ofTag? (tag : String) : Option Kind :=
  (catalog.lookup tag).map Prod.fst

/--
The tag and content model of a kind. The abstract kinds and the unknown one have neither.
-/
def entry? (k : Kind) : Option (String × Kind × ContentModel) :=
  catalog.find? fun entry => entry.2.1 == k

def tag? (k : Kind) : Option String :=
  k.entry?.map Prod.fst

def contentModel? (k : Kind) : Option ContentModel :=
  k.entry?.map fun entry => entry.2.2

def isSimple (k : Kind) : Bool :=
  k.contentModel? == some .simple

def isComplex (k : Kind) : Bool :=
  k.contentModel? == some .complex

end Kind

/--
How the altitude of a geometry is meant.
-/
inductive AltitudeMode where
  | clampToGround
  | relativeToGround
  | absolute
deriving DecidableEq, Inhabited

namespace AltitudeMode

def all : List AltitudeMode := [.clampToGround, .relativeToGround, .absolute]

def toInt : AltitudeMode → Int
  | .clampToGround => 0
  | .relativeToGround => 1
  | .absolute => 2

def ofInt? (n : Int) : Option AltitudeMode :=
  all.find? fun mode => mode.toInt == n

def enumerant : AltitudeMode → String
  | .clampToGround => "clampToGround"
  | .relativeToGround => "relativeToGround"
  | .absolute => "absolute"

end AltitudeMode

namespace Kind

/--
The texts that the schema lists as the values of a kind, in the order of their numbers. Only the
altitude mode has such a list.
-/
def enumerants : Kind → List String
  | .altitudeMode => AltitudeMode.all.map AltitudeMode.enumerant
  | _ => []

def enumerantId? (k : Kind) (text : String) : Option Int :=
  (k.enumerants.findIdx? (· == text)).map Int.ofNat

def enumerant? (k : Kind) : Int → Option String
  | .ofNat n => k.enumerants[n]?
  | .negSucc _ => none

end Kind

end KmlTree
