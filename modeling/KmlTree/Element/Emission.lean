import KmlTree.Element.Attributes
import KmlTree.Element.Scalar
import KmlTree.Markup.Writer

/-!
This module contains the description of an element by a list of emissions. An emission speaks of kinds
and not of tags, and says nothing about layout. The list can be written as markup
(`Emission.instruction?`) or handed on in the basic vocabulary alone (`Emission.basic`).
-/

namespace KmlTree

/--
What an element has to say about itself.
-/
inductive Emission where
  | visit (id : Nat) (kind : Kind)
  /-- An element opens that holds other elements. -/
  | openTag (kind : Kind) (attributes : Attributes)
  | closeTag (kind : Kind)
  | simple (kind : Kind) (attributes : Attributes) (text : String)
  | verbatim (markup : String)
  /-- An element opens that holds text and then markup or other elements. -/
  | openMixed (kind : Kind) (attributes : Attributes)
  | closeMixed (kind : Kind)
  | charData (text : String)
deriving DecidableEq

namespace Emission

def ofText (kind : Kind) (text : String) : Emission :=
  .simple kind ∅ text

def ofFlag (kind : Kind) (value : Bool) : Emission :=
  ofText kind (flagText value)

def ofNumber (kind : Kind) (value : Float) : Emission :=
  ofText kind (decimalText value)

/--
A simple element with the enumerant of a given number. Where there is no such enumerant there is no
element.
-/
def ofEnumerant? (kind : Kind) (id : Int) : Option Emission :=
  (kind.enumerant? id).map (ofText kind)

/--
The same in the basic vocabulary, which has no words for text and for mixed elements.
-/
def basic : Emission → Emission
  | openMixed kind attributes => .openTag kind attributes
  | closeMixed kind => .closeTag kind
  | charData text => .verbatim (escapeText text)
  | emission => emission

/--
The instruction to write an emission. Nothing is written of the kinds that have no tag, nor where an
element only begins.
-/
def instruction? : Emission → Option Writer.Instruction
  | visit _ _ => none
  | openTag kind attributes => kind.tag?.map (.startTag · attributes)
  | closeTag kind => kind.tag?.map .endTag
  | simple kind attributes text => kind.tag?.map (.textElement · attributes text)
  | verbatim markup => some (.raw markup)
  | openMixed kind attributes => kind.tag?.map (.startInline · attributes)
  | closeMixed kind => kind.tag?.map .endInline
  | charData text => some (.text text)

def instructions (es : List Emission) : List Writer.Instruction :=
  es.filterMap instruction?

end Emission

namespace FeatureFields

def emissions (f : FeatureFields) : List Emission :=
  (f.name.map (.ofText .name)).toList
    ++ (f.visibility.map (.ofFlag .visibility)).toList
    ++ (f.opened.map (.ofFlag .opened)).toList
    ++ (f.address.map (.ofText .address)).toList
    ++ (f.description.map (.ofText .description)).toList
    ++ (f.styleUrl.map (.ofText .styleUrl)).toList

end FeatureFields

namespace GeometryFields

/--
The values of a geometry as simple elements, in the order of the schema. Those of the special
geometries come after the first.
-/
def emissions (g : GeometryFields) (special : List Emission) : List Emission :=
  (g.extrude.map (.ofFlag .extrude)).toList
    ++ special
    ++ (g.altitudeMode.bind fun mode => Emission.ofEnumerant? .altitudeMode mode.toInt).toList

end GeometryFields

inductive Content where
  | complex (values : List Emission)
  | textual (text : String)
  | verbatim (markup : String)
  | silent

/--
The text of a list of positions and of the tuples that are none.
-/
def positionsText (positions : List Position) (skipped : List String) : String :=
  String.intercalate " " (positions.map Position.tuple ++ skipped)

def Body.content (charData : String) : Body → Content
  | kml _ => .complex []
  | feature _ fields => .complex fields.emissions
  | point fields => .complex (fields.emissions [])
  | lineString fields tessellate =>
    .complex (fields.emissions (tessellate.map (.ofFlag .tessellate)).toList)
  | coordinates positions skipped => .textual (positionsText positions skipped)
  | field _ => .textual charData
  | fragment markup => .verbatim markup
  | foreign _ _ => .silent

def textEmissions (text : List Char) : List Emission :=
  if text.isEmpty then [] else [.charData (String.ofList text)]

mutual

/--
The description of an element. Text that stands where none is expected is kept without the white space
around it, before the unknown markup and the misplaced children.
-/
def Element.emissions : Element → List Emission
  | ⟨head, body, placed, misplaced⟩ =>
    let kind := body.kind
    let attributes := head.putAttributes (body.putAttributes ∅)
    let kept := head.unknown.map .verbatim ++ emissionsOfAll misplaced
    let described :=
      match body.content head.charData with
      | .complex values =>
        .openTag kind attributes :: values ++ emissionsOfAll placed
          ++ textEmissions (trim head.charData.toList) ++ kept ++ [.closeTag kind]
      | .textual text =>
        if head.unknown.isEmpty && misplaced.isEmpty then
          [.simple kind attributes text]
        else
          .openMixed kind attributes :: textEmissions text.toList ++ kept ++ [.closeMixed kind]
      | .verbatim markup => [.verbatim markup]
      | .silent => []
    .visit head.id kind :: described

def emissionsOfAll : List Element → List Emission
  | [] => []
  | e :: es => e.emissions ++ emissionsOfAll es

end

namespace Element

def write (style : Style) (e : Element) : String :=
  Writer.write style (Emission.instructions e.emissions)

def pretty (e : Element) : String := e.write .pretty

def raw (e : Element) : String := e.write .raw

end Element

end KmlTree
