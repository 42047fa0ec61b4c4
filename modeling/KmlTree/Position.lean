import KmlTree.Decimal.Text
import KmlTree.Text.Space

/-!
This module contains the positions on the globe and the text of a list of them: tuples of components
that commas separate, and tuples that white space separates.
-/

namespace KmlTree

/--
A longitude, a latitude and perhaps an altitude.
-/
structure Position where
  longitude : Float
  latitude : Float
  altitude : Option Float
deriving DecidableEq

namespace Position

def components (p : Position) : List Float :=
  [p.longitude, p.latitude] ++ p.altitude.toList

def ofComponents? : List Float → Option Position
  | [longitude, latitude] => some ⟨longitude, latitude, none⟩
  | [longitude, latitude, altitude] => some ⟨longitude, latitude, some altitude⟩
  | _ => none

/--
Read a tuple. Each of its components has to be a number without anything around it.
-/
def ofTuple? (tuple : List Char) : Option Position := do
  let components ← (cutAt (· == ',') tuple).mapM readDecimal?
  ofComponents? components

def tuple (p : Position) : String :=
  String.intercalate "," (p.components.map decimalText)

/--
Whether two positions have equal components. Zeros are equal whatever their sign, and what is not a
number is not equal to itself.
-/
def same (p q : Position) : Bool :=
  p.longitude == q.longitude && p.latitude == q.latitude && p.altitude == q.altitude

end Position

/--
Remove the white space on both sides of every comma.
-/
def tightenCommas (s : List Char) : List Char :=
  s.foldr step []
where
  step (c : Char) (rest : List Char) : List Char :=
    if c = ',' then
      ',' :: rest.dropWhile isSpace
    else if isSpace c && rest.head? == some ',' then
      rest
    else
      c :: rest

/--
The tuples of a text: its words, where white space beside a comma does not end a word.
-/
def tuples (s : List Char) : List (List Char) :=
  words (tightenCommas s)

/--
The positions among the tuples of a text, and the tuples that are none, both in order.
-/
def readPositions (s : List Char) : List Position × List String :=
  let ts := tuples s
  (ts.filterMap Position.ofTuple?,
   (ts.filter fun t => (Position.ofTuple? t).isNone).map String.ofList)

end KmlTree
