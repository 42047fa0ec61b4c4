import KmlTree.Decimal.Integer
import KmlTree.Element.Basic

/-!
This module contains the values that the text of a field can be read as. Only a field has them: all
other elements answer that there is no value, whatever their text is.
-/

namespace KmlTree

/--
The types of values that a field can be read as.
-/
inductive ScalarType where
  | flag
  | number
  | integer
  | enumerant
  | text
deriving DecidableEq

/--
A value of a field. An enumerant is given by its number.
-/
inductive Scalar where
  | flag (value : Bool)
  | number (value : Float)
  | integer (value : Int)
  | enumerant (id : Int)
  | text (value : String)

def readFlag? (s : List Char) : Option Bool :=
  if s = "1".toList ∨ s = "true".toList then some true
  else if s = "0".toList ∨ s = "false".toList then some false
  else none

def flagText (value : Bool) : String :=
  if value then "1" else "0"

/--
Read the text of a field of a given kind. White space around the value is ignored, except for a text,
which is taken as it is.
-/
def Scalar.read? (kind : Kind) (text : String) : ScalarType → Option Scalar
  | .flag => (readFlag? (trim text.toList)).map .flag
  | .number => (readDecimal? (trim text.toList)).map .number
  | .integer => (readInt32? (trim text.toList)).map .integer
  | .enumerant => (kind.enumerantId? (String.ofList (trim text.toList))).map .enumerant
  | .text => some (.text text)

namespace Element

def scalar? (e : Element) (type : ScalarType) : Option Scalar :=
  match e.body with
  | .field kind => Scalar.read? kind e.head.charData type
  | _ => none

def flag? (e : Element) : Option Bool :=
  match e.scalar? .flag with
  | some (.flag value) => some value
  | _ => none

def number? (e : Element) : Option Float :=
  match e.scalar? .number with
  | some (.number value) => some value
  | _ => none

def integer? (e : Element) : Option Int :=
  match e.scalar? .integer with
  | some (.integer value) => some value
  | _ => none

def enumerantId? (e : Element) : Option Int :=
  match e.scalar? .enumerant with
  | some (.enumerant id) => some id
  | _ => none

def text? (e : Element) : Option String :=
  match e.scalar? .text with
  | some (.text value) => some value
  | _ => none

end Element

/--
Replace what is there by a value if there is one: whether there is, and what is there afterwards.
-/
def overwrite {α : Type} (value? : Option α) (current : α) : Bool × α :=
  (value?.isSome, value?.getD current)

end KmlTree
