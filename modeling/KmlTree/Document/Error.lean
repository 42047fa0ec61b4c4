import KmlTree.Markup.Message

/-!
This module contains the reasons why a text is not a document.
-/

namespace KmlTree

inductive MarkupFault where
  | read (error : ReadError)
  | attributes (error : AttributeError)
  | reference (error : ReferenceError)
  | unclosedMarkup (name : String)
deriving DecidableEq

/--
Why a text is not a document.
-/
inductive ParseError where
  | markup (position : Nat) (fault : MarkupFault)
  | unknownRoot (name : String)
  | nestingTooDeep (limit : Nat)
  | unclosedElements (count : Nat)
  | noRoot
  | multipleRoots
  /-- The markup of an element that is not of the catalog would begin or end inside of a character. -/
  | splitCharacter
deriving DecidableEq

def MarkupFault.message : MarkupFault → String
  | read error => error.message
  | attributes error => error.message
  | reference error => error.message
  | unclosedMarkup name => "Unexpected EOF during reading </Ok(" ++ quoted name ++ ")>"

def ParseError.message : ParseError → String
  | markup position fault => "XML error at byte " ++ toString position ++ ": " ++ fault.message
  | unknownRoot name => "Unknown root element: " ++ name
  | nestingTooDeep limit => "Nesting deeper than " ++ toString limit ++ " elements"
  | unclosedElements count => "Input ended with " ++ toString count ++ " unclosed elements"
  | noRoot => "No root element"
  | multipleRoots => "More than one root element"
  | splitCharacter => "Markup is cut inside of a character"

end KmlTree
