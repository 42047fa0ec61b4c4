import KmlTree.Markup.Tag

/-!
This module contains the events that a text of markup is cut into, and what can keep it from being cut.
-/

namespace KmlTree

/--
What a reader meets in a text.
-/
inductive Event where
  | text (raw : List Char)
  | cdata (content : List Char)
  | start (tag : Tag)
  | empty (tag : Tag)
  | close (name : String)
  | aside
deriving DecidableEq

/--
Why a text is not markup.
-/
inductive ReadError where
  | unexpectedEnd (construct : String)
  /-- An exclamation mark after an opening angle bracket is followed by this byte. -/
  | unknownDeclaration (byte : Nat)
  | emptyDoctype
  | mismatchedEnd (expected found : String)
deriving DecidableEq

end KmlTree
