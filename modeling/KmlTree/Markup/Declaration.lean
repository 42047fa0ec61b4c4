import KmlTree.Markup.Event

/-!
This module contains the constructs of markup that begin with an exclamation mark: how each of them is
recognized, where it ends and what event it is.
-/

namespace KmlTree

/--
The constructs that an exclamation mark after the opening angle bracket announces.
-/
inductive Declaration where
  | comment
  | cdata
  | doctype
deriving DecidableEq

namespace Declaration

def ofChar? : Char → Option Declaration
  | '-' => some .comment
  | '[' => some .cdata
  | 'D' => some .doctype
  | 'd' => some .doctype
  | _ => none

def label : Declaration → String
  | .comment => "Comment"
  | .cdata => "CData"
  | .doctype => "DOCTYPE"

def opening : Declaration → List Char
  | .comment => "!--".toList
  | .cdata => "![cdata[".toList
  | .doctype => "!doctype".toList

/--
The automaton that finds the angle bracket at the end of a construct. Its state is a number of
characters read and a count: of the hyphens read last, of the brackets read last, or of the angle
brackets that are open. A comment takes five characters at least, so that the hyphens that begin it do
not end it as well.
-/
def step (k : Declaration) : Nat × Nat → Char → Option (Nat × Nat)
  | (read, count), c =>
    match k with
    | .comment =>
      if c = '>' ∧ 5 ≤ read ∧ 2 ≤ count then none
      else some (read + 1, if c = '-' then count + 1 else 0)
    | .cdata =>
      if c = '>' ∧ 2 ≤ count then none
      else some (read + 1, if c = ']' then count + 1 else 0)
    | .doctype =>
      if c = '>' then
        if count = 0 then none else some (read + 1, count - 1)
      else
        some (read + 1, if c = '<' then count + 1 else count)

/--
Whether a construct begins as it should. Only the hyphens of a comment have no case.
-/
def opens (k : Declaration) (content : List Char) : Bool :=
  (content.take k.opening.length).map Char.toLower == k.opening

/--
The event of a construct with the given content. There is none for a document type with no content.
-/
def event? (k : Declaration) (content : List Char) : Option Event :=
  let content := content.drop k.opening.length
  match k with
  | .comment => some .aside
  | .cdata => some (.cdata (content.take (content.length - 2)))
  | .doctype => if content.all isBlank then none else some .aside

end Declaration

end KmlTree
