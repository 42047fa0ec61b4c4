import KmlTree.Document.Builder

/-!
This module contains the parsing of a document into its root element.
-/

namespace KmlTree

/--
The number of elements that may be around each other unless something else is asked for.
-/
def defaultNestingLimit : Nat := 100

/--
Parse a document. The elements get the numbers from `fresh` on in the order in which they begin; the
first number that is not used is returned together with the root.
-/
def parseDocument (limit fresh : Nat) (text : String) : Except ParseError (Element × Nat) := do
  let chars := text.toList
  let transcript := (Reader.start chars).transcript
  let builder ← transcript.events.foldlM (Builder.step chars limit) (.start fresh)
  builder.finish transcript.ending

end KmlTree
