import KmlTree.Attributes
import KmlTree.Text.Escape

/-!
This module contains the writer of markup. The instructions to the writer are data. What an
instruction writes is a `Piece` of markup, which says how far to indent it and whether a line ends
after it but does not depend on what an indentation or the end of a line look like; a `Style` gives
these two only when the pieces become text.
-/

namespace KmlTree

/--
What is written for one level of indentation and at the end of a line.
-/
structure Style where
  indent : String
  newline : String
deriving DecidableEq

namespace Style

def pretty : Style := ⟨"  ", "\n"⟩

def raw : Style := ⟨"", ""⟩

end Style

namespace Writer

inductive Instruction where
  /-- Open an element whose content stands on lines of its own. -/
  | startTag (name : String) (attributes : Attributes)
  | endTag (name : String)
  /-- Open an element whose content stands on the same line. -/
  | startInline (name : String) (attributes : Attributes)
  | endInline (name : String)
  | text (text : String)
  | textElement (name : String) (attributes : Attributes) (text : String)
  | raw (markup : String)
deriving DecidableEq

/--
Where the writer is: the number of open elements, and how many of them were opened inline.
-/
structure Cursor where
  depth : Nat
  inlineDepth : Nat
deriving DecidableEq

def Cursor.start : Cursor := ⟨0, 0⟩

/--
A piece of markup together with the number of indentations in front of it and whether it ends its
line.
-/
structure Piece where
  indents : Nat
  markup : String
  newline : Bool
deriving DecidableEq

def Piece.render (style : Style) (p : Piece) : String :=
  String.join (List.replicate p.indents style.indent) ++ p.markup
    ++ if p.newline then style.newline else ""

def attributesText (attributes : Attributes) : String :=
  String.join <| attributes.entries.map fun (name, value) =>
    " " ++ name ++ "=\"" ++ escapeAttribute value ++ "\""

def tagText (name : String) (attributes : Attributes) : String :=
  "<" ++ name ++ attributesText attributes

namespace Cursor

/--
A piece that stands at the place of the cursor. Inside of an inline element there is neither
indentation nor the end of a line.
-/
def piece (c : Cursor) (markup : String) : Piece :=
  ⟨if c.inlineDepth = 0 then c.depth else 0, markup, c.inlineDepth == 0⟩

/--
The piece that an instruction writes, and the cursor after it.
-/
def step (c : Cursor) : Instruction → Piece × Cursor
  | .startTag name attributes =>
    (c.piece (tagText name attributes ++ ">"), { c with depth := c.depth + 1 })
  | .endTag name =>
    let c := { c with depth := c.depth - 1 }
    (c.piece ("</" ++ name ++ ">"), c)
  | .startInline name attributes =>
    ({ c.piece (tagText name attributes ++ ">") with newline := false },
     ⟨c.depth + 1, c.inlineDepth + 1⟩)
  | .endInline name =>
    let c : Cursor := ⟨c.depth - 1, c.inlineDepth - 1⟩
    ({ c.piece ("</" ++ name ++ ">") with indents := 0 }, c)
  | .text text => (c.piece (escapeText text), c)
  | .textElement name attributes text =>
    if text.isEmpty then
      (c.piece (tagText name attributes ++ "/>"), c)
    else
      (c.piece (tagText name attributes ++ ">" ++ escapeText text ++ "</" ++ name ++ ">"), c)
  | .raw markup => (c.piece markup, c)

end Cursor

def layout (c : Cursor) : List Instruction → List Piece × Cursor
  | [] => ([], c)
  | i :: is =>
    let (piece, c) := c.step i
    let (pieces, c) := layout c is
    (piece :: pieces, c)

def render (style : Style) (pieces : List Piece) : String :=
  String.join (pieces.map (Piece.render style))

def write (style : Style) (is : List Instruction) : String :=
  render style (layout .start is).1

end Writer

end KmlTree
