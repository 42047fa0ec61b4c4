import KmlTree.Proofs.Markup.Layout

/-!
This module contains the pages that a writer writes on, one instruction after the other. What an
instruction writes on a page without indentation and lines does not depend on the place
(`Writer.Page.text_put_raw`).
-/

namespace KmlTree

namespace Writer

/--
The markup that an instruction writes, without what its place puts around it.
-/
def Instruction.markup : Instruction → String
  | startTag name attributes => tagText name attributes ++ ">"
  | endTag name => "</" ++ name ++ ">"
  | startInline name attributes => tagText name attributes ++ ">"
  | endInline name => "</" ++ name ++ ">"
  | text content => escapeText content
  | textElement name attributes content =>
    if content.isEmpty then
      tagText name attributes ++ "/>"
    else
      tagText name attributes ++ ">" ++ escapeText content ++ "</" ++ name ++ ">"
  | raw markup => markup

theorem Cursor.markup_step (c : Cursor) (i : Instruction) : (c.step i).1.markup = i.markup := by
  cases i with
  | textElement name attributes text =>
    unfold step Instruction.markup
    dsimp only
    split <;> rfl
  | _ => rfl

theorem map_markup_layout (c : Cursor) (is : List Instruction) :
    (layout c is).1.map Piece.markup = is.map Instruction.markup := by
  induction is generalizing c with
  | nil => rfl
  | cons i is ih =>
    rw [layout]
    dsimp only
    rw [List.map_cons, List.map_cons, ih, Cursor.markup_step]

theorem Piece.render_raw (p : Piece) : p.render .raw = p.markup := by
  have hindents : String.join (List.replicate p.indents "") = "" := by
    rw [← String.toList_inj, String.toList_join]
    simp
  unfold render Style.raw
  dsimp only
  rw [hindents, String.empty_append]
  split <;> exact String.append_empty

theorem render_raw (ps : List Piece) : render .raw ps = String.join (ps.map Piece.markup) := by
  unfold render
  exact congrArg String.join (List.map_congr_left fun p _ => p.render_raw)

theorem write_raw (is : List Instruction) :
    write .raw is = String.join (is.map Instruction.markup) := by
  unfold write
  rw [render_raw, map_markup_layout]

/--
A page that is being written: its style, the text on it so far, and where the writer is.
-/
structure Page where
  style : Style
  text : String
  cursor : Cursor

namespace Page

def start (style : Style) : Page := ⟨style, "", .start⟩

def put (p : Page) (i : Instruction) : Page :=
  let (piece, cursor) := p.cursor.step i
  { p with text := p.text ++ piece.render p.style, cursor := cursor }

def putAll (p : Page) (is : List Instruction) : Page := is.foldl put p

theorem putAll_eq (p : Page) (is : List Instruction) :
    p.putAll is = { p with
      text := p.text ++ render p.style (layout p.cursor is).1
      cursor := (layout p.cursor is).2 } := by
  induction is generalizing p with
  | nil => simp [putAll, layout, render]
  | cons i is ih =>
    unfold putAll at ih ⊢
    rw [List.foldl_cons, ih]
    simp [put, layout, render, String.append_assoc]

theorem text_putAll_start (style : Style) (is : List Instruction) :
    ((start style).putAll is).text = write style is := by
  rw [putAll_eq]
  simp [start, write]

theorem text_put_raw {p : Page} (h : p.style = .raw) (i : Instruction) :
    (p.put i).text = p.text ++ i.markup := by
  unfold put
  dsimp only
  rw [h, Piece.render_raw, Cursor.markup_step]

end Page

end Writer

end KmlTree
