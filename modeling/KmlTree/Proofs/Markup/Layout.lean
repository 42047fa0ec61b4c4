import KmlTree.Markup.Writer
import KmlTree.Proofs.Text.Space

/-!
This module contains the text of a list of instructions in parts: what an instruction writes, and the
white space that the place of the cursor puts around it.
-/

namespace KmlTree

/--
Whether a style adds nothing but white space.
-/
structure Style.IsWhite (style : Style) : Prop where
  indent : KmlTree.IsWhite style.indent.toList
  newline : KmlTree.IsWhite style.newline.toList

theorem Style.isWhite_pretty : pretty.IsWhite := by
  constructor <;>
  . apply List.all_eq_true.mp
    decide

namespace Writer

namespace Cursor

variable {style : Style} {c : Cursor}

def before (style : Style) (c : Cursor) : List Char :=
  if c.inlineDepth = 0 then (List.replicate c.depth style.indent).flatMap String.toList else []

def after (style : Style) (c : Cursor) : List Char :=
  if c.inlineDepth = 0 then style.newline.toList else []

theorem isWhite_before (h : style.IsWhite) (c : Cursor) : IsWhite (c.before style) := by
  unfold before
  split
  . intro d hd
    obtain ⟨s, hs, hd⟩ := List.mem_flatMap.mp hd
    rw [List.eq_of_mem_replicate hs] at hd
    exact h.indent d hd
  . exact .nil

theorem isWhite_after (h : style.IsWhite) (c : Cursor) : IsWhite (c.after style) := by
  unfold after
  split
  . exact h.newline
  . exact .nil

theorem toList_render_piece (c : Cursor) (markup : String) :
    ((c.piece markup).render style).toList = c.before style ++ markup.toList ++ c.after style := by
  unfold piece Piece.render before after
  by_cases h : c.inlineDepth = 0
  . simp [h, String.toList_join]
  . simp [h]

/--
The cursor inside of an element whose content stands on lines of its own.
-/
def down (c : Cursor) : Cursor := { c with depth := c.depth + 1 }

/--
The cursor inside of an element whose content stands on the same line.
-/
def inline (c : Cursor) : Cursor := ⟨c.depth + 1, c.inlineDepth + 1⟩

theorem before_inline (c : Cursor) : c.inline.before style = [] := by
  rfl

end Cursor

/--
The text that a list of instructions writes at a place, and the cursor behind it.
-/
def written (style : Style) (c : Cursor) (is : List Instruction) : List Char :=
  (render style (layout c is).1).toList

variable {style : Style} {c c' c'' : Cursor} {i : Instruction} {is js : List Instruction}

theorem layout_append (c : Cursor) (is js : List Instruction) :
    layout c (is ++ js)
      = ((layout c is).1 ++ (layout (layout c is).2 js).1, (layout (layout c is).2 js).2) := by
  induction is generalizing c with
  | nil => simp [layout]
  | cons i is ih => simp [layout, ih]

theorem written_append (c : Cursor) (is js : List Instruction) :
    written style c (is ++ js) = written style c is ++ written style (layout c is).2 js := by
  unfold written render
  rw [layout_append]
  simp [String.toList_join]

theorem written_singleton (c : Cursor) (i : Instruction) :
    written style c [i] = ((c.step i).1.render style).toList := by
  unfold written render
  simp [layout]

theorem written_startTag (c : Cursor) (name : String) (a : Attributes) :
    written style c [.startTag name a]
      = c.before style ++ ((tagText name a).toList ++ ['>']) ++ c.after style := by
  rw [written_singleton]
  unfold Cursor.step
  rw [Cursor.toList_render_piece]
  simp

theorem written_endTag (c : Cursor) (name : String) :
    written style c.down [.endTag name]
      = c.before style ++ ('<' :: '/' :: name.toList ++ ['>']) ++ c.after style := by
  rw [written_singleton]
  unfold Cursor.step Cursor.down
  dsimp only
  rw [Nat.add_sub_cancel, Cursor.toList_render_piece]
  simp

theorem written_startInline (c : Cursor) (name : String) (a : Attributes) :
    written style c [.startInline name a] = c.before style ++ ((tagText name a).toList ++ ['>']) := by
  rw [written_singleton]
  unfold Cursor.step Cursor.piece Piece.render Cursor.before
  by_cases h : c.inlineDepth = 0
  . simp [h, String.toList_join]
  . simp [h]

theorem written_endInline (c : Cursor) (name : String) :
    written style c.inline [.endInline name]
      = ('<' :: '/' :: name.toList ++ ['>']) ++ c.after style := by
  rw [written_singleton]
  unfold Cursor.step Cursor.piece Piece.render Cursor.after Cursor.inline
  dsimp only
  rw [Nat.add_sub_cancel]
  by_cases h : c.inlineDepth = 0
  . simp [h]
  . simp [h]

theorem written_text (c : Cursor) (text : String) :
    written style c [.text text] = c.before style ++ (escapeText text).toList ++ c.after style := by
  rw [written_singleton]
  exact Cursor.toList_render_piece c _

theorem written_raw (c : Cursor) (markup : String) :
    written style c [.raw markup] = c.before style ++ markup.toList ++ c.after style := by
  rw [written_singleton]
  exact Cursor.toList_render_piece c _

theorem written_textElement (c : Cursor) (name : String) (a : Attributes) (text : String) :
    written style c [.textElement name a text]
      = c.before style
        ++ (if text = "" then
            (tagText name a).toList ++ ['/', '>']
          else
            (tagText name a).toList ++ ['>'] ++ (escapeText text).toList
              ++ ('<' :: '/' :: name.toList ++ ['>']))
        ++ c.after style := by
  rw [written_singleton]
  unfold Cursor.step
  by_cases h : text = ""
  . subst h
    simp [Cursor.toList_render_piece]
  . have hempty : text.isEmpty = false := by
      simpa using h
    simp [hempty, h, Cursor.toList_render_piece]

end Writer

end KmlTree
