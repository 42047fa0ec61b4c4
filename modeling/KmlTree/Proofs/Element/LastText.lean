import KmlTree.Proofs.Element.Built
import KmlTree.Proofs.Position.Pieces

/-!
This module contains the setting of a text where there has been one before. The last text wins, except that
coordinates also keep what they have read of the earlier ones (`Element.setText_setText_iff`).
-/

namespace KmlTree

namespace Body

def IsCoordinates (body : Body) : Prop := ∃ positions skipped, body = .coordinates positions skipped

/--
How many tuples a body has, whether they are positions or not.
-/
def tupleCount (body : Body) : Nat := body.positions.length + body.skipped.length

variable {body : Body}

theorem readText_of_not_isCoordinates (h : ¬ body.IsCoordinates) (text : String) :
    body.readText text = body := by
  cases body with
  | coordinates positions skipped => exact absurd ⟨positions, skipped, rfl⟩ h
  | _ => rfl

theorem readText_of_isWhite {text : String} (h : IsWhite text.toList) :
    body.readText text = body := by
  cases body with
  | coordinates positions skipped =>
    have hnone : readPositions text.toList = ([], []) := by
      unfold readPositions
      rw [tuples_of_isWhite h]
      rfl
    simp [readText, updatePositions?, hnone]
  | _ => rfl

theorem IsCoordinates.readText (h : body.IsCoordinates) (text : String) :
    (body.readText text).IsCoordinates := by
  obtain ⟨positions, skipped, rfl⟩ := h
  exact ⟨_, _, rfl⟩

theorem IsCoordinates.tupleCount_readText (h : body.IsCoordinates) (text : String) :
    (body.readText text).tupleCount = body.tupleCount + (tuples text.toList).length := by
  obtain ⟨positions, skipped, rfl⟩ := h
  have hread : (coordinates positions skipped).readText text
      = coordinates (positions ++ (readPositions text.toList).1)
        (skipped ++ (readPositions text.toList).2) := by
    rfl
  rw [hread, ← length_readPositions]
  unfold tupleCount Body.positions Body.skipped
  dsimp only
  rw [List.length_append, List.length_append]
  omega

end Body

namespace Element

/--
Whether nothing of the text of two elements is different: the character data, the positions and tuples
that have been read, and the markup that is written in any style.
-/
structure HasTextOf (e' e : Element) : Prop where
  charData : e'.head.charData = e.head.charData
  positions : e'.body.positions = e.body.positions
  skipped : e'.body.skipped = e.body.skipped
  write : ∀ style, e'.write style = e.write style

/--
The last text that an element is given wins, if and only if the element is not a list of coordinates or
there is nothing but white space in the text before it.
-/
theorem setText_setText_iff (e : Element) (first last : String) :
    ((e.setText first).setText last).HasTextOf (e.setText last)
      ↔ ¬ e.body.IsCoordinates ∨ IsWhite first.toList := by
  have hbody : ((e.setText first).setText last).body = (e.body.readText first).readText last := by
    rfl
  constructor
  . intro h
    rw [← imp_iff_not_or]
    intro hcoordinates
    have hcount : ((e.body.readText first).readText last).tupleCount
        = (e.body.readText last).tupleCount := by
      unfold Body.tupleCount
      rw [← hbody, h.positions, h.skipped]
      rfl
    rw [(hcoordinates.readText first).tupleCount_readText, hcoordinates.tupleCount_readText,
      hcoordinates.tupleCount_readText] at hcount
    apply tuples_eq_nil_iff.mp
    exact List.eq_nil_of_length_eq_zero (by omega)
  . intro h
    have hfirst : e.body.readText first = e.body := by
      cases h with
      | inl hnot => exact Body.readText_of_not_isCoordinates hnot first
      | inr hwhite => exact Body.readText_of_isWhite hwhite
    have hsame : (e.setText first).setText last = e.setText last := by
      rw [hfirst] at hbody
      exact congrArg (Element.mk _ · _ _) hbody
    rw [hsame]
    exact ⟨rfl, rfl, rfl, fun _ => rfl⟩

/--
Coordinates that are given two texts write the positions of both.
-/
theorem coordinates_keep_first_text :
    let e := ofBody 0 (.coordinates [] [])
    ((e.setText "1,2").setText "3,4").raw = "<coordinates>1,2 3,4</coordinates>"
      ∧ (e.setText "3,4").raw = "<coordinates>3,4</coordinates>"
      ∧ ¬ ((e.setText "1,2").setText "3,4").HasTextOf (e.setText "3,4") := by
  intro e
  have hboth : ((e.setText "1,2").setText "3,4").raw = "<coordinates>1,2 3,4</coordinates>" := by
    decide +kernel
  have hlast : (e.setText "3,4").raw = "<coordinates>3,4</coordinates>" := by
    decide +kernel
  refine ⟨hboth, hlast, ?_⟩
  intro h
  have hsame : ((e.setText "1,2").setText "3,4").raw = (e.setText "3,4").raw := h.write .raw
  rw [hboth, hlast] at hsame
  exact absurd hsame (by decide)

end Element

end KmlTree
