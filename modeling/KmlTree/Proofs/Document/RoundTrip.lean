import KmlTree.Proofs.Document.Rereading
import KmlTree.Proofs.Element.Built
import KmlTree.Proofs.Position

/-!
This module contains the way of an element that is made without markup into a document and back.
-/

namespace KmlTree

namespace Element

variable {e : Element} {style : Style} {limit : Nat}

theorem Typed.settled (h : e.Typed) (hexact : ∀ p ∈ e.body.positions, p.IsExact) : e.Settled where
  toRegular := h.regular
  names := by
    intro bag hbag
    rw [h.unknownAttributes] at hbag
    cases hbag
  fragments := by
    intro markup hmarkup
    rw [h.unknown] at hmarkup
    cases hmarkup
  coordinates := by
    intro positions skipped hbody
    have hskipped := h.skipped
    rw [hbody] at hskipped hexact
    have hnil : skipped = [] := hskipped
    rw [hnil]
    exact readPositions_positionsText hexact

/--
A document that is written from an element made without markup is read as an element with the same kinds,
values, children and positions, and nothing else is in it. This needs positions whose numbers read back.
-/
theorem parse_write_of_built (h : e.Built) (hexact : ∀ x ∈ e.all, ∀ p ∈ x.body.positions, p.IsExact)
    (hstyle : style.IsWhite) (hlimit : e.nesting ≤ limit) (fresh : Nat) :
    ∃ e' n, parseDocument limit fresh (e.write style) = .ok (e', n) ∧ e'.bare = e.bare
      ∧ ∀ x ∈ e'.all, x.isPlain = true := by
  have htyped := h.typed
  have hsettled : ∀ x ∈ e.all, x.Settled := by
    intro x hx
    exact (htyped x hx).settled (hexact x hx)
  obtain ⟨e', n, hparse, hbare⟩ := parse_write hsettled hstyle hlimit fresh
  refine ⟨e', n, hparse, hbare, ?_⟩
  apply all_isPlain_of_bare hbare
  intro x hx
  exact (htyped x hx).isPlain

/--
A placemark with a line, in which everything has to be escaped that can be.
-/
def escapedPlacemark : Element :=
  let position : Position := ⟨.ofBits 0x3FF8000000000000, .ofBits 0xC000000000000000, none⟩
  let coordinates : Element := ofBody 2 (.coordinates [position] [])
  let line : Element := ofBody 1 (.lineString { GeometryFields.empty with extrude := false } true)
  let placemark : Element :=
    ofBody 0 (.feature .placemark { FeatureFields.empty with name := "]]> & \"\n" })
  let line := { line with placed := [coordinates.inside 1] }
  { placemark with head.xmlns := "<'>", placed := [line.inside 0] }

theorem parse_write_escapedPlacemark :
    ∃ e n, parseDocument 3 7 (escapedPlacemark.write .pretty) = .ok (e, n)
      ∧ e.bare = escapedPlacemark.bare ∧ ∀ x ∈ e.all, x.isPlain = true := by
  have hbuilt : escapedPlacemark.Built := by
    have hcoordinates := @Built.create 2 .coordinates _ rfl rfl
    have hline := @Built.create 1 .lineString _ rfl rfl
    have hplacemark := @Built.create 0 .placemark _ rfl rfl
    have hposition := hcoordinates.addPosition
      (p := ⟨.ofBits 0x3FF8000000000000, .ofBits 0xC000000000000000, none⟩) rfl
    have hflags := (hline.assign (s := .extrude false) rfl).assign (s := .tessellate true) rfl
    have hfilled := hflags.replaceChild hposition (c := .coordinates) rfl rfl rfl
    have hname := (hplacemark.assign (s := .name "]]> & \"\n") rfl).setXmlns "<'>"
    exact hname.replaceChild hfilled (c := .geometry) rfl rfl rfl
  have hexact : ∀ x ∈ escapedPlacemark.all, ∀ p ∈ x.body.positions, p.IsExact := by
    decide +kernel
  have hlimit : escapedPlacemark.nesting ≤ 3 := by
    decide +kernel
  exact parse_write_of_built hbuilt hexact Style.isWhite_pretty hlimit 7

end Element

end KmlTree
