import KmlTree.Proofs.Element.Serialization

/-!
This module contains the places of the pieces of markup that an element is written in
(`Element.sites`). They are known from the element alone, and they determine where there is indentation
and where lines end (`Element.exists_pieces`).
-/

namespace KmlTree

/--
Whether an element is written as text.
-/
def Body.isTextual : Body → Bool
  | coordinates _ _ => true
  | field _ => true
  | _ => false

namespace Element

/--
Whether an element has markup or other elements behind its text.
-/
def isMixed (e : Element) : Bool := e.body.isTextual && e.hasUnknownChildren

end Element

/--
What a piece of markup is: the start tag or the end tag of an element, or what is written in one piece.
-/
inductive Part where
  | opening (e : Element)
  | closing (e : Element)
  | whole (i : Writer.Instruction)

namespace Part

def markup : Part → String
  | opening e => Writer.tagText (e.kind.tag?.getD "") e.attributes ++ ">"
  | closing e => "</" ++ e.kind.tag?.getD "" ++ ">"
  | whole i => i.markup

def opensMixed : Part → Bool
  | opening e => e.isMixed
  | _ => false

def closesMixed : Part → Bool
  | closing e => e.isMixed
  | _ => false

theorem closesMixed_of_opensMixed {p : Part} (h : p.opensMixed = true) : p.closesMixed = false := by
  cases p with
  | opening e => rfl
  | closing | whole => cases h

end Part

/--
A piece of markup with the elements whose tags are open around it, the innermost one first.
-/
structure Site where
  around : List Element
  part : Part

/--
The sites of instructions that write no tags around others.
-/
def wholeSites (around : List Element) (is : List Writer.Instruction) : List Site :=
  is.map fun i => ⟨around, .whole i⟩

/--
The sites between the tags of an element, together with its tags. Some kinds have none.
-/
def Element.enclose (e : Element) (around : List Element) (inside : List Site) : List Site :=
  if e.kind.tag?.isSome then
    ⟨around, .opening e⟩ :: inside ++ [⟨around, .closing e⟩]
  else
    inside

mutual

/--
The sites of the markup of an element. `around` has the elements whose tags are open around it.
-/
def Element.sites (around : List Element) : Element → List Site
  | ⟨head, body, placed, misplaced⟩ =>
    let e : Element := ⟨head, body, placed, misplaced⟩
    let inside := if e.kind.tag?.isSome then e :: around else around
    let kept := wholeSites inside (head.unknown.map .raw) ++ sitesOfAll inside misplaced
    match body.content head.charData with
    | .complex values =>
      e.enclose around <|
        wholeSites inside (Emission.instructions values) ++ sitesOfAll inside placed
          ++ wholeSites inside (textInstructions (trim head.charData.toList)) ++ kept
    | .textual text =>
      if head.unknown.isEmpty && misplaced.isEmpty then
        wholeSites around (Emission.simple e.kind e.attributes text).instruction?.toList
      else
        e.enclose around (wholeSites inside (textInstructions text.toList) ++ kept)
    | .verbatim markup => wholeSites around [.raw markup]
    | .silent => []

def sitesOfAll (around : List Element) : List Element → List Site
  | [] => []
  | e :: es => e.sites around ++ sitesOfAll around es

end

namespace Site

/--
Whether a site is not between the tags of an element with something behind its text.
-/
def IsOutside (s : Site) : Prop := ∀ e ∈ s.around, e.isMixed = false

/--
Whether a piece of markup is laid out as its site wants it. Between the tags of a mixed element there is
neither indentation nor the end of a line; the tags of an outermost one stand on one line.
-/
structure Places (s : Site) (p : Writer.Piece) : Prop where
  markup : p.markup = s.part.markup
  line : s.IsOutside → s.part.opensMixed = false → s.part.closesMixed = false →
    p.indents = s.around.length ∧ p.newline = true
  opening : s.IsOutside → s.part.opensMixed = true → p.indents = s.around.length ∧ p.newline = false
  closing : s.IsOutside → s.part.closesMixed = true → p.indents = 0 ∧ p.newline = true
  inside : ¬s.IsOutside → p.indents = 0 ∧ p.newline = false

/--
The cursor between the tags of given elements.
-/
def cursor (around : List Element) : Writer.Cursor :=
  ⟨around.length, around.countP Element.isMixed⟩

def piece (s : Site) : Writer.Piece :=
  let p := (cursor s.around).piece s.part.markup
  if s.part.opensMixed then
    { p with newline := false }
  else if s.part.closesMixed then
    { p with indents := 0 }
  else
    p

variable {s : Site}

theorem isOutside_iff : s.IsOutside ↔ (cursor s.around).inlineDepth = 0 := by
  unfold IsOutside cursor
  simp [List.countP_eq_zero]

theorem piece_outside (h : s.IsOutside) (markup : String) :
    (cursor s.around).piece markup = ⟨s.around.length, markup, true⟩ := by
  rw [isOutside_iff] at h
  unfold Writer.Cursor.piece
  rw [h]
  rfl

theorem piece_inside (h : ¬s.IsOutside) (markup : String) :
    (cursor s.around).piece markup = ⟨0, markup, false⟩ := by
  rw [isOutside_iff] at h
  unfold Writer.Cursor.piece
  rw [if_neg h, beq_eq_false_iff_ne.mpr h]

theorem places_piece (s : Site) : s.Places s.piece := by
  unfold piece
  constructor
  . split
    . rfl
    . split <;> rfl
  . intro houtside hopens hcloses
    rw [piece_outside houtside, hopens, hcloses]
    exact ⟨rfl, rfl⟩
  . intro houtside hopens
    rw [piece_outside houtside, hopens]
    exact ⟨rfl, rfl⟩
  . intro houtside hcloses
    have hopens : s.part.opensMixed = false := by
      by_contra hopens
      rw [Part.closesMixed_of_opensMixed (eq_true_of_ne_false hopens)] at hcloses
      cases hcloses
    rw [piece_outside houtside, hopens, hcloses]
    exact ⟨rfl, rfl⟩
  . intro hinside
    rw [piece_inside hinside]
    dsimp only
    split
    . exact ⟨rfl, rfl⟩
    . split <;> exact ⟨rfl, rfl⟩

theorem cursor_tags {e : Element} (h : e.isMixed = false) (around : List Element) :
    cursor (e :: around) = (cursor around).down := by
  simp [cursor, Writer.Cursor.down, h]

theorem cursor_mixed {e : Element} (h : e.isMixed = true) (around : List Element) :
    cursor (e :: around) = (cursor around).inline := by
  simp [cursor, Writer.Cursor.inline, h]

end Site

theorem isSingle_of_mem_values {body : Body} {charData : String} {values : List Emission}
    (h : body.content charData = .complex values) :
    ∀ i ∈ Emission.instructions values, i.IsSingle := by
  intro i hi
  obtain ⟨m, hm, hi⟩ := List.mem_filterMap.mp hi
  obtain ⟨kind, text, rfl⟩ := Body.ofText_of_mem_values h hm
  obtain ⟨name, _, rfl⟩ := Option.map_eq_some_iff.mp hi
  exact .textElement name ∅ text

theorem isSingle_of_mem_textInstructions (text : List Char) :
    ∀ i ∈ textInstructions text, i.IsSingle := by
  intro i hi
  unfold textInstructions at hi
  split at hi
  . cases hi
  . rw [List.mem_singleton.mp hi]
    exact .text _

theorem isSingle_of_mem_raw (markup : List String) :
    ∀ i ∈ markup.map Writer.Instruction.raw, i.IsSingle := by
  intro i hi
  obtain ⟨m, _, rfl⟩ := List.mem_map.mp hi
  exact .raw m

namespace Element

theorem exists_tag?_of_complex {e : Element} {values : List Emission}
    (h : e.body.content e.head.charData = .complex values) : ∃ name, e.kind.tag? = some name := by
  unfold kind
  cases hbody : e.body with
  | feature form fields => cases form <;> exact ⟨_, rfl⟩
  | coordinates | field | fragment | foreign =>
    rw [hbody] at h
    cases h
  | _ => exact ⟨_, rfl⟩

theorem isTextual_of_complex {e : Element} {values : List Emission}
    (h : e.body.content e.head.charData = .complex values) : e.body.isTextual = false := by
  cases hbody : e.body with
  | coordinates | field =>
    rw [hbody] at h
    cases h
  | _ => rfl

theorem isTextual_of_textual {e : Element} {text : String}
    (h : e.body.content e.head.charData = .textual text) : e.body.isTextual = true := by
  cases hbody : e.body with
  | coordinates | field => rfl
  | _ =>
    rw [hbody] at h
    cases h

variable {e : Element} {around : List Element} {name : String}

/--
Whether the pieces that an element is written in are those of its sites, whatever is around it.
-/
def LaidOut (e : Element) : Prop :=
  ∀ around, (Writer.layout (Site.cursor around) e.instructions).1 = (e.sites around).map Site.piece

theorem wellBracketed_instructions (e : Element) : Writer.WellBracketed e.instructions :=
  e.balanced_emissions.wellBracketed

theorem pieces_whole {is : List Writer.Instruction} (h : ∀ i ∈ is, i.IsSingle) (around : List Element) :
    (Writer.layout (Site.cursor around) is).1 = (wholeSites around is).map Site.piece := by
  rw [Writer.pieces_singles h]
  unfold wholeSites
  rw [List.map_map]
  rfl

theorem pieces_children {es : List Element} (h : ∀ c ∈ es, c.LaidOut) (around : List Element) :
    (Writer.layout (Site.cursor around) (es.flatMap instructions)).1
      = (sitesOfAll around es).map Site.piece := by
  induction es with
  | nil =>
    rw [sitesOfAll]
    rfl
  | cons e es ih =>
    rw [sitesOfAll, List.flatMap_cons, List.map_append, ← h e List.mem_cons_self around,
      ← ih fun c hc => h c (List.mem_cons_of_mem e hc)]
    exact Writer.pieces_append e.wellBracketed_instructions _

theorem pieces_kept (h : ∀ c ∈ e.misplaced, c.LaidOut) (around : List Element) :
    (Writer.layout (Site.cursor around) e.keptInstructions).1
      = (wholeSites around (e.head.unknown.map .raw) ++ sitesOfAll around e.misplaced).map
        Site.piece := by
  have hraw := isSingle_of_mem_raw e.head.unknown
  unfold keptInstructions
  rw [Writer.pieces_append (Bracketed.of_forall hraw), pieces_whole hraw, pieces_children h,
    List.map_append]

theorem wellBracketed_kept (e : Element) : Writer.WellBracketed e.keptInstructions := by
  have hraw : Writer.WellBracketed (e.head.unknown.map .raw) :=
    Bracketed.of_forall (isSingle_of_mem_raw e.head.unknown)
  exact hraw.append (Bracketed.flatMap fun c _ => c.wellBracketed_instructions)

theorem sites_complex {values : List Emission}
    (hcontent : e.body.content e.head.charData = .complex values) (htag : e.kind.tag? = some name)
    (around : List Element) :
    e.sites around = ⟨around, .opening e⟩
      :: (wholeSites (e :: around) (Emission.instructions values) ++ sitesOfAll (e :: around) e.placed
        ++ wholeSites (e :: around) (textInstructions (trim e.head.charData.toList))
        ++ (wholeSites (e :: around) (e.head.unknown.map .raw) ++ sitesOfAll (e :: around) e.misplaced))
      ++ [⟨around, .closing e⟩] := by
  obtain ⟨head, body, placed, misplaced⟩ := e
  rw [sites]
  dsimp only at hcontent ⊢
  rw [hcontent, htag]
  unfold enclose
  rw [htag]
  rfl

theorem sites_textual {text : String}
    (hcontent : e.body.content e.head.charData = .textual text) (around : List Element) :
    e.sites around = if e.head.unknown = [] ∧ e.misplaced = [] then
        wholeSites around (Emission.simple e.kind e.attributes text).instruction?.toList
      else
        let inside := if e.kind.tag?.isSome then e :: around else around
        e.enclose around (wholeSites inside (textInstructions text.toList)
          ++ (wholeSites inside (e.head.unknown.map .raw) ++ sitesOfAll inside e.misplaced)) := by
  obtain ⟨head, body, placed, misplaced⟩ := e
  rw [sites]
  dsimp only at hcontent ⊢
  rw [hcontent]
  simp only [List.isEmpty_iff, Bool.and_eq_true]

theorem laidOut_complex {values : List Emission}
    (hcontent : e.body.content e.head.charData = .complex values)
    (hplaced : ∀ c ∈ e.placed, c.LaidOut) (hmisplaced : ∀ c ∈ e.misplaced, c.LaidOut) : e.LaidOut := by
  intro around
  obtain ⟨name, htag⟩ := exists_tag?_of_complex hcontent
  have hmixed : e.isMixed = false := by
    unfold isMixed
    rw [isTextual_of_complex hcontent]
    rfl
  have hvalues := isSingle_of_mem_values hcontent
  have htext := isSingle_of_mem_textInstructions (trim e.head.charData.toList)
  have hfront : Writer.WellBracketed
      (Emission.instructions values ++ e.placed.flatMap instructions) :=
    (Bracketed.of_forall hvalues).append (Bracketed.flatMap fun c _ => c.wellBracketed_instructions)
  have hmiddle := hfront.append (Bracketed.of_forall htext)
  have hinside := Writer.pieces_tags (hmiddle.append e.wellBracketed_kept) (Site.cursor around) name
    e.attributes
  rw [instructions_complex hcontent htag, sites_complex hcontent htag around, hinside,
    ← Site.cursor_tags hmixed, Writer.pieces_append hmiddle, Writer.pieces_append hfront,
    Writer.pieces_append (Bracketed.of_forall hvalues), pieces_whole hvalues, pieces_whole htext,
    pieces_children hplaced, pieces_kept hmisplaced]
  simp only [List.map_append, List.map_cons, List.map_nil, List.cons_append]
  simp only [Site.piece, Part.opensMixed, Part.closesMixed, Part.markup, hmixed, htag, Option.getD_some,
    if_false, Bool.false_eq_true]

theorem isMixed_of_textual {text : String}
    (hcontent : e.body.content e.head.charData = .textual text)
    (hkept : ¬(e.head.unknown = [] ∧ e.misplaced = [])) : e.isMixed = true := by
  unfold isMixed hasUnknownChildren
  rw [isTextual_of_textual hcontent]
  by_cases hunknown : e.head.unknown = []
  . have hmisplaced : e.misplaced ≠ [] := fun h => hkept ⟨hunknown, h⟩
    simp [hmisplaced]
  . simp [hunknown]

theorem pieces_textAndKept (text : List Char) (hmisplaced : ∀ c ∈ e.misplaced, c.LaidOut)
    (around : List Element) :
    (Writer.layout (Site.cursor around) (textInstructions text ++ e.keptInstructions)).1
      = (wholeSites around (textInstructions text)
        ++ (wholeSites around (e.head.unknown.map .raw) ++ sitesOfAll around e.misplaced)).map
          Site.piece := by
  have htext := isSingle_of_mem_textInstructions text
  rw [Writer.pieces_append (Bracketed.of_forall htext), pieces_whole htext, pieces_kept hmisplaced,
    ← List.map_append]

theorem laidOut_textual {text : String} (hcontent : e.body.content e.head.charData = .textual text)
    (hmisplaced : ∀ c ∈ e.misplaced, c.LaidOut) : e.LaidOut := by
  intro around
  rw [instructions_of_textual hcontent, sites_textual hcontent]
  by_cases hempty : e.head.unknown = [] ∧ e.misplaced = []
  . rw [if_pos hempty, if_pos hempty]
    apply pieces_whole
    intro i hi
    rw [Option.mem_toList] at hi
    obtain ⟨name, _, rfl⟩ := Option.map_eq_some_iff.mp hi
    exact .textElement name e.attributes text
  . have hmixed := isMixed_of_textual hcontent hempty
    have htext := isSingle_of_mem_textInstructions text.toList
    rw [if_neg hempty, if_neg hempty]
    unfold enclose
    cases htag : e.kind.tag? with
    | none =>
      simp only [Emission.instruction?, htag, Option.map_none, Option.toList_none, List.nil_append,
        List.append_nil]
      exact pieces_textAndKept text.toList hmisplaced around
    | some name =>
      have hinside := Writer.pieces_inline
        ((Bracketed.of_forall htext).append e.wellBracketed_kept) (Site.cursor around) name e.attributes
      rw [← Site.cursor_mixed hmixed, pieces_textAndKept text.toList hmisplaced] at hinside
      simp only [Emission.instruction?, htag, Option.map_some, Option.toList_some, List.cons_append,
        List.nil_append, Option.isSome_some, if_true]
      rw [hinside]
      simp only [List.map_append, List.map_cons, List.map_nil, List.cons_append]
      simp only [Site.piece, Part.opensMixed, Part.closesMixed, Part.markup, hmixed, htag,
        Option.getD_some, if_true, if_false, Bool.false_eq_true]

theorem laidOut (e : Element) : e.LaidOut := by
  induction e using Element.induction with
  | step e hplaced hmisplaced =>
    cases hcontent : e.body.content e.head.charData with
    | complex values => exact laidOut_complex hcontent hplaced hmisplaced
    | textual text => exact laidOut_textual hcontent hmisplaced
    | verbatim markup | silent =>
      intro around
      obtain ⟨head, body, placed, misplaced⟩ := e
      dsimp only at hcontent
      rw [sites]
      unfold instructions
      rw [emissions, hcontent]
      rfl

/--
The pieces of markup that an element is written in do not depend on the style, which only says what an
indentation and the end of a line look like. Behind each other they are the element without both, and they
are laid out as the sites of the element want it.
-/
theorem exists_pieces (e : Element) :
    ∃ pieces : List Writer.Piece,
      (∀ style, e.write style = String.join (pieces.map (Writer.Piece.render style)))
        ∧ String.join (pieces.map Writer.Piece.markup) = e.raw
        ∧ List.Forall₂ Site.Places (e.sites []) pieces := by
  refine ⟨(Writer.layout .start e.instructions).1, fun style => rfl, ?_, ?_⟩
  . rw [Writer.map_markup_layout, ← Writer.write_raw]
    rfl
  . have hpieces : (Writer.layout .start e.instructions).1 = (e.sites []).map Site.piece := e.laidOut []
    rw [hpieces, List.forall₂_map_right_iff]
    exact List.forall₂_same.mpr fun s _ => s.places_piece

example :
    let name : Element := ⟨⟨1, some 0, none, "a", ["<b/>"], none⟩, .field .name, [], []⟩
    let folder : Element := ⟨⟨0, none, none, "c", [], none⟩, .feature .folder .empty, [], [name]⟩
    folder.write ⟨"-", "|"⟩ = "<Folder>|-c|-<name>a<b/></name>|</Folder>|" := by
  decide +kernel

end Element

end KmlTree
