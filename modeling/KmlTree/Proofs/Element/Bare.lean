import KmlTree.Element.Emission
import KmlTree.Proofs.Element.Regular
import KmlTree.Proofs.Text.Space

/-!
This module contains what is left of an element without its number, its parent and the white space around
its text (`Element.bare`). What an element writes, and what another one makes of it as a child, depends on
nothing else.
-/

namespace KmlTree

/--
The part of the character data of an element that is written. Coordinates write their positions instead.
-/
def Body.bareText (body : Body) (charData : String) : String :=
  match body with
  | field _ => charData
  | coordinates _ _ => ""
  | _ => String.ofList (trim charData.toList)

mutual

/--
An element as far as its text determines it.
-/
def Element.bare : Element → Element
  | ⟨head, body, placed, misplaced⟩ =>
    ⟨{ head with id := 0, parent := none, charData := body.bareText head.charData }, body,
      bareAll placed, bareAll misplaced⟩

def bareAll : List Element → List Element
  | [] => []
  | e :: es => e.bare :: bareAll es

end

theorem bareAll_eq (es : List Element) : bareAll es = es.map Element.bare := by
  induction es with
  | nil =>
    rw [bareAll]
    rfl
  | cons e es ih => rw [bareAll, ih, List.map_cons]

theorem emissionsOfAll_eq (es : List Element) : emissionsOfAll es = es.flatMap Element.emissions := by
  induction es with
  | nil => rw [emissionsOfAll, List.flatMap_nil]
  | cons e es ih => rw [emissionsOfAll, List.flatMap_cons, ih]

namespace Body

theorem content_of_isListed {body : Body} (h : body.isListed = true) (charData : String) :
    (∃ values, body.content charData = .complex values)
      ∨ ∃ text, body.content charData = .textual text := by
  cases body with
  | coordinates | field => exact Or.inr ⟨_, rfl⟩
  | fragment | foreign => cases h
  | _ => exact Or.inl ⟨_, rfl⟩

theorem place?_of_textual {body : Body} {charData text : String}
    (h : body.content charData = .textual text) : body.place? = none := by
  cases body with
  | coordinates | field => rfl
  | _ => cases h

theorem content_bareText (body : Body) (charData : String) :
    body.content (body.bareText charData) = body.content charData := by
  cases body <;> rfl

theorem trim_bareText {body : Body} {charData : String} {values : List Emission}
    (h : body.content charData = .complex values) :
    trim (body.bareText charData).toList = trim charData.toList := by
  cases body with
  | coordinates | field | fragment | foreign => cases h
  | _ => simp [bareText, trim_trim]

end Body

namespace Emission

theorem instructions_nil : instructions [] = [] := by
  rfl

theorem instructions_append (es fs : List Emission) :
    instructions (es ++ fs) = instructions es ++ instructions fs :=
  List.filterMap_append

theorem instructions_cons (e : Emission) (es : List Emission) :
    instructions (e :: es) = e.instruction?.toList ++ instructions es := by
  unfold instructions
  rw [List.filterMap_cons]
  cases e.instruction? <;> rfl

theorem instructions_flatMap {α : Type} (es : List α) (f : α → List Emission) :
    instructions (es.flatMap f) = es.flatMap fun e => instructions (f e) := by
  induction es with
  | nil => rfl
  | cons e es ih => rw [List.flatMap_cons, List.flatMap_cons, instructions_append, ih]

theorem instructions_verbatim (markup : List String) :
    instructions (markup.map .verbatim) = markup.map .raw := by
  induction markup with
  | nil => rfl
  | cons m markup ih =>
    unfold instructions at ih ⊢
    rw [List.map_cons, List.filterMap_cons, ih]
    rfl

end Emission

def textInstructions (text : List Char) : List Writer.Instruction :=
  if text.isEmpty then [] else [.text (String.ofList text)]

theorem instructions_textEmissions (text : List Char) :
    Emission.instructions (textEmissions text) = textInstructions text := by
  unfold textEmissions textInstructions
  split <;> rfl

namespace Element

theorem bare_eq (e : Element) :
    e.bare = ⟨{ e.head with id := 0, parent := none, charData := e.body.bareText e.head.charData },
      e.body, e.placed.map bare, e.misplaced.map bare⟩ := by
  obtain ⟨head, body, placed, misplaced⟩ := e
  rw [bare, bareAll_eq, bareAll_eq]

@[simp]
theorem bare_inside (e : Element) (parent : Nat) : (e.inside parent).bare = e.bare := by
  rw [bare_eq, bare_eq e]
  rfl

theorem body_of_bare {e e' : Element} (h : e'.bare = e.bare) : e'.body = e.body := by
  have hbody := congrArg Element.body h
  rw [bare_eq, bare_eq e] at hbody
  exact hbody

def instructions (e : Element) : List Writer.Instruction := Emission.instructions e.emissions

/--
The instructions to write the markup and the elements that have no place in an element.
-/
def keptInstructions (e : Element) : List Writer.Instruction :=
  e.head.unknown.map .raw ++ e.misplaced.flatMap instructions

theorem instructions_kept (head : Head) (misplaced : List Element) :
    Emission.instructions (head.unknown.map .verbatim ++ emissionsOfAll misplaced)
      = head.unknown.map .raw ++ misplaced.flatMap instructions := by
  rw [Emission.instructions_append, Emission.instructions_verbatim, emissionsOfAll_eq,
    Emission.instructions_flatMap]
  rfl

variable {e : Element} {name : String}

theorem instructions_complex {values : List Emission}
    (hcontent : e.body.content e.head.charData = .complex values) (htag : e.kind.tag? = some name) :
    e.instructions = .startTag name e.attributes
      :: (Emission.instructions values ++ e.placed.flatMap instructions
        ++ textInstructions (trim e.head.charData.toList) ++ e.keptInstructions ++ [.endTag name]) := by
  obtain ⟨head, body, placed, misplaced⟩ := e
  have htag' : body.kind.tag? = some name := htag
  unfold instructions keptInstructions
  rw [emissions]
  dsimp only at hcontent ⊢
  rw [hcontent]
  dsimp only
  rw [← instructions_kept]
  simp only [Emission.instructions, List.filterMap_cons, List.filterMap_append,
    Emission.instruction?, htag', Option.map_some, List.filterMap_nil, emissionsOfAll_eq,
    List.cons_append, ← instructions_textEmissions]
  have hplaced := Emission.instructions_flatMap placed emissions
  unfold Emission.instructions at hplaced
  rw [hplaced]
  rfl

/--
What is written of an element with a text. There are no tags around it if its kind has none.
-/
theorem instructions_of_textual {text : String}
    (hcontent : e.body.content e.head.charData = .textual text) :
    e.instructions
      = if e.head.unknown = [] ∧ e.misplaced = [] then
          (Emission.simple e.kind e.attributes text).instruction?.toList
        else
          (Emission.openMixed e.kind e.attributes).instruction?.toList
            ++ (textInstructions text.toList ++ e.keptInstructions)
            ++ (Emission.closeMixed e.kind).instruction?.toList := by
  obtain ⟨head, body, placed, misplaced⟩ := e
  unfold instructions keptInstructions
  rw [emissions]
  dsimp only at hcontent ⊢
  rw [hcontent, Emission.instructions_cons]
  dsimp only
  by_cases hempty : head.unknown = [] ∧ misplaced = []
  . rw [if_pos hempty, if_pos (by simp [hempty]), Emission.instructions_cons]
    exact List.append_nil _
  . rw [if_neg hempty, if_neg (by simpa using hempty), ← instructions_kept,
      ← instructions_textEmissions]
    simp only [List.cons_append, Emission.instructions_cons, Emission.instructions_append,
      Emission.instructions_nil, List.append_assoc, List.append_nil]
    rfl

theorem instructions_textual {text : String}
    (hcontent : e.body.content e.head.charData = .textual text) (htag : e.kind.tag? = some name) :
    e.instructions
      = if e.head.unknown = [] ∧ e.misplaced = [] then
          [.textElement name e.attributes text]
        else
          .startInline name e.attributes
            :: (textInstructions text.toList ++ e.keptInstructions ++ [.endInline name]) := by
  rw [instructions_of_textual hcontent]
  simp only [Emission.instruction?, htag]
  rfl

theorem instructions_bare (e : Element) : e.bare.instructions = e.instructions := by
  induction e using Element.induction with
  | step e hplaced hmisplaced =>
    have hflat {es : List Element} (h : ∀ c ∈ es, c.bare.instructions = c.instructions) :
        Emission.instructions (emissionsOfAll (es.map bare))
          = Emission.instructions (emissionsOfAll es) := by
      rw [emissionsOfAll_eq, emissionsOfAll_eq, Emission.instructions_flatMap,
        Emission.instructions_flatMap, List.flatMap_map]
      exact congrArg List.flatten (List.map_congr_left h)
    have hplaced' := hflat hplaced
    have hmisplaced' := hflat hmisplaced
    rw [bare_eq]
    obtain ⟨head, body, placed, misplaced⟩ := e
    dsimp only at hplaced' hmisplaced' ⊢
    unfold instructions
    rw [emissions, emissions]
    dsimp only
    rw [Body.content_bareText, Emission.instructions_cons, Emission.instructions_cons]
    cases hcontent : body.content head.charData with
    | complex values =>
      dsimp only
      rw [Body.trim_bareText hcontent]
      simp only [List.cons_append, Emission.instructions_cons, Emission.instructions_append, hplaced',
        hmisplaced']
      rfl
    | textual text =>
      dsimp only
      rw [List.isEmpty_map]
      split
      . rfl
      . simp only [List.cons_append, Emission.instructions_cons, Emission.instructions_append,
          hmisplaced']
        rfl
    | verbatim markup => rfl
    | silent => rfl

theorem write_of_bare {e e' : Element} (h : e'.bare = e.bare) (style : Style) :
    e'.write style = e.write style := by
  have hinstructions : e'.instructions = e.instructions := by
    rw [← instructions_bare e', h, instructions_bare]
  exact congrArg (Writer.write style) hinstructions

theorem isPlain_of_bare {e e' : Element} (h : e'.bare = e.bare) : e'.isPlain = e.isPlain := by
  have hplain (e : Element) : e.bare.isPlain = e.isPlain := by
    rw [bare_eq]
    simp [isPlain, hasUnknownChildren]
  rw [← hplain e', h, hplain]

theorem all_bare (e : Element) : e.bare.all = e.all.map bare := by
  induction e using Element.induction with
  | step e hplaced hmisplaced =>
    have hflat {es : List Element} (h : ∀ c ∈ es, c.bare.all = c.all.map bare) :
        (es.map bare).flatMap all = (es.flatMap all).map bare := by
      rw [List.flatMap_map]
      rw [List.map_flatMap]
      exact congrArg List.flatten (List.map_congr_left h)
    rw [all_eq]
    rw [all_eq e]
    rw [List.map_append]
    rw [List.map_cons]
    rw [← hflat hplaced]
    rw [← hflat hmisplaced]
    rw [bare_eq]

theorem all_isPlain_of_bare {e e' : Element} (h : e'.bare = e.bare) (hplain : ∀ x ∈ e.all, x.isPlain = true) :
    ∀ x ∈ e'.all, x.isPlain = true := by
  intro x hx
  have hmem : x.bare ∈ e'.all.map bare := List.mem_map_of_mem hx
  rw [← all_bare] at hmem
  rw [h] at hmem
  rw [all_bare] at hmem
  obtain ⟨y, hy, hbare⟩ := List.mem_map.mp hmem
  rw [← isPlain_of_bare hbare]
  exact hplain y hy

theorem scalar?_of_bare {e e' : Element} (h : e'.bare = e.bare) (type : ScalarType) :
    e'.scalar? type = e.scalar? type := by
  have hscalar (e : Element) : e.bare.scalar? type = e.scalar? type := by
    rw [bare_eq]
    unfold scalar?
    dsimp only
    cases e.body <;> rfl
  rw [← hscalar e', h, hscalar]

end Element

theorem Body.absorb?_of_bare {e e' : Element} (h : e'.bare = e.bare) (body : Body) :
    body.absorb? e' = body.absorb? e := by
  have hkind : e'.kind = e.kind := congrArg Body.kind (Element.body_of_bare h)
  have hflag : e'.flag? = e.flag? := by
    unfold Element.flag?
    rw [Element.scalar?_of_bare h]
  have htext : e'.text? = e.text? := by
    unfold Element.text?
    rw [Element.scalar?_of_bare h]
  have henumerant : e'.enumerantId? = e.enumerantId? := by
    unfold Element.enumerantId?
    rw [Element.scalar?_of_bare h]
  unfold absorb? FeatureFields.absorb? GeometryFields.absorb?
  rw [Element.isPlain_of_bare h, hkind, hflag, htext, henumerant]

theorem Element.hasPlaceFor_of_bare {e e' : Element} (h : e'.bare = e.bare) (owner : Element) :
    owner.hasPlaceFor e' = owner.hasPlaceFor e := by
  unfold hasPlaceFor
  rw [body_of_bare h]

/--
The simple elements that the values of an element are written as.
-/
def Body.values (body : Body) : List Emission :=
  match body.content "" with
  | .complex values => values
  | _ => []

namespace Body

theorem values_eq {body : Body} {charData : String} {values : List Emission}
    (h : body.content charData = .complex values) : body.values = values := by
  unfold Body.values
  cases body with
  | coordinates | field | fragment | foreign => cases h
  | _ =>
    simp only [content, Content.complex.injEq] at h ⊢
    exact h

theorem values_eq_nil {body : Body} {charData text : String}
    (h : body.content charData = .textual text) : body.values = [] := by
  cases body with
  | coordinates | field => rfl
  | _ => cases h

theorem values_readText (body : Body) (text : String) : (body.readText text).values = body.values := by
  cases body <;> rfl

end Body

theorem Element.values_create {fresh : Nat} {kind : Kind} {e : Element}
    (h : create? fresh kind = some e) (a : Attributes) : (e.body.takeAttributes a).1.values = [] := by
  cases kind with
  | unknown | object | feature | container | geometry =>
    simp [create?, Kind.isSimple, Kind.contentModel?, Kind.entry?, Kind.catalog] at h
  | _ =>
    cases h
    rfl

mutual

/--
How many elements are around each other in the markup of an element. Markup of other elements counts as
one.
-/
def Element.nesting : Element → Nat
  | ⟨head, body, placed, misplaced⟩ =>
    1 + max (max (if body.values.isEmpty then 0 else 1) (if head.unknown.isEmpty then 0 else 1))
      (max (nestingOfAll placed) (nestingOfAll misplaced))

def nestingOfAll : List Element → Nat
  | [] => 0
  | e :: es => max e.nesting (nestingOfAll es)

end

theorem nestingOfAll_le {es : List Element} {n : Nat} :
    nestingOfAll es ≤ n ↔ ∀ e ∈ es, e.nesting ≤ n := by
  induction es with
  | nil =>
    rw [nestingOfAll]
    simp
  | cons e es ih =>
    rw [nestingOfAll, Nat.max_le, ih]
    simp

theorem Element.nesting_le {e : Element} {n : Nat} :
    e.nesting ≤ n
      ↔ 1 ≤ n ∧ (e.body.values ≠ [] → 2 ≤ n) ∧ (e.head.unknown ≠ [] → 2 ≤ n)
        ∧ ∀ c ∈ e.placed ++ e.misplaced, c.nesting + 1 ≤ n := by
  obtain ⟨head, body, placed, misplaced⟩ := e
  have hone {α : Type} (l : List α) (m : Nat) :
      (if l.isEmpty then 0 else 1) ≤ m ↔ l ≠ [] → 2 ≤ m + 1 := by
    cases l with
    | nil => simp
    | cons => simp
  rw [nesting]
  cases n with
  | zero =>
    constructor
    . intro h
      omega
    . intro h
      omega
  | succ m =>
    have hsucc (k : Nat) : 1 + k ≤ m + 1 ↔ k ≤ m := by
      omega
    rw [hsucc, Nat.max_le, Nat.max_le, Nat.max_le, hone, hone, nestingOfAll_le, nestingOfAll_le]
    simp only [List.mem_append, Nat.add_le_add_iff_right]
    constructor
    . rintro ⟨⟨hvalues, hunknown⟩, hplaced, hmisplaced⟩
      refine ⟨by omega, hvalues, hunknown, ?_⟩
      intro c hc
      cases hc with
      | inl hc => exact hplaced c hc
      | inr hc => exact hmisplaced c hc
    . rintro ⟨_, hvalues, hunknown, hchildren⟩
      exact ⟨⟨hvalues, hunknown⟩, fun c hc => hchildren c (Or.inl hc),
        fun c hc => hchildren c (Or.inr hc)⟩

end KmlTree
