import KmlTree.Proofs.Element.Child
import Mathlib.Data.List.Induction

/-!
This module contains what becomes of an element that is offered any number of children, in one piece
(`Element.foldl_add`): which value each of its fields has afterwards, which of the children it has placed,
and which it has kept without a place.
-/

namespace KmlTree

def flagOf? (text : String) : Option Bool := readFlag? (trim text.toList)

def modeOf? (text : String) : Option AltitudeMode :=
  AltitudeMode.all.find? fun mode => mode.enumerant == String.ofList (trim text.toList)

/--
Whether a text can be read as the value that a kind stands for in a feature or a geometry.
-/
def Kind.converts (kind : Kind) (text : String) : Bool :=
  match kind with
  | .name | .address | .description | .styleUrl => true
  | .visibility | .opened | .extrude | .tessellate => (flagOf? text).isSome
  | .altitudeMode => (modeOf? text).isSome
  | _ => false

namespace Element

def markup? (e : Element) : Option String :=
  match e.body with
  | .fragment markup => some markup
  | _ => none

/--
The text of a field of a given kind that has nothing but its text.
-/
def plainText? (kind : Kind) (e : Element) : Option String :=
  match e.body with
  | .field kind' => if kind' = kind ∧ e.isPlain then some e.head.charData else none
  | _ => none

/--
Whether an element is a field that has nothing but its text, and its text can be read as a value.
-/
def converts (e : Element) : Bool := (e.plainText? e.kind).any e.kind.converts

end Element

/--
The value of the first plain field of a kind whose text can be read.
-/
def firstValue {α : Type} (kind : Kind) (read : String → Option α) (es : List Element) : Option α :=
  es.findSome? fun e => (e.plainText? kind).bind read

def FeatureFields.filledBy (f : FeatureFields) (es : List Element) : FeatureFields :=
  { f with
    name := f.name <|> firstValue .name some es
    visibility := f.visibility <|> firstValue .visibility flagOf? es
    opened := f.opened <|> firstValue .opened flagOf? es
    address := f.address <|> firstValue .address some es
    description := f.description <|> firstValue .description some es
    styleUrl := f.styleUrl <|> firstValue .styleUrl some es }

def GeometryFields.filledBy (g : GeometryFields) (es : List Element) : GeometryFields :=
  { g with
    extrude := g.extrude <|> firstValue .extrude flagOf? es
    altitudeMode := g.altitudeMode <|> firstValue .altitudeMode modeOf? es }

namespace Body

/--
A body in which each value that was empty is the one of the first plain field of its kind whose text can
be read.
-/
def filledBy (body : Body) (es : List Element) : Body :=
  match body with
  | feature form fields => .feature form (fields.filledBy es)
  | point fields => .point (fields.filledBy es)
  | lineString fields tessellate =>
    .lineString (fields.filledBy es) (tessellate <|> firstValue .tessellate flagOf? es)
  | body => body

/--
Whether a body has a value of a kind and it is empty.
-/
def lacks : Body → Kind → Bool
  | feature _ fields, .name => fields.name.isNone
  | feature _ fields, .visibility => fields.visibility.isNone
  | feature _ fields, .opened => fields.opened.isNone
  | feature _ fields, .address => fields.address.isNone
  | feature _ fields, .description => fields.description.isNone
  | feature _ fields, .styleUrl => fields.styleUrl.isNone
  | point fields, .extrude => fields.extrude.isNone
  | point fields, .altitudeMode => fields.altitudeMode.isNone
  | lineString fields _, .extrude => fields.extrude.isNone
  | lineString _ tessellate, .tessellate => tessellate.isNone
  | lineString fields _, .altitudeMode => fields.altitudeMode.isNone
  | _, _ => false

/--
Whether a body reads an element into one of its values, after it has been offered others: the value was
empty, the element can be read, and none before it could.
-/
def reads (body : Body) (earlier : List Element) (e : Element) : Bool :=
  body.lacks e.kind && e.converts && !earlier.any fun d => d.kind == e.kind && d.converts

/--
Whether the schema has a place in an element for another one: a feature in the root, features in
documents and folders, a geometry in a placemark, coordinates in a geometry.
-/
def fits : Body → Body → Bool
  | kml _, feature _ _ => true
  | feature form _, feature _ _ => form.isContainer
  | feature form _, point _ => !form.isContainer
  | feature form _, lineString _ _ => !form.isContainer
  | point _, coordinates _ _ => true
  | lineString _ _, coordinates _ _ => true
  | _, _ => false

end Body

namespace Element

/--
Whether an element places a child, after it has been offered others. Elements other than containers have
one place only.
-/
def places (owner : Element) (earlier : List Element) (child : Element) : Bool :=
  owner.body.fits child.body
    && (owner.body.isContainer
      || owner.placed.isEmpty && !earlier.any fun e => owner.body.fits e.body)

/--
The children that an element places: all that fit if it is a container, and else the first that fits if
its place is free.
-/
def chosen (owner : Element) (children : List Element) : List Element :=
  if owner.body.isContainer then
    children.filter fun e => owner.body.fits e.body
  else if owner.placed.isEmpty then
    (children.find? fun e => owner.body.fits e.body).toList
  else
    []

/--
The children that are neither markup nor placed nor read, in order.
-/
def leftOver (owner : Element) (earlier : List Element) : List Element → List Element
  | [] => []
  | child :: children =>
    let rest := owner.leftOver (earlier ++ [child]) children
    if child.markup?.isSome || owner.places earlier child || owner.body.reads earlier child then
      rest
    else
      child :: rest

/--
What an element is after it has been offered some children.
-/
def offeredAll (owner : Element) (children : List Element) : Element where
  head := { owner.head with unknown := owner.head.unknown ++ children.filterMap markup? }
  body := owner.body.filledBy children
  placed := owner.placed ++ (owner.chosen children).map fun e => e.inside owner.id
  misplaced := owner.misplaced ++ (owner.leftOver [] children).map fun e => e.inside owner.id

theorem plainText?_eq_some {e : Element} {kind : Kind} {text : String} :
    e.plainText? kind = some text
      ↔ e.body = .field kind ∧ e.isPlain = true ∧ text = e.head.charData := by
  unfold plainText?
  split
  . next kind' hbody =>
    rw [hbody]
    grind
  . next hbody =>
    constructor
    . intro h
      cases h
    . intro h
      exact absurd h.1 (hbody kind)

theorem plainText?_of_ne {e : Element} {kind : Kind} (h : e.kind ≠ kind) : e.plainText? kind = none := by
  rw [Option.eq_none_iff_forall_ne_some]
  intro text htext
  obtain ⟨hbody, _, _⟩ := plainText?_eq_some.mp htext
  apply h
  unfold Element.kind
  rw [hbody]
  rfl

variable {e : Element} {text : String}

theorem text?_of_plainText? {kind : Kind} (h : e.plainText? kind = some text) :
    e.text? = some text := by
  obtain ⟨hbody, _, rfl⟩ := plainText?_eq_some.mp h
  unfold text? scalar?
  rw [hbody]
  rfl

theorem flag?_of_plainText? {kind : Kind} (h : e.plainText? kind = some text) :
    e.flag? = flagOf? text := by
  obtain ⟨hbody, _, rfl⟩ := plainText?_eq_some.mp h
  unfold flag? scalar? flagOf? Scalar.read?
  rw [hbody]
  dsimp only
  cases readFlag? (trim e.head.charData.toList) <;> rfl

theorem mode?_of_plainText? (h : e.plainText? e.kind = some text) (hkind : e.kind = .altitudeMode) :
    e.enumerantId?.bind AltitudeMode.ofInt? = modeOf? text := by
  rw [hkind] at h
  obtain ⟨hbody, _, rfl⟩ := plainText?_eq_some.mp h
  unfold enumerantId? scalar? modeOf? Scalar.read?
  rw [hbody]
  dsimp only
  generalize String.ofList (trim e.head.charData.toList) = s
  unfold Kind.enumerantId? Kind.enumerants AltitudeMode.all
  simp only [List.map_cons, List.map_nil, List.findIdx?_cons, List.find?_cons]
  cases AltitudeMode.clampToGround.enumerant == s with
  | true => rfl
  | false =>
    cases AltitudeMode.relativeToGround.enumerant == s with
    | true => rfl
    | false => cases AltitudeMode.absolute.enumerant == s <;> rfl

end Element

section FirstValue

variable {α : Type} {kind : Kind} {read : String → Option α} {es : List Element} {e : Element}

theorem firstValue_append (kind : Kind) (read : String → Option α) (es : List Element) (e : Element) :
    firstValue kind read (es ++ [e])
      = (firstValue kind read es <|> (e.plainText? kind).bind read) := by
  unfold firstValue
  rw [List.findSome?_append]
  simp

theorem firstValue_append_of_ne (h : e.kind ≠ kind) :
    firstValue kind read (es ++ [e]) = firstValue kind read es := by
  rw [firstValue_append, Element.plainText?_of_ne h]
  simp

theorem isSome_bind_plainText? (hread : ∀ text, (read text).isSome = kind.converts text) (e : Element) :
    ((e.plainText? kind).bind read).isSome = (e.kind == kind && e.converts) := by
  by_cases hkind : e.kind = kind
  . subst hkind
    unfold Element.converts
    cases e.plainText? e.kind <;> simp [hread]
  . simp [Element.plainText?_of_ne hkind, hkind]

theorem isSome_firstValue (hread : ∀ text, (read text).isSome = kind.converts text) :
    (firstValue kind read es).isSome = es.any fun e => e.kind == kind && e.converts := by
  unfold firstValue
  rw [List.isSome_findSome?]
  congr 1
  funext e
  exact isSome_bind_plainText? hread e

theorem fill?_firstValue {β : Type} {text : String}
    (hread : ∀ text, (read text).isSome = kind.converts text) (htext : e.plainText? kind = some text)
    (current : Option α) (es : List Element) (put : Option α → β) :
    fill? (current <|> firstValue kind read es) (read text) put
      = if current.isNone && kind.converts text && !es.any (fun e => e.kind == kind && e.converts) then
          some (put (current <|> firstValue kind read (es ++ [e])))
        else
          none := by
  rw [← isSome_firstValue hread, ← hread, firstValue_append, htext, Option.bind_some]
  cases current with
  | some value => rfl
  | none =>
    cases firstValue kind read es with
    | some value => simp [fill?]
    | none => cases read text <;> simp [fill?]

end FirstValue

section Absorb

variable {e : Element} {text : String} {es : List Element}

theorem FeatureFields.absorb?_filledBy (form : FeatureForm) (f : FeatureFields)
    (htext : e.plainText? e.kind = some text) :
    (f.filledBy es).absorb? e
      = if (Body.feature form f).lacks e.kind && e.kind.converts text
            && !es.any (fun d => d.kind == e.kind && d.converts) then
          some (f.filledBy (es ++ [e]))
        else
          none := by
  unfold absorb?
  rw [Element.text?_of_plainText? htext, Element.flag?_of_plainText? htext]
  -- Every value but the one of the kind of the field is the same with and without the field.
  have hother {α : Type} {kind : Kind} (read : String → Option α) (h : e.kind ≠ kind) :
      firstValue kind read (es ++ [e]) = firstValue kind read es :=
    firstValue_append_of_ne h
  generalize hkind : e.kind = kind at htext hother ⊢
  cases kind with
  | name | visibility | opened | address | description | styleUrl =>
    refine (fill?_firstValue (fun _ => rfl) htext _ es _).trans ?_
    simp [filledBy, hother, Body.lacks]
  | _ => rfl

theorem GeometryFields.absorb?_filledBy (g : GeometryFields)
    (htext : e.plainText? e.kind = some text) :
    (g.filledBy es).absorb? e
      = if (Body.point g).lacks e.kind && e.kind.converts text
            && !es.any (fun d => d.kind == e.kind && d.converts) then
          some (g.filledBy (es ++ [e]))
        else
          none := by
  unfold absorb?
  rw [Element.flag?_of_plainText? htext]
  have hmode := Element.mode?_of_plainText? htext
  have hother {α : Type} {kind : Kind} (read : String → Option α) (h : e.kind ≠ kind) :
      firstValue kind read (es ++ [e]) = firstValue kind read es :=
    firstValue_append_of_ne h
  generalize hkind : e.kind = kind at htext hmode hother ⊢
  cases kind with
  | extrude =>
    refine (fill?_firstValue (fun _ => rfl) htext g.extrude es _).trans ?_
    simp [filledBy, hother, Body.lacks]
  | altitudeMode =>
    rw [hmode rfl]
    refine (fill?_firstValue (fun _ => rfl) htext g.altitudeMode es _).trans ?_
    simp [filledBy, hother, Body.lacks]
  | _ => rfl

theorem Element.exists_plainText? {kind : Kind} (hplain : e.isPlain = true)
    (hbody : e.body = .field kind) : ∃ text, e.plainText? e.kind = some text := by
  have hkind : e.kind = kind := by
    unfold Element.kind
    rw [hbody]
    rfl
  rw [hkind]
  exact ⟨_, plainText?_eq_some.mpr ⟨hbody, hplain, rfl⟩⟩

namespace Body

theorem absorb?_of_plainText? {body : Body} (h : e.plainText? e.kind = none) : body.absorb? e = none := by
  rw [Option.eq_none_iff_forall_ne_some]
  intro new habsorb
  obtain ⟨_, hplain, kind, hbody⟩ := absorb?_spec habsorb
  obtain ⟨text, hsome⟩ := Element.exists_plainText? hplain hbody
  rw [h] at hsome
  cases hsome

theorem absorb?_filledBy (body : Body) (es : List Element) (e : Element) :
    (body.filledBy es).absorb? e
      = if body.reads es e then some (body.filledBy (es ++ [e])) else none := by
  unfold reads
  cases htext : e.plainText? e.kind with
  | none =>
    have hconverts : e.converts = false := by
      unfold Element.converts
      rw [htext]
      rfl
    rw [hconverts, Bool.and_false, Bool.false_and, if_neg (by simp)]
    exact absorb?_of_plainText? htext
  | some text =>
    have hconverts : e.converts = e.kind.converts text := by
      unfold Element.converts
      rw [htext]
      rfl
    obtain ⟨_, hplain, _⟩ := Element.plainText?_eq_some.mp htext
    unfold absorb?
    rw [hconverts, if_pos hplain]
    cases body with
    | feature form fields =>
      dsimp only [filledBy]
      rw [FeatureFields.absorb?_filledBy form fields htext]
      split <;> rfl
    | point fields =>
      dsimp only [filledBy]
      rw [GeometryFields.absorb?_filledBy fields htext]
      split <;> rfl
    | lineString fields tessellate =>
      dsimp only [filledBy]
      split
      . next hkind =>
        have hother : fields.filledBy (es ++ [e]) = fields.filledBy es := by
          unfold GeometryFields.filledBy
          rw [firstValue_append_of_ne, firstValue_append_of_ne]
          . simp [hkind]
          . simp [hkind]
        rw [hkind] at htext ⊢
        rw [Element.flag?_of_plainText? htext, hother]
        exact fill?_firstValue (fun _ => rfl) htext tessellate es _
      . next hkind =>
        have hlacks : (lineString fields tessellate).lacks e.kind = (point fields).lacks e.kind := by
          generalize e.kind = kind at hkind ⊢
          cases kind <;> first | rfl | exact absurd rfl hkind
        rw [GeometryFields.absorb?_filledBy fields htext, hlacks, firstValue_append_of_ne hkind]
        split <;> rfl
    | _ => rfl

theorem filledBy_append {body : Body} {es : List Element} {e : Element} (h : body.reads es e = false) :
    body.filledBy (es ++ [e]) = body.filledBy es := by
  have hsame {α : Type} (kind : Kind) (read : String → Option α) (current : Option α)
      (hread : ∀ text, (read text).isSome = kind.converts text)
      (hlacks : body.lacks kind = current.isNone) :
      (current <|> firstValue kind read (es ++ [e])) = (current <|> firstValue kind read es) := by
    by_cases hkind : e.kind = kind
    . unfold reads at h
      rw [hkind, hlacks, ← isSome_firstValue hread] at h
      have hbind := isSome_bind_plainText? hread e
      rw [firstValue_append]
      cases current with
      | some value => rfl
      | none =>
        cases hfirst : firstValue kind read es with
        | some value => rfl
        | none =>
          have hconverts : e.converts = false := by
            simpa [hfirst] using h
          rw [hconverts, Bool.and_false, Option.isSome_eq_false_iff, Option.isNone_iff_eq_none] at hbind
          rw [hbind]
          rfl
    . rw [firstValue_append_of_ne hkind]
  cases body with
  | feature form fields =>
    dsimp only [filledBy, FeatureFields.filledBy]
    rw [hsame .name some fields.name (fun _ => rfl) rfl,
      hsame .visibility flagOf? fields.visibility (fun _ => rfl) rfl,
      hsame .opened flagOf? fields.opened (fun _ => rfl) rfl,
      hsame .address some fields.address (fun _ => rfl) rfl,
      hsame .description some fields.description (fun _ => rfl) rfl,
      hsame .styleUrl some fields.styleUrl (fun _ => rfl) rfl]
  | point fields =>
    dsimp only [filledBy, GeometryFields.filledBy]
    rw [hsame .extrude flagOf? fields.extrude (fun _ => rfl) rfl,
      hsame .altitudeMode modeOf? fields.altitudeMode (fun _ => rfl) rfl]
  | lineString fields tessellate =>
    dsimp only [filledBy, GeometryFields.filledBy]
    rw [hsame .extrude flagOf? fields.extrude (fun _ => rfl) rfl,
      hsame .altitudeMode modeOf? fields.altitudeMode (fun _ => rfl) rfl,
      hsame .tessellate flagOf? tessellate (fun _ => rfl) rfl]
  | _ => rfl

theorem alike_filledBy (body : Body) (es : List Element) : body.Alike (body.filledBy es) := by
  cases body with
  | feature form fields => exact .feature form rfl
  | point fields => exact .point rfl
  | lineString fields tessellate => exact .lineString _ _ rfl
  | _ => exact .refl _

theorem filledBy_nil (body : Body) : body.filledBy [] = body := by
  cases body <;> simp [filledBy, FeatureFields.filledBy, GeometryFields.filledBy, firstValue]

theorem fits_eq (owner child : Body) :
    owner.fits child = (child.class?.isSome && owner.place? == child.class?) := by
  cases owner with
  | feature form fields => cases form <;> cases child <;> rfl
  | _ => cases child <;> rfl

end Body

end Absorb

namespace Element

variable {owner child : Element} {children : List Element}

theorem chosen_append (owner : Element) (children : List Element) (child : Element) :
    owner.chosen (children ++ [child])
      = owner.chosen children ++ if owner.places children child then [child] else [] := by
  unfold chosen places
  cases owner.body.isContainer with
  | true => simp [List.filter_append, List.filter_cons]
  | false =>
    cases owner.placed.isEmpty with
    | false => simp
    | true =>
      simp only [Bool.false_eq_true, if_false, if_true, List.find?_append, Bool.false_or, Bool.true_and]
      cases hfind : children.find? fun e => owner.body.fits e.body with
      | none =>
        have hany : (children.any fun e => owner.body.fits e.body) = false := by
          simpa using hfind
        rw [hany]
        cases hfits : owner.body.fits child.body <;> simp [hfits]
      | some first =>
        have hfits := List.find?_some hfind
        have hany : (children.any fun e => owner.body.fits e.body) = true :=
          List.any_eq_true.mpr ⟨first, List.mem_of_find?_eq_some hfind, hfits⟩
        rw [hany]
        simp

theorem leftOver_append (owner : Element) (earlier children : List Element) (child : Element) :
    owner.leftOver earlier (children ++ [child])
      = owner.leftOver earlier children
        ++ owner.leftOver (earlier ++ children) [child] := by
  induction children generalizing earlier with
  | nil => simp [leftOver]
  | cons first children ih =>
    rw [List.cons_append, leftOver, leftOver, ih, List.append_assoc, List.singleton_append]
    split <;> rfl

theorem hasPlaceFor_offeredAll (owner : Element) (children : List Element) (child : Element) :
    (owner.offeredAll children).hasPlaceFor child = owner.places children child := by
  have halike := owner.body.alike_filledBy children
  unfold hasPlaceFor places offeredAll
  dsimp only
  rw [halike.place?, halike.isContainer, ← Body.fits_eq]
  congr 1
  unfold chosen
  cases owner.body.isContainer with
  | true => rfl
  | false =>
    cases hplaced : owner.placed with
    | cons => rfl
    | nil =>
      simp only [Bool.false_eq_true, if_false, List.isEmpty_nil, if_true, List.nil_append, Bool.false_or,
        Bool.true_and]
      rw [← List.isSome_find?]
      cases children.find? fun e => owner.body.fits e.body <;> rfl

theorem markup?_eq_none (h : ∀ m, child.body ≠ .fragment m) : child.markup? = none := by
  unfold markup?
  split
  . next m hbody => exact absurd hbody (h m)
  . rfl

theorem plainText?_of_fits {kind : Kind} (h : owner.body.fits child.body = true) :
    child.plainText? kind = none := by
  unfold plainText?
  split
  . next hbody =>
    rw [hbody, Body.fits_eq] at h
    cases h
  . rfl

theorem reads_of_places (h : owner.places children child = true) :
    owner.body.reads children child = false := by
  unfold places at h
  rw [Bool.and_eq_true] at h
  unfold Body.reads converts
  rw [plainText?_of_fits h.1]
  simp

theorem offeredAll_append (owner : Element) (children : List Element) (child : Element) :
    owner.offeredAll (children ++ [child])
      = { head := { owner.head with
            unknown := owner.head.unknown ++ children.filterMap markup? ++ child.markup?.toList }
          body := owner.body.filledBy (children ++ [child])
          placed := (owner.offeredAll children).placed
            ++ if owner.places children child then [child.inside owner.id] else []
          misplaced := (owner.offeredAll children).misplaced
            ++ if child.markup?.isSome || owner.places children child
                || owner.body.reads children child then [] else [child.inside owner.id] } := by
  unfold offeredAll
  rw [chosen_append, leftOver_append, List.filterMap_append, List.nil_append]
  simp only [leftOver, mk.injEq, Head.mk.injEq, List.map_append, List.append_assoc, true_and, and_true]
  refine ⟨?_, ?_, ?_⟩
  . cases hmarkup : child.markup? <;> simp [hmarkup]
  . split <;> rfl
  . split <;> rfl

/--
What one more child does to an element that has been offered some.
-/
theorem add_offeredAll (hparent : child.head.parent = none) (hid : owner.id ≠ child.id) :
    (owner.offeredAll children).add child = owner.offeredAll (children ++ [child]) := by
  have hadd : Added (owner.offeredAll children) child ((owner.offeredAll children).add child) :=
    added_add hparent hid
  have hplaces := hasPlaceFor_offeredAll owner children child
  have hreads := owner.body.absorb?_filledBy children child
  have hbody : (owner.offeredAll children).body = owner.body.filledBy children := rfl
  rw [offeredAll_append]
  generalize (owner.offeredAll children).add child = e at hadd
  cases hadd with
  | markup m hmarkup =>
    have hunread : owner.body.reads children child = false := by
      unfold Body.reads converts plainText?
      simp [hmarkup]
    have hunplaced : owner.places children child = false := by
      unfold places
      rw [Body.fits_eq, hmarkup]
      rfl
    rw [Body.filledBy_append hunread]
    simp [markup?, hmarkup, hunread, hunplaced, keepMarkup, offeredAll]
  | placed hmarkup hplaced =>
    rw [hplaces] at hplaced
    have hunread := reads_of_places hplaced
    rw [Body.filledBy_append hunread]
    simp [markup?_eq_none hmarkup, hunread, hplaced, offeredAll, inside, Element.id]
  | absorbed body hunplaced hread =>
    obtain ⟨_, _, kind, hfield⟩ := Body.absorb?_spec hread
    have hmarkup : ∀ m, child.body ≠ .fragment m := by
      intro m hm
      rw [hfield] at hm
      cases hm
    rw [hplaces] at hunplaced
    rw [hbody, hreads, Option.ite_none_right_eq_some, Option.some.injEq] at hread
    obtain ⟨hread, rfl⟩ := hread
    simp [markup?_eq_none hmarkup, hread, hunplaced, offeredAll]
  | misplaced hmarkup hunplaced hunread =>
    rw [hplaces] at hunplaced
    rw [hbody, hreads] at hunread
    have hunread : owner.body.reads children child = false := by
      simpa using hunread
    rw [Body.filledBy_append hunread]
    simp [markup?_eq_none hmarkup, hunread, hunplaced, offeredAll, inside, Element.id]

/--
An element that is offered children which nothing has claimed reads, places and keeps them as is said of
all of them together. Nothing else of the element changes.
-/
theorem foldl_add (owner : Element) (children : List Element)
    (h : ∀ c ∈ children, c.parent? = none ∧ c.id ≠ owner.id) :
    children.foldl add owner = owner.offeredAll children := by
  induction children using List.reverseRecOn with
  | nil =>
    obtain ⟨head, body, placed, misplaced⟩ := owner
    unfold offeredAll chosen
    simp only [Body.filledBy_nil, leftOver, List.filterMap_nil, List.filter_nil, List.find?_nil,
      Option.toList_none, ite_self, List.map_nil, List.append_nil, List.foldl_nil]
  | append_singleton children child ih =>
    obtain ⟨hparent, hid⟩ := h child (by simp)
    have hearlier : ∀ c ∈ children, c.parent? = none ∧ c.id ≠ owner.id := by
      intro c hc
      exact h c (List.mem_append_left _ hc)
    rw [List.foldl_append, ih hearlier]
    exact add_offeredAll hparent hid.symm

theorem foldl_add_impostors :
    ∃ (owner : Element) (children : List Element),
      (∀ c ∈ children, c.parent? = none ∧ c.id ≠ owner.id)
        ∧ children.map (fun c => (c.id, c.kind))
          = [(1, .visibility), (2, .placemark), (3, .placemark), (4, .unknown), (5, .visibility),
            (6, .unknown), (7, .visibility)]
        ∧ children.foldl add owner = owner.offeredAll children
        ∧ (owner.offeredAll children).placed.map Element.id = [3]
        ∧ (owner.offeredAll children).misplaced.map Element.id = [1, 2, 6, 7]
        ∧ (owner.offeredAll children).head.unknown = ["<x/>"] := by
  let owner := ofBody 0 (.feature .folder .empty)
  let children := [ofText 1 .visibility "maybe", ofBody 2 (.foreign .placemark [.feature]),
    ofBody 3 (.feature .placemark .empty), ofBody 4 (.fragment "<x/>"), ofText 5 .visibility " 1 ",
    ofText 6 .unknown "<y/>", ofText 7 .visibility "0"]
  have h : ∀ c ∈ children, c.parent? = none ∧ c.id ≠ owner.id := by
    decide
  exact ⟨owner, children, h, rfl, foldl_add owner children h, by decide +kernel, by decide +kernel,
    by decide +kernel⟩

end Element

end KmlTree
