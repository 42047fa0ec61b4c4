import KmlTree.Proofs.Element.Serialization
import KmlTree.Proofs.Workspace.Invariant

/-!
This module contains what can be told of an element from its emissions alone. A listener hears them one
after the other and knows each time which element is speaking (`Listener.hear?`). In the end it has an
account of all elements with everything that is inside of them, in order (`Element.hearAll?_emissions`).
-/

namespace KmlTree

/--
What has been heard in one place: a value, text, markup, or an element that has ended.
-/
inductive Account where
  | value (kind : Kind) (text : String)
  | text (text : String)
  | markup (markup : String)
  | element (id : Nat) (kind : Kind) (attributes : Attributes) (inside : List Account)

/--
An element that has begun and not ended yet, with what has been heard inside of it so far.
-/
structure Speaker where
  id : Nat
  kind : Kind
  attributes : Attributes
  mixed : Bool
  inside : List Account

/--
What is known after some emissions. `visited` is the element that has been visited and has not begun yet.
The innermost speaker is the first one.
-/
structure Listener where
  visited : Option (Nat × Kind)
  speakers : List Speaker
  heard : List Account

namespace Account

def ofText (text : List Char) : List Account :=
  if text.isEmpty then [] else [Account.text (String.ofList text)]

def ofValue? : Emission → Option Account
  | .simple kind _ content => some (.value kind content)
  | _ => none

end Account

namespace Listener

def start : Listener := ⟨none, [], []⟩

/--
Note down what is heard inside of the innermost speaker.
-/
def note (l : Listener) (as : List Account) : Listener :=
  match l.speakers with
  | [] => { l with heard := l.heard ++ as }
  | s :: ss => { l with speakers := { s with inside := s.inside ++ as } :: ss }

def begin (l : Listener) (id : Nat) (kind : Kind) (attributes : Attributes) (mixed : Bool) : Listener :=
  ⟨none, ⟨id, kind, attributes, mixed, []⟩ :: l.speakers, l.heard⟩

def end? (l : Listener) (kind : Kind) (mixed : Bool) : Option Listener :=
  match l.speakers with
  | [] => none
  | s :: ss =>
    if s.kind = kind ∧ s.mixed = mixed then
      some (({ l with speakers := ss } : Listener).note
        [.element s.id s.kind s.attributes s.inside])
    else
      none

/--
Hear one emission. An element that has been visited has to begin before anything else is said, and only
the innermost speaker can end. A simple element without attributes that was not visited is a value.
-/
def hear? (l : Listener) (m : Emission) : Option Listener :=
  match l.visited, m with
  | none, .visit id kind => some { l with visited := some (id, kind) }
  | some (id, kind), .openTag kind' attributes =>
    if kind' = kind then some (l.begin id kind attributes false) else none
  | some (id, kind), .openMixed kind' attributes =>
    if kind' = kind then some (l.begin id kind attributes true) else none
  | some (id, kind), .simple kind' attributes text =>
    if kind' = kind then
      some (({ l with visited := none } : Listener).note
        [.element id kind attributes (Account.ofText text.toList)])
    else
      none
  | none, .simple kind attributes text =>
    if attributes = ∅ then some (l.note [.value kind text]) else none
  | none, .verbatim markup => some (l.note [.markup markup])
  | none, .charData text => some (l.note [.text text])
  | none, .closeTag kind => l.end? kind false
  | none, .closeMixed kind => l.end? kind true
  | _, _ => none

def hearAll? (l : Listener) (es : List Emission) : Option Listener := es.foldlM hear? l

variable {l : Listener}

theorem note_nil (l : Listener) : l.note [] = l := by
  obtain ⟨visited, speakers, heard⟩ := l
  unfold note
  cases speakers <;> simp

theorem note_note (l : Listener) (as bs : List Account) : (l.note as).note bs = l.note (as ++ bs) := by
  unfold note
  cases l.speakers <;> simp

theorem visited_note (l : Listener) (as : List Account) : (l.note as).visited = l.visited := by
  unfold note
  cases l.speakers <;> rfl

theorem hearAll?_cons (l : Listener) (m : Emission) (es : List Emission) :
    l.hearAll? (m :: es) = (l.hear? m).bind fun l => l.hearAll? es := by
  unfold hearAll?
  rw [List.foldlM_cons]
  rfl

theorem hearAll?_append (l : Listener) (es fs : List Emission) :
    l.hearAll? (es ++ fs) = (l.hearAll? es).bind fun l => l.hearAll? fs := by
  unfold hearAll?
  rw [List.foldlM_append]
  rfl

theorem hear?_visit (h : l.visited = none) (id : Nat) (kind : Kind) :
    l.hear? (.visit id kind) = some { l with visited := some (id, kind) } := by
  unfold hear?
  rw [h]

theorem end?_begin (h : l.visited = none) (id : Nat) (kind : Kind) (attributes : Attributes)
    (mixed : Bool) (as : List Account) :
    ((l.begin id kind attributes mixed).note as).end? kind mixed
      = some (l.note [.element id kind attributes as]) := by
  obtain ⟨visited, speakers, heard⟩ := l
  dsimp only at h
  rw [h]
  unfold end? begin note
  simp

end Listener

open Listener

namespace Emission

/--
Whether a listener for which no visited element is yet to begin notes down `as` when it hears `es`.
-/
def Tells (es : List Emission) (as : List Account) : Prop :=
  ∀ l : Listener, l.visited = none → l.hearAll? es = some (l.note as)

namespace Tells

variable {es fs : List Emission} {as bs : List Account}

theorem nil : Tells [] [] := by
  intro l _
  rw [note_nil]
  rfl

theorem append (h : Tells es as) (h' : Tells fs bs) : Tells (es ++ fs) (as ++ bs) := by
  intro l hl
  have hnote : (l.note as).visited = none := (visited_note l as).trans hl
  rw [hearAll?_append, h l hl, Option.bind_some, h' _ hnote, note_note]

theorem flatMap {α : Type} {items : List α} {emit : α → List Emission} {tell : α → List Account}
    (h : ∀ item ∈ items, Tells (emit item) (tell item)) :
    Tells (items.flatMap emit) (items.flatMap tell) := by
  induction items with
  | nil => exact nil
  | cons item items ih =>
    rw [List.forall_mem_cons] at h
    rw [List.flatMap_cons, List.flatMap_cons]
    exact append h.1 (ih h.2)

theorem single {m : Emission} {a : Account}
    (h : ∀ l : Listener, l.visited = none → l.hear? m = some (l.note [a])) : Tells [m] [a] := by
  intro l hl
  rw [hearAll?_cons, h l hl]
  rfl

theorem ofText (kind : Kind) (text : String) : Tells [.ofText kind text] [.value kind text] := by
  apply single
  intro l hl
  unfold hear? Emission.ofText
  rw [hl]
  exact if_pos rfl

theorem values (h : ∀ m ∈ es, ∃ kind text, m = .ofText kind text) :
    Tells es (es.filterMap Account.ofValue?) := by
  induction es with
  | nil => exact nil
  | cons m es ih =>
    rw [List.forall_mem_cons] at h
    obtain ⟨⟨kind, text, rfl⟩, hrest⟩ := h
    exact append (ofText kind text) (ih hrest)

theorem verbatim (markup : List String) : Tells (markup.map .verbatim) (markup.map .markup) := by
  rw [List.map_eq_flatMap, List.map_eq_flatMap]
  apply flatMap
  intro m _
  apply single
  intro l hl
  unfold hear?
  rw [hl]

theorem textEmissions (text : List Char) : Tells (textEmissions text) (Account.ofText text) := by
  unfold KmlTree.textEmissions Account.ofText
  split
  . exact nil
  . apply single
    intro l hl
    unfold hear?
    rw [hl]

variable {id : Nat} {kind : Kind} {attributes : Attributes}

theorem simple (text : String) :
    Tells [.visit id kind, .simple kind attributes text]
      [.element id kind attributes (Account.ofText text.toList)] := by
  intro l hl
  rw [hearAll?_cons, hear?_visit hl, Option.bind_some, hearAll?_cons]
  unfold hear?
  simp only [if_true, Option.bind_some]
  rw [← hl]
  rfl

/--
What is heard between the emissions that begin and end an element is inside of the element.
-/
theorem around {first last : Emission} {mixed : Bool}
    (hfirst : ∀ l : Listener, l.visited = some (id, kind) →
      l.hear? first = some (l.begin id kind attributes mixed))
    (hlast : ∀ l : Listener, l.visited = none → l.hear? last = l.end? kind mixed) (h : Tells es as) :
    Tells (.visit id kind :: first :: es ++ [last]) [.element id kind attributes as] := by
  intro l hl
  have hinside : ((l.begin id kind attributes mixed).note as).visited = none :=
    visited_note (l.begin id kind attributes mixed) as
  have hbegin : ({ l with visited := some (id, kind) } : Listener).hear? first
      = some (l.begin id kind attributes mixed) :=
    hfirst { l with visited := some (id, kind) } rfl
  -- the element speaks in front of the speakers of `l`, and when it ends its account is noted for `l`
  rw [List.cons_append, hearAll?_cons, hear?_visit hl, Option.bind_some]
  rw [List.cons_append, hearAll?_cons, hbegin, Option.bind_some]
  rw [hearAll?_append, h (l.begin id kind attributes mixed) rfl, Option.bind_some]
  rw [hearAll?_cons, hlast _ hinside, end?_begin hl]
  rfl

theorem tags (h : Tells es as) (id : Nat) (kind : Kind) (attributes : Attributes) :
    Tells (.visit id kind :: .openTag kind attributes :: es ++ [.closeTag kind])
      [.element id kind attributes as] := by
  apply around _ _ h
  . exact false
  . intro l hl
    unfold hear?
    rw [hl]
    exact if_pos rfl
  . intro l hl
    unfold hear?
    rw [hl]

theorem mixed (h : Tells es as) (id : Nat) (kind : Kind) (attributes : Attributes) :
    Tells (.visit id kind :: .openMixed kind attributes :: es ++ [.closeMixed kind])
      [.element id kind attributes as] := by
  apply around _ _ h
  . exact true
  . intro l hl
    unfold hear?
    rw [hl]
    exact if_pos rfl
  . intro l hl
    unfold hear?
    rw [hl]

end Tells

end Emission

namespace Emission

def visited? : Emission → Option (Nat × Kind)
  | visit id kind => some (id, kind)
  | _ => none

/--
The elements that are visited in a list of emissions, in order.
-/
def visits (es : List Emission) : List (Nat × Kind) := es.filterMap visited?

variable {es : List Emission}

theorem visits_nil : visits [] = [] := by
  rfl

theorem visits_cons {m : Emission} (h : m.visited? = none) (es : List Emission) :
    visits (m :: es) = visits es :=
  List.filterMap_cons_none h

theorem visits_cons_visit (id : Nat) (kind : Kind) (es : List Emission) :
    visits (.visit id kind :: es) = (id, kind) :: visits es := by
  rfl

theorem visits_append (es fs : List Emission) : visits (es ++ fs) = visits es ++ visits fs :=
  List.filterMap_append

theorem visits_eq_nil (h : ∀ m ∈ es, m.visited? = none) : visits es = [] :=
  List.filterMap_eq_nil_iff.mpr h

theorem visits_textEmissions (text : List Char) : visits (textEmissions text) = [] := by
  unfold textEmissions
  split <;> rfl

theorem visits_verbatim (markup : List String) : visits (markup.map .verbatim) = [] := by
  apply visits_eq_nil
  intro m hm
  obtain ⟨markup, _, rfl⟩ := List.mem_map.mp hm
  rfl

theorem visits_values {body : Body} {charData : String} (h : body.content charData = .complex es) :
    visits es = [] := by
  apply visits_eq_nil
  intro m hm
  obtain ⟨kind, text, rfl⟩ := Body.ofText_of_mem_values h hm
  rfl

end Emission

open Emission

namespace Element

/--
The text of an element itself: the positions of coordinates, the text of a field as it is, and any other
text without the white space around it.
-/
def ownText (e : Element) : List Char :=
  match e.body with
  | .coordinates positions skipped => (positionsText positions skipped).toList
  | .field _ => e.head.charData.toList
  | _ => trim e.head.charData.toList

mutual

/--
Everything that there is to be told of an element: its values, the children in their places, its text, its
unknown markup and the misplaced children.
-/
def account : Element → Account
  | ⟨head, body, placed, misplaced⟩ =>
    let e : Element := ⟨head, body, placed, misplaced⟩
    .element e.id e.kind e.attributes
      (body.values.filterMap Account.ofValue? ++ accountsOfAll placed ++ Account.ofText e.ownText
        ++ head.unknown.map .markup ++ accountsOfAll misplaced)

def accountsOfAll : List Element → List Account
  | [] => []
  | e :: es => e.account :: accountsOfAll es

end

/--
Whether an element is one of the catalog or a field, and has children in places only where its kind has
places for some.
-/
structure Accountable (e : Element) : Prop where
  markup : ∀ markup, e.body ≠ .fragment markup
  foreign : ∀ kind others, e.body ≠ .foreign kind others
  placed : e.body.place? = none → e.placed = []

theorem localInvariant_placed : LocalInvariant fun e => e.body.place? = none → e.placed = [] where
  new body _ _ := rfl
  data he _ _ hplace hnone := he (hplace.symm.trans hnone)
  placed placed _ hplace hnone := by
    rw [hnone] at hplace
    cases hplace
  misplaced _ he := he
  takeAttributes {e} a he hnone := by
    have hplace : (e.body.takeAttributes a).1.place? = e.body.place? := by
      cases e.body <;> rfl
    exact he (hplace.symm.trans hnone)
  regular h hnone := h.placed_eq_nil hnone

/--
Whatever is done to a workspace, all elements of the catalog and all fields in it are accountable.
-/
theorem accountable_run (fresh : Nat) (actions : List Workspace.Action) :
    ∀ e ∈ ((Workspace.empty fresh).run actions).elements, (∀ markup, e.body ≠ .fragment markup) →
      (∀ kind others, e.body ≠ .foreign kind others) → e.Accountable := by
  intro e he hmarkup hforeign
  exact ⟨hmarkup, hforeign, Workspace.elements_run localInvariant_placed fresh actions e he⟩

theorem accountsOfAll_eq (es : List Element) : accountsOfAll es = es.map account := by
  induction es with
  | nil =>
    rw [accountsOfAll]
    rfl
  | cons e es ih =>
    rw [accountsOfAll, ih]
    rfl

theorem account_eq (e : Element) :
    e.account = .element e.id e.kind e.attributes
      (e.body.values.filterMap Account.ofValue? ++ e.placed.map account ++ Account.ofText e.ownText
        ++ e.head.unknown.map .markup ++ e.misplaced.map account) := by
  obtain ⟨head, body, placed, misplaced⟩ := e
  rw [account, accountsOfAll_eq, accountsOfAll_eq]

theorem tells_all {es : List Element} (h : ∀ e ∈ es, Tells e.emissions [e.account]) :
    Tells (emissionsOfAll es) (es.map account) := by
  rw [emissionsOfAll_eq, List.map_eq_flatMap]
  exact Tells.flatMap h

theorem Accountable.content {e : Element} (h : e.Accountable) :
    (∃ values, e.body.content e.head.charData = .complex values
        ∧ e.ownText = trim e.head.charData.toList)
      ∨ ∃ text, e.body.content e.head.charData = .textual text ∧ e.ownText = text.toList := by
  unfold ownText
  cases hbody : e.body with
  | fragment markup => exact absurd hbody (h.markup markup)
  | foreign kind others => exact absurd hbody (h.foreign kind others)
  | coordinates | field => exact Or.inr ⟨_, rfl, rfl⟩
  | kml | feature | point | lineString => exact Or.inl ⟨_, rfl, rfl⟩

theorem tells_complex {e : Element} {values : List Emission}
    (hcontent : e.body.content e.head.charData = .complex values)
    (htext : e.ownText = trim e.head.charData.toList)
    (hplaced : ∀ c ∈ e.placed, Tells c.emissions [c.account])
    (hmisplaced : ∀ c ∈ e.misplaced, Tells c.emissions [c.account]) : Tells e.emissions [e.account] := by
  have hvalues : Tells values (e.body.values.filterMap Account.ofValue?) := by
    rw [Body.values_eq hcontent]
    apply Tells.values
    intro m hm
    exact Body.ofText_of_mem_values hcontent hm
  have hinside := (((hvalues.append (tells_all hplaced)).append (Tells.textEmissions e.ownText)).append
    (Tells.verbatim e.head.unknown)).append (tells_all hmisplaced)
  have htags := hinside.tags e.id e.kind e.attributes
  rw [account_eq]
  obtain ⟨head, body, placed, misplaced⟩ := e
  rw [emissions]
  dsimp only at hcontent htext htags ⊢
  rw [htext] at htags ⊢
  rw [hcontent]
  simp only [List.append_assoc, List.cons_append] at htags ⊢
  exact htags

theorem tells_textual {e : Element} {text : String}
    (hcontent : e.body.content e.head.charData = .textual text) (htext : e.ownText = text.toList)
    (hplaced : e.placed = [])
    (hmisplaced : ∀ c ∈ e.misplaced, Tells c.emissions [c.account]) : Tells e.emissions [e.account] := by
  have hinside := ((Tells.textEmissions e.ownText).append (Tells.verbatim e.head.unknown)).append
    (tells_all hmisplaced)
  have hmixed := hinside.mixed e.id e.kind e.attributes
  rw [account_eq, hplaced, htext, Body.values_eq_nil hcontent]
  rw [htext] at hmixed
  obtain ⟨head, body, placed, misplaced⟩ := e
  rw [emissions]
  dsimp only at hcontent hmixed ⊢
  rw [hcontent]
  dsimp only
  split
  . next hempty =>
    simp only [Bool.and_eq_true, List.isEmpty_iff] at hempty
    rw [hempty.1, hempty.2]
    simp only [List.filterMap_nil, List.map_nil, List.append_nil, List.nil_append]
    exact Tells.simple text
  . simp only [List.append_assoc, List.cons_append, List.filterMap_nil, List.map_nil,
      List.nil_append] at hmixed ⊢
    exact hmixed

theorem tells_emissions (e : Element) (h : ∀ x ∈ e.all, x.Accountable) :
    Tells e.emissions [e.account] := by
  induction e using Element.induction with
  | step e hplaced hmisplaced =>
    obtain ⟨hself, hchildren⟩ := forall_mem_all.mp h
    have hplaced' : ∀ c ∈ e.placed, Tells c.emissions [c.account] := by
      intro c hc
      exact hplaced c hc (hchildren c (List.mem_append_left _ hc))
    have hmisplaced' : ∀ c ∈ e.misplaced, Tells c.emissions [c.account] := by
      intro c hc
      exact hmisplaced c hc (hchildren c (List.mem_append_right _ hc))
    cases hself.content with
    | inl hcomplex =>
      obtain ⟨values, hcontent, htext⟩ := hcomplex
      exact tells_complex hcontent htext hplaced' hmisplaced'
    | inr htextual =>
      obtain ⟨text, hcontent, htext⟩ := htextual
      have hnone := hself.placed (Body.place?_of_textual hcontent)
      exact tells_textual hcontent htext hnone hmisplaced'

theorem visits_all {es : List Element}
    (h : ∀ e ∈ es, visits e.emissions = e.all.map fun x => (x.id, x.kind)) :
    visits (emissionsOfAll es) = (es.flatMap all).map fun x => (x.id, x.kind) := by
  rw [emissionsOfAll_eq, List.map_flatMap]
  unfold visits
  rw [List.filterMap_flatMap]
  exact List.flatMap_congr h

theorem visits_complex {e : Element} {values : List Emission}
    (hcontent : e.body.content e.head.charData = .complex values) :
    visits e.emissions
      = (e.id, e.kind) :: visits (emissionsOfAll e.placed) ++ visits (emissionsOfAll e.misplaced) := by
  obtain ⟨head, body, placed, misplaced⟩ := e
  rw [emissions]
  dsimp only at hcontent ⊢
  rw [hcontent]
  dsimp only
  rw [visits_cons_visit, List.cons_append, List.cons_append, List.cons_append, List.cons_append,
    visits_cons rfl]
  simp only [visits_append, visits_values hcontent, visits_textEmissions, visits_verbatim,
    List.nil_append, List.append_nil]
  rw [visits_cons rfl, visits_nil, List.append_nil]
  rfl

theorem visits_textual {e : Element} {text : String}
    (hcontent : e.body.content e.head.charData = .textual text) :
    visits e.emissions = (e.id, e.kind) :: visits (emissionsOfAll e.misplaced) := by
  obtain ⟨head, body, placed, misplaced⟩ := e
  rw [emissions]
  dsimp only at hcontent ⊢
  rw [hcontent]
  dsimp only
  rw [visits_cons_visit]
  split
  . next hempty =>
    simp only [Bool.and_eq_true, List.isEmpty_iff] at hempty
    rw [hempty.2]
    rfl
  . rw [List.cons_append, List.cons_append, visits_cons rfl]
    simp only [visits_append, visits_textEmissions, visits_verbatim, List.nil_append]
    rw [visits_cons rfl, visits_nil, List.append_nil]
    rfl

theorem visits_emissions (e : Element) (h : ∀ x ∈ e.all, x.Accountable) :
    visits e.emissions = e.all.map fun x => (x.id, x.kind) := by
  induction e using Element.induction with
  | step e hplaced hmisplaced =>
    obtain ⟨hself, hchildren⟩ := forall_mem_all.mp h
    have hplaced' := visits_all fun c hc => hplaced c hc (hchildren c (List.mem_append_left _ hc))
    have hmisplaced' := visits_all fun c hc =>
      hmisplaced c hc (hchildren c (List.mem_append_right _ hc))
    rw [all_eq, List.map_append, List.map_cons, ← hplaced', ← hmisplaced']
    cases hself.content with
    | inl hcomplex =>
      obtain ⟨values, hcontent, _⟩ := hcomplex
      exact visits_complex hcontent
    | inr htextual =>
      obtain ⟨text, hcontent, _⟩ := htextual
      rw [visits_textual hcontent, hself.placed (Body.place?_of_textual hcontent)]
      rw [emissionsOfAll]
      rfl

/--
The emissions of an element visit it and every element in it once, in pre-order with the placed children
of each one before the misplaced ones. A listener that hears them ends up with nothing but the account of
the element: every visited element is inside of the one that holds it, behind its values, and every piece
of unknown markup is once inside of its owner, behind the children in their places and the text and before
the misplaced children.
-/
theorem hearAll?_emissions (e : Element) (h : ∀ x ∈ e.all, x.Accountable) :
    visits e.emissions = e.all.map (fun x => (x.id, x.kind))
      ∧ Listener.start.hearAll? e.emissions = some ⟨none, [], [e.account]⟩ := by
  constructor
  . exact visits_emissions e h
  . exact tells_emissions e h .start rfl

theorem hearAll?_folder :
    let coordinates : Element := ⟨⟨3, some 2, none, "x", [], none⟩, .coordinates [] ["x"], [], []⟩
    let point : Element := ⟨⟨2, some 1, none, "", [], none⟩, .point .empty, [coordinates], []⟩
    let placemark : Element :=
      ⟨⟨1, some 0, none, " p ", ["<q/>"], none⟩, .feature .placemark .empty, [point], []⟩
    let name : Element := ⟨⟨4, some 0, none, "n", ["<m/>"], none⟩, .field .name, [], []⟩
    let folder : Element :=
      ⟨⟨0, none, none, "f", ["<g/>", "<h/>"], none⟩,
        .feature .folder { FeatureFields.empty with visibility := some true }, [placemark], [name]⟩
    (∀ x ∈ folder.all, x.Accountable)
      ∧ visits folder.emissions
        = [(0, .folder), (1, .placemark), (2, .point), (3, .coordinates), (4, .name)]
      ∧ Listener.start.hearAll? folder.emissions = some ⟨none, [],
        [.element 0 .folder ∅ [.value .visibility "1",
          .element 1 .placemark ∅ [.element 2 .point ∅ [.element 3 .coordinates ∅ [.text "x"]],
            .text "p", .markup "<q/>"],
          .text "f", .markup "<g/>", .markup "<h/>",
          .element 4 .name ∅ [.text "n", .markup "<m/>"]]]⟩ := by
  intro coordinates point placemark name folder
  have haccountable : ∀ x ∈ folder.all, x.Accountable := by
    have hall : folder.all = [folder, placemark, point, coordinates, name] := by
      rfl
    rw [hall]
    simp only [List.forall_mem_cons, List.not_mem_nil, false_imp_iff, implies_true, and_true]
    refine ⟨?_, ?_, ?_, ?_, ?_⟩
    . exact ⟨nofun, nofun, nofun⟩
    . exact ⟨nofun, nofun, nofun⟩
    . exact ⟨nofun, nofun, nofun⟩
    . exact ⟨nofun, nofun, fun _ => rfl⟩
    . exact ⟨nofun, nofun, fun _ => rfl⟩
  obtain ⟨hvisits, hheard⟩ := hearAll?_emissions folder haccountable
  refine ⟨haccountable, ?_, ?_⟩
  . rw [hvisits]
    rfl
  . rw [hheard]
    cbv

end Element

end KmlTree
