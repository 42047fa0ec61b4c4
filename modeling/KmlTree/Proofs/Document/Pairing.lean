import KmlTree.Proofs.Document.Feed
import KmlTree.Proofs.Document.Offer
import Mathlib.Data.List.Forall2

/-!
This module contains the pairing of the elements that are open in a builder with the start tags that are
not closed yet (`Builder.Paired`). Both are in the same order at any time when nothing is being captured,
so that an end tag closes the element that its own start tag has opened (`Builder.open_elements_paired`).
-/

namespace KmlTree

namespace Reader

/--
The reader behind events that have been read one after the other.
-/
def past (r : Reader) : List (Event × Reader) → Reader
  | [] => r
  | (_, after) :: events => past after events

theorem reads_of_events {r after : Reader} {e : Event} {events : List (Event × Reader)}
    (h : r.transcript.events = (e, after) :: events) :
    ∃ t, t.event = e ∧ r.Reads t after ∧ after.transcript.events = events := by
  cases hnext : r.next with
  | ending e' =>
    rw [transcript_of_ending hnext] at h
    cases h
  | event e' after' =>
    obtain ⟨t, rfl, hreads⟩ := exists_reads hnext
    rw [transcript_of_reads hreads] at h
    cases h
    exact ⟨t, rfl, hreads, rfl⟩

theorem readsAll_past {r : Reader} {before rest : List (Event × Reader)}
    (h : r.transcript.events = before ++ rest) :
    (∃ ts, r.ReadsAll ts (r.past before)) ∧ (r.past before).transcript.events = rest := by
  induction before generalizing r with
  | nil => exact ⟨⟨[], .nil r⟩, h⟩
  | cons event before ih =>
    obtain ⟨e, after⟩ := event
    obtain ⟨t, rfl, hreads, hevents⟩ := reads_of_events h
    obtain ⟨⟨ts, hts⟩, hrest⟩ := ih hevents
    exact ⟨⟨t :: ts, .cons hreads hts⟩, hrest⟩

end Reader

/--
A start tag, and the events that are read in front of it.
-/
structure Opening where
  front : List (Event × Reader)
  tag : Tag

namespace Opening

/--
The start tags that are not closed behind one more event. `front` are the events in front of it.
-/
def next (front : List (Event × Reader)) (e : Event) (openings : List Opening) : List Opening :=
  match e with
  | .start tag => ⟨front, tag⟩ :: openings
  | .close _ => openings.tail
  | _ => openings

def unclosedFrom (front : List (Event × Reader)) (openings : List Opening) :
    List (Event × Reader) → List Opening
  | [] => openings
  | (e, after) :: events =>
    unclosedFrom (front ++ [(e, after)]) (next front e openings) events

/--
The start tags among events that are not closed by an end tag behind them, the innermost one first.
-/
def unclosed (events : List (Event × Reader)) : List Opening :=
  unclosedFrom [] [] events

/--
Whether the element with a given number is the one that a builder opens at a start tag.
-/
def Opens (text : List Char) (limit fresh : Nat) (o : Opening) (id : Nat) : Prop :=
  ∃ b e after, o.front.foldlM (Builder.step text limit) (.start fresh) = .ok b
    ∧ b.step text limit (.start o.tag, after) = .ok (b.opened e) ∧ e.id = id

theorem suffix_next {front : List (Event × Reader)} {e : Event} {outer openings : List Opening}
    (h : outer <:+ openings) (hlength : outer.length ≤ (next front e openings).length) :
    outer <:+ next front e openings := by
  cases e with
  | start tag => exact h.trans (List.suffix_cons _ _)
  | close name => exact List.suffix_of_suffix_length_le h (List.tail_suffix _) hlength
  | text | cdata | empty | aside => exact h

theorem map_name_next (front : List (Event × Reader)) {e : Event} {openings : List Opening}
    {names names' : List String} (h : e.openNames? names = some names')
    (hnames : names = openings.map fun o => o.tag.name) :
    names' = (next front e openings).map fun o => o.tag.name := by
  cases e with
  | start tag =>
    simp only [Event.openNames?, Option.some.injEq] at h
    rw [← h, hnames]
    rfl
  | close name =>
    rw [Event.openNames?_close] at h
    unfold next
    rw [List.map_tail, ← hnames, h, List.tail_cons]
  | text | cdata | empty | aside =>
    simp only [Event.openNames?, Option.some.injEq] at h
    rw [← h, hnames]
    rfl

end Opening

namespace Builder

/--
The numbers of the open elements of a builder, the innermost one first.
-/
def openIds (b : Builder) : List Nat := b.stack.map fun frame => frame.element.id

/--
The builder that closes its innermost element when it consumes an event outside of captured markup. An empty
element is opened first.
-/
def closing? (b : Builder) : Event → Option Builder
  | .close _ => some b
  | .empty tag => (tag.open? b.fresh).map b.opened
  | _ => none

variable {text : List Char} {limit fresh : Nat} {b b' : Builder}

theorem openIds_offer (b : Builder) (child : Element) : (b.offer child).openIds = b.openIds :=
  map_stack_offer (g := Element.id) (fun owner child => (Element.head_add owner child).1) b child

theorem openIds_pushText (b : Builder) (s : List Char) : (b.pushText s).openIds = b.openIds :=
  map_stack_pushText (g := Element.id) b s

theorem openIds_close (b : Builder) : b.close.openIds = b.openIds.tail :=
  map_stack_close (g := Element.id) (fun owner child => (Element.head_add owner child).1) b

theorem openIds_offerMarkup {start stop : Nat} (h : b.offerMarkup text start stop = .ok b') :
    b'.openIds = b.openIds := by
  obtain ⟨markup, _, rfl⟩ := offerMarkup_eq_ok.mp h
  rw [openIds_offer]
  rfl

theorem openIds_enter {stop : Nat} {tag : Tag} {isEmpty : Bool}
    (h : b.enter text limit stop tag isEmpty = .ok b') :
    b'.openIds = b.openIds ∨ isEmpty = false ∧ ∃ e, b' = b.opened e := by
  obtain ⟨_, _, h⟩ := enter_eq_ok.mp h
  split at h
  . obtain ⟨e, hopen, rfl⟩ := h
    cases isEmpty with
    | true => exact Or.inl (openIds_close (b.opened e))
    | false => exact Or.inr ⟨rfl, e, rfl⟩
  . obtain ⟨_, hbegin⟩ := h
    left
    cases isEmpty with
    | true =>
      obtain ⟨markup, _, rfl⟩ := beginCapture_empty.mp hbegin
      exact openIds_offer { b with fresh := b.fresh + 1 } _
    | false =>
      obtain ⟨start, _, rfl⟩ := beginCapture_start.mp hbegin
      rfl

theorem openIds_continueCapture {c : Capture} {stop : Nat} {e : Event}
    (h : b.continueCapture text stop c e = .ok b') : b'.openIds = b.openIds := by
  unfold continueCapture at h
  cases e with
  | text | cdata | empty | aside =>
    cases h
    rfl
  | start tag =>
    dsimp only at h
    split at h <;>
    . cases h
      rfl
  | close name =>
    dsimp only at h
    split at h
    . split at h
      . exact openIds_offerMarkup (b := { b with capture := none }) h
      . cases h
        rfl
    . cases h
      rfl

/--
What a step may do with the numbers of the open elements.
-/
theorem openIds_step {e : Event} {after : Reader} (h : b.step text limit (e, after) = .ok b') :
    b'.openIds = b.openIds ∨ b'.openIds = b.openIds.tail
      ∨ b.capture = none ∧ ∃ tag child, e = .start tag ∧ b' = b.opened child := by
  cases hcapture : b.capture with
  | some c =>
    rw [step_capture hcapture] at h
    exact Or.inl (openIds_continueCapture h)
  | none =>
    have hleaf (l : Leaf) (h : b.step text limit (l.event, after) = .ok b') :
        b'.openIds = b.openIds := by
      obtain ⟨content, _, rfl⟩ := (step_leaf hcapture).mp h
      exact openIds_pushText b content
    cases e with
    | text raw => exact Or.inl (hleaf (.text raw) h)
    | cdata content => exact Or.inl (hleaf (.cdata content) h)
    | aside => exact Or.inl (hleaf .aside h)
    | start tag =>
      rw [step_start hcapture] at h
      cases openIds_enter h with
      | inl hsame => exact Or.inl hsame
      | inr hmore =>
        obtain ⟨_, child, hopened⟩ := hmore
        exact Or.inr (Or.inr ⟨rfl, tag, child, rfl, hopened⟩)
    | empty tag =>
      rw [step_empty hcapture] at h
      cases openIds_enter h with
      | inl hsame => exact Or.inl hsame
      | inr hmore => cases hmore.1
    | close name =>
      rw [step_close hcapture, Except.ok.injEq] at h
      subst h
      exact Or.inr (Or.inl (openIds_close b))

theorem InStep.length_openIds_le {r : Reader} (h : b.InStep r) :
    b.openIds.length ≤ r.openNames.length
      ∧ (b.capture = none → b.openIds.length = r.openNames.length) := by
  have hlength : b.openIds.length = b.openTags.length := by
    unfold openIds Builder.openTags
    rw [List.length_map, List.length_map]
  unfold InStep at h
  split at h
  . rw [hlength, h, List.length_map]
    exact ⟨Nat.le_refl _, fun _ => rfl⟩
  . next c hcapture =>
    obtain ⟨inner, outer, hnames, _, htags⟩ := h
    rw [hlength, htags, hnames, hcapture]
    simp only [List.length_map, List.length_append, List.length_cons, reduceCtorEq, false_implies,
      and_true]
    omega

/--
Whether a builder that has consumed the events `front` has open elements that belong to the outermost of
the start tags `openings`, in the same order. Those inside of captured markup have no elements.
-/
structure Paired (text : List Char) (limit fresh : Nat) (front : List (Event × Reader))
    (openings : List Opening) (r : Reader) (b : Builder) : Prop where
  run : front.foldlM (step text limit) (start fresh) = .ok b
  inStep : b.InStep r
  names : r.openNames = openings.map fun o => o.tag.name
  outer : ∃ outer, outer <:+ openings ∧ List.Forall₂ (Opening.Opens text limit fresh) outer b.openIds

namespace Paired

variable {front : List (Event × Reader)} {openings : List Opening} {r after : Reader}
  {source : List Char}

theorem length_openings (h : Paired text limit fresh front openings r b) :
    openings.length = r.openNames.length := by
  rw [h.names, List.length_map]

theorem openings_of_capture (h : Paired text limit fresh front openings r b)
    (hcapture : b.capture = none) :
    List.Forall₂ (Opening.Opens text limit fresh) openings b.openIds := by
  obtain ⟨outer, hsuffix, hopens⟩ := h.outer
  have hlength : outer.length = openings.length := by
    rw [hopens.length_eq, h.length_openings]
    exact h.inStep.length_openIds_le.2 hcapture
  rw [hsuffix.eq_of_length hlength] at hopens
  exact hopens

theorem start (text : List Char) (limit fresh : Nat) (s : List Char) :
    Paired text limit fresh [] [] (Reader.start s) (start fresh) := by
  exact ⟨rfl, inStep_start s fresh, openNames_start s, [], List.suffix_refl _, .nil⟩

theorem step {t : Token} (h : Paired text limit fresh front openings r b) (hr : r.Reads t after)
    (hstep : b.step text limit (t.event, after) = .ok b') :
    Paired text limit fresh (front ++ [(t.event, after)]) (Opening.next front t.event openings) after
      b' := by
  have hinStep := inStep_step hr h.inStep hstep
  have hnames := Opening.map_name_next front hr.openNames h.names
  have hlength : b'.openIds.length ≤ (Opening.next front t.event openings).length := by
    have hle := hinStep.length_openIds_le.1
    rw [hnames, List.length_map] at hle
    exact hle
  refine ⟨?_, hinStep, hnames, ?_⟩
  . rw [List.foldlM_append, bind_eq_ok]
    refine ⟨b, h.run, ?_⟩
    rw [List.foldlM_cons]
    exact bind_eq_ok.mpr ⟨b', hstep, rfl⟩
  . obtain ⟨outer, hsuffix, hopens⟩ := h.outer
    rcases openIds_step hstep with hsame | htail | ⟨hcapture, tag, child, htag, rfl⟩
    . rw [← hsame] at hopens
      exact ⟨outer, Opening.suffix_next hsuffix (by rwa [hopens.length_eq]), hopens⟩
    . have hopens' : List.Forall₂ (Opening.Opens text limit fresh) outer.tail b'.openIds := by
        rw [htail]
        generalize b.openIds = ids at hopens
        cases hopens with
        | nil => exact .nil
        | cons _ htails => exact htails
      refine ⟨outer.tail, Opening.suffix_next ((List.tail_suffix _).trans hsuffix) ?_, hopens'⟩
      rwa [hopens'.length_eq]
    . rw [htag] at hstep ⊢
      have hopening : Opening.Opens text limit fresh ⟨front, tag⟩ child.id :=
        ⟨b, child, after, h.run, hstep, rfl⟩
      exact ⟨_, List.suffix_refl _, .cons hopening (h.openings_of_capture hcapture)⟩

theorem events {events rest : List (Event × Reader)} (h : Paired text limit fresh front openings r b)
    (hr : r.transcript.events = events ++ rest) (hrun : events.foldlM (Builder.step text limit) b = .ok b') :
    Paired text limit fresh (front ++ events) (Opening.unclosedFrom front openings events)
        (r.past events) b'
      ∧ (r.past events).transcript.events = rest := by
  induction events generalizing front openings r b with
  | nil =>
    cases hrun
    rw [List.append_nil]
    exact ⟨h, hr⟩
  | cons event events ih =>
    obtain ⟨e, after⟩ := event
    obtain ⟨t, rfl, hreads, hevents⟩ := Reader.reads_of_events hr
    rw [List.foldlM_cons] at hrun
    obtain ⟨middle, hstep, hrun⟩ := bind_eq_ok.mp hrun
    have hrest := ih (h.step hreads hstep) hevents hrun
    rw [List.append_assoc] at hrest
    exact hrest

/--
The innermost open element is the one that the innermost start tag has opened.
-/
theorem exists_innermost {name : String} (h : Paired text limit fresh front openings r b)
    (hcapture : b.capture = none) (hr : r.Reads ⟨.close name, source⟩ after) :
    ∃ frame frames opening outer, b.stack = frame :: frames ∧ openings = opening :: outer
      ∧ opening.tag.name = name ∧ opening.Opens text limit fresh frame.element.id := by
  have hopens := h.openings_of_capture hcapture
  have hnames := h.names
  rw [Event.openNames?_close.mp hr.openNames] at hnames
  unfold openIds at hopens
  cases hopenings : openings with
  | nil =>
    rw [hopenings] at hnames
    cases hnames
  | cons opening outer =>
    rw [hopenings] at hnames hopens
    simp only [List.map_cons, List.cons.injEq] at hnames
    cases hstack : b.stack with
    | nil =>
      rw [hstack] at hopens
      cases hopens
    | cons frame frames =>
      rw [hstack, List.map_cons, List.forall₂_cons] at hopens
      exact ⟨frame, frames, opening, outer, rfl, rfl, hnames.1.symm, hopens.1⟩

end Paired

theorem stack_ne_nil_of_closing? {q : Builder} {tag : Tag} (h : b.closing? (.empty tag) = some q) :
    q.stack ≠ [] := by
  obtain ⟨e, _, rfl⟩ := Option.map_eq_some_iff.mp h
  exact List.cons_ne_nil _ _

/--
What closes at an event is the innermost element of the builder that is said to close it.
-/
theorem eq_close_of_closing? {q : Builder} {e : Event} {after : Reader} (hcapture : b.capture = none)
    (hclosing : b.closing? e = some q) (h : b.step text limit (e, after) = .ok b') : b' = q.close := by
  cases e with
  | text | cdata | start | aside => cases hclosing
  | close name =>
    cases hclosing
    rw [step_close hcapture] at h
    cases h
    rfl
  | empty tag =>
    obtain ⟨e, hopen, rfl⟩ := Option.map_eq_some_iff.mp hclosing
    rw [step_empty hcapture, enter_eq_ok, if_pos (Tag.isKnown_of_open? hopen)] at h
    obtain ⟨_, _, e', hopen', rfl⟩ := h
    rw [hopen] at hopen'
    cases hopen'
    rfl

/--
The open elements are in step with the open tags of the reader whenever nothing is being captured: they have
the same names in the same order, and each has been opened by the start tag at its place. So there is always
an element to close, and at an end tag it is the one that its own start tag has opened. The error about
elements which are not closed counts the start tags that are open at the end of the text.
-/
theorem open_elements_paired (limit fresh : Nat) (text : String) :
    (∀ before rest b,
      (Reader.start text.toList).transcript.events = before ++ rest →
      before.foldlM (step text.toList limit) (start fresh) = .ok b → b.capture = none →
        b.openTags = ((Reader.start text.toList).past before).openNames.map some
          ∧ ((Reader.start text.toList).past before).openNames
            = (Opening.unclosed before).map (fun opening => opening.tag.name)
          ∧ List.Forall₂ (Opening.Opens text.toList limit fresh) (Opening.unclosed before) b.openIds
          ∧ ∀ e after rest', rest = (e, after) :: rest' → ∀ q, b.closing? e = some q →
            q.stack ≠ []
              ∧ (∀ b', b.step text.toList limit (e, after) = .ok b' → b' = q.close)
              ∧ ∀ name, e = .close name →
                b.step text.toList limit (e, after) = .ok b.close
                  ∧ ∃ frame frames opening outer, b.stack = frame :: frames
                    ∧ Opening.unclosed before = opening :: outer ∧ opening.tag.name = name
                    ∧ opening.Opens text.toList limit fresh frame.element.id)
      ∧ ∀ n, parseDocument limit fresh text = .error (.unclosedElements n)
        ↔ ∃ b position,
          (Reader.start text.toList).transcript.events.foldlM (step text.toList limit) (start fresh)
              = .ok b
            ∧ (Reader.start text.toList).transcript.ending = .finished position ∧ b.capture = none
            ∧ n = (Opening.unclosed (Reader.start text.toList).transcript.events).length ∧ n ≠ 0 := by
  have hstart := Paired.start text.toList limit fresh text.toList
  constructor
  . intro before rest b hevents hrun hcapture
    obtain ⟨hpaired, hrest⟩ := hstart.events hevents hrun
    refine ⟨hpaired.inStep.openTags hcapture, hpaired.names, hpaired.openings_of_capture hcapture, ?_⟩
    rintro e after rest' rfl q hclosing
    obtain ⟨⟨e, source⟩, rfl, hreads, _⟩ := Reader.reads_of_events hrest
    refine ⟨?_, fun b' hstep => eq_close_of_closing? hcapture hclosing hstep, ?_⟩
    . cases e with
      | text | cdata | start | aside => cases hclosing
      | empty tag => exact stack_ne_nil_of_closing? hclosing
      | close name =>
        cases hclosing
        obtain ⟨frame, frames, _, _, hstack, _⟩ := hpaired.exists_innermost hcapture hreads
        rw [hstack]
        exact List.cons_ne_nil _ _
    . rintro name rfl
      exact ⟨step_close hcapture, hpaired.exists_innermost hcapture hreads⟩
  . intro n
    have hcount {b : Builder} (hcapture : b.capture = none)
        (hrun : (Reader.start text.toList).transcript.events.foldlM (step text.toList limit)
          (start fresh) = .ok b) :
        (Opening.unclosed (Reader.start text.toList).transcript.events).length = b.stack.length := by
      obtain ⟨hpaired, _⟩ := hstart.events (List.append_nil _).symm hrun
      have hlength := (hpaired.openings_of_capture hcapture).length_eq
      unfold openIds at hlength
      rw [List.length_map] at hlength
      exact hlength
    cases hrun : (Reader.start text.toList).transcript.events.foldlM (step text.toList limit)
      (start fresh) with
    | error e =>
      have hearly := isEarly_steps hrun
      rw [parseDocument_of_error hrun]
      constructor
      . rintro ⟨⟩
        exact hearly.elim
      . rintro ⟨b, _, hok, _⟩
        cases hok
    | ok b =>
      rw [parseDocument_of_steps hrun, finish_eq_unclosed]
      constructor
      . rintro ⟨⟨position, hending⟩, hcapture, hstack, rfl⟩
        refine ⟨b, position, rfl, hending, hcapture, (hcount hcapture hrun).symm, ?_⟩
        simpa using hstack
      . rintro ⟨b', position, hsame, hending, hcapture, rfl, hne⟩
        cases hsame
        rw [hcount hcapture hrun] at hne ⊢
        exact ⟨⟨position, hending⟩, hcapture, by simpa using hne, rfl⟩

/--
An element is captured that has an element with the name of the one around it inside.
-/
theorem open_elements_paired_captured :
    ∃ before rest b, (Reader.start "<Folder><x><Folder></Folder></x><name>".toList).transcript.events
        = before ++ rest
      ∧ before.length = 5
      ∧ before.foldlM (step "<Folder><x><Folder></Folder></x><name>".toList 100) (start 0) = .ok b
      ∧ b.capture = none ∧ (Opening.unclosed before).length = 1 ∧ b.openTags = [some "Folder"]
      ∧ ((Reader.start "<Folder><x><Folder></Folder></x><name>".toList).past before).openNames
        = ["Folder"]
      ∧ parseDocument 100 0 "<Folder><x><Folder></Folder></x><name>" = .error (.unclosedElements 2) := by
  let text := "<Folder><x><Folder></Folder></x><name>"
  let events := (Reader.start text.toList).transcript.events
  have hsteps : ((events.take 5).foldlM (step text.toList 100) (start 0)).toOption.map
      Builder.capture = some none := by
    decide +kernel
  obtain ⟨b, hrun, hcapture⟩ := exists_of_toOption_map hsteps
  have hnames : ((Reader.start text.toList).past (events.take 5)).openNames = ["Folder"] := by
    decide +kernel
  obtain ⟨htags, _⟩ := (open_elements_paired 100 0 text).1 (events.take 5)
    (events.drop 5) b (List.take_append_drop 5 events).symm hrun hcapture
  rw [hnames] at htags
  have hall : (events.foldlM (step text.toList 100) (start 0)).toOption.map Builder.capture
      = some none := by
    decide +kernel
  obtain ⟨last, hlastRun, hlastCapture⟩ := exists_of_toOption_map hall
  refine ⟨events.take 5, events.drop 5, b, (List.take_append_drop 5 events).symm, ?_, hrun, hcapture,
    ?_, htags, hnames, ?_⟩
  . decide +kernel
  . decide +kernel
  . apply ((open_elements_paired 100 0 text).2 2).mpr
    refine ⟨last, 38, hlastRun, ?_, hlastCapture, ?_, ?_⟩ <;> decide +kernel

end Builder

end KmlTree
