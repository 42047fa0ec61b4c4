import KmlTree.Proofs.Document.Pairing
import KmlTree.Proofs.Document.Verbatim

/-!
This module contains the reason why markup can always be cut out of a text in which every byte is counted:
the position of the reader is the number of bytes that it has read (`Reader.IsIn`), and what is captured
begins at an opening angle bracket in front of it (`Builder.Tracks`). Only a byte order mark is not counted
(`captures_in_range`).
-/

namespace KmlTree

/--
Whether a place in a text, in bytes, is just behind a closing angle bracket.
-/
def IsBehindBracket (text : List Char) (position : Nat) : Prop :=
  ∃ before after, text = before ++ '>' :: after ∧ position = byteLength (before ++ ['>'])

/--
Whether the bytes of a text from `start` on and before `stop` are whole characters, the first of which is an
opening angle bracket.
-/
def IsPiece (text : List Char) (start stop : Nat) : Prop :=
  ∃ before piece after, text = before ++ '<' :: piece ++ after ∧ start = byteLength before
    ∧ stop = byteLength (before ++ '<' :: piece)

namespace IsPiece

variable {text : List Char} {start stop : Nat}

theorem le (h : IsPiece text start stop) : start ≤ stop := by
  obtain ⟨before, piece, after, _, rfl, rfl⟩ := h
  rw [byteLength_append]
  omega

theorem exists_slice (h : IsPiece text start stop) :
    ∃ markup, sliceBytes? start stop text = some ('<' :: markup) := by
  obtain ⟨before, piece, after, rfl, rfl, rfl⟩ := h
  exact ⟨piece, sliceBytes?_append before ('<' :: piece) after⟩

end IsPiece

namespace Reader

variable {text : List Char} {r after : Reader} {t : Token}

/--
A construct between angle brackets has the closing one, unless the text ends with it.
-/
theorem Reads.source_ending (h : r.Reads t after) (ht : t.event.isText = false) :
    (∃ front, t.source = front ++ ['>']) ∨ after.rest = [] := by
  obtain ⟨rest, hsource⟩ := h.wellFormed.markup ht
  have hr : r.rest = '<' :: (rest ++ after.rest) := by
    rw [h.rest, hsource, List.cons_append]
  have hnext := h.next
  rw [next_markup hr] at hnext
  obtain ⟨content, closing, hreads⟩ := readsMarkup_of_readMarkup hnext
  have hcontent := hreads.rest
  rw [List.append_cancel_right_eq] at hcontent
  cases hreads.ending with
  | inl hclosing =>
    left
    rw [hsource, hcontent, hclosing]
    exact ⟨'<' :: content, rfl⟩
  | inr hend => exact Or.inr hend.2

theorem Reads.isIn {mark : List Char} (h : r.Reads t after) (hr : r.IsIn mark text) :
    after.IsIn mark text :=
  h.readsAll.isIn hr

/--
The last opening bracket in front of the end of a start tag belongs to the tag.
-/
theorem Reads.exists_lastBracket {tag : Tag} (h : r.Reads t after) (hr : r.IsIn [] text)
    (htag : t.event = .start tag ∨ t.event = .empty tag) :
    ∃ before inner, text = before ++ '<' :: (inner ++ ['>']) ++ after.rest
      ∧ after.consumed = byteLength (before ++ '<' :: (inner ++ ['>']))
      ∧ after.position = after.consumed
      ∧ Builder.lastBracket? text after.position = some (byteLength before) := by
  obtain ⟨before, htext, hconsumed⟩ := hr
  obtain ⟨content, hcontent⟩ : ∃ content, t.source = '<' :: content ++ ['>'] := by
    cases htag with
    | inl htag => exact ⟨tag.content, h.wellFormed.start tag htag⟩
    | inr htag => exact ⟨tag.content ++ ['/'], by simp [h.wellFormed.empty tag htag]⟩
  have hopening : '<' ∈ '<' :: content := List.mem_cons_self
  obtain ⟨front, inner, hlast, hinner⟩ := exists_last_of_mem hopening
  have hback : '<' ∉ inner ++ ['>'] := by
    simp [hinner]
  have hsplit : before ++ t.source = before ++ front ++ '<' :: (inner ++ ['>']) := by
    rw [hcontent, hlast]
    simp
  have hafter : after.consumed = byteLength (before ++ front ++ '<' :: (inner ++ ['>'])) := by
    rw [h.consumed, hconsumed, ← byteLength_append, hsplit]
  have hposition : after.position = after.consumed := by
    rw [h.consumed]
    apply h.position
    cases htag with
    | inl htag =>
      rw [htag]
      rfl
    | inr htag =>
      rw [htag]
      rfl
  rw [List.nil_append, h.rest, ← List.append_assoc, hsplit] at htext
  refine ⟨before ++ front, inner, htext, hafter, hposition, ?_⟩
  rw [hposition, hafter, htext]
  exact Builder.lastBracket?_append _ _ _ hback

end Reader

namespace Builder

/--
Whether what a builder captures begins at an opening angle bracket of a text, in front of a reader that has
counted every byte.
-/
structure Tracks (text : List Char) (r : Reader) (b : Builder) : Prop where
  isIn : r.IsIn [] text
  capture : ∀ c, b.capture = some c → ∃ before piece, text = before ++ '<' :: piece ++ r.rest
    ∧ c.start = byteLength before ∧ r.consumed = byteLength (before ++ '<' :: piece)

variable {text : List Char} {limit fresh : Nat} {r after : Reader} {b b' : Builder} {t : Token}

theorem tracks_of_capture (hr : r.IsIn [] text) (hcapture : b.capture = none) : Tracks text r b := by
  refine ⟨hr, ?_⟩
  intro c hc
  rw [hcapture] at hc
  cases hc

namespace Tracks

/--
Whatever is read while something is captured belongs to it.
-/
theorem isPiece (h : Tracks text r b) {c : Capture} (hcapture : b.capture = some c)
    (hr : r.Reads t after) :
    ∃ before piece, text = before ++ '<' :: piece ++ after.rest ∧ c.start = byteLength before
      ∧ after.consumed = byteLength (before ++ '<' :: piece) := by
  obtain ⟨before, piece, htext, hstart, hconsumed⟩ := h.capture c hcapture
  refine ⟨before, piece ++ t.source, ?_, hstart, ?_⟩
  . rw [htext, hr.rest]
    simp
  . rw [hr.consumed, hconsumed]
    simp only [byteLength_append, byteLength_cons]
    omega

/--
An element that is captured can be cut out of the text when its end tag has been read.
-/
theorem isPiece_close (h : Tracks text r b) {c : Capture} {name : String}
    (hcapture : b.capture = some c) (hr : r.Reads t after) (ht : t.event = .close name) :
    IsPiece text c.start after.position
      ∧ (IsBehindBracket text after.position
        ∨ after.rest = [] ∧ after.position = byteLength text) := by
  have hnotText : t.event.isText = false := by
    rw [ht]
    rfl
  have hposition : after.position = after.consumed := by
    rw [hr.position hnotText, hr.consumed]
  obtain ⟨before, piece, htext, hstart, hconsumed⟩ := h.isPiece hcapture hr
  refine ⟨⟨before, piece, after.rest, htext, hstart, hposition.trans hconsumed⟩, ?_⟩
  cases hr.source_ending hnotText with
  | inl hsource =>
    left
    obtain ⟨front, hsource⟩ := hsource
    obtain ⟨whole, hwhole, hcount⟩ := h.isIn
    refine ⟨whole ++ front, after.rest, ?_, ?_⟩
    . rw [hwhole, hr.rest, hsource]
      simp
    . rw [hposition, hr.consumed, hcount, hsource]
      simp only [byteLength_append]
      omega
  | inr hend =>
    right
    refine ⟨hend, ?_⟩
    rw [hposition, hconsumed, htext, hend, List.append_nil]

end Tracks

theorem exists_offerMarkup {start stop : Nat} (h : IsPiece text start stop) (b : Builder) :
    ∃ b', b.offerMarkup text start stop = .ok b' ∧ b'.capture = b.capture := by
  obtain ⟨markup, hmarkup⟩ := h.exists_slice
  exact ⟨_, offerMarkup_eq_ok.mpr ⟨_, hmarkup, rfl⟩, capture_offer _ _⟩

theorem exists_beginCapture {tag : Tag} (isEmpty : Bool) (hr : r.Reads t after)
    (hin : r.IsIn [] text) (htag : t.event = .start tag ∨ t.event = .empty tag)
    (hcapture : b.capture = none) :
    ∃ b', b.beginCapture text after.position tag isEmpty = .ok b' ∧ Tracks text after b' := by
  obtain ⟨before, inner, htext, hconsumed, hposition, hbracket⟩ := hr.exists_lastBracket hin htag
  have hafter := hr.isIn hin
  unfold beginCapture
  rw [hbracket]
  cases isEmpty with
  | true =>
    have hpiece : IsPiece text (byteLength before) after.position :=
      ⟨before, inner ++ ['>'], after.rest, htext, rfl, hposition.trans hconsumed⟩
    obtain ⟨b', hb', hsame⟩ := exists_offerMarkup hpiece b
    exact ⟨b', hb', tracks_of_capture hafter (hsame.trans hcapture)⟩
  | false =>
    refine ⟨_, rfl, hafter, ?_⟩
    rintro c ⟨⟩
    exact ⟨before, inner ++ ['>'], htext, rfl, hconsumed⟩

/--
Whether the outcome of a step is not that markup is cut inside of a character, and a builder that comes out
of it is in order.
-/
def IsTracked (text : List Char) (after : Reader) (outcome : Except ParseError Builder) : Prop :=
  (∀ b, outcome = .ok b → Tracks text after b) ∧ outcome ≠ .error .splitCharacter

theorem IsTracked.ok (h : Tracks text after b) : IsTracked text after (.ok b) := by
  refine ⟨?_, by simp⟩
  rintro _ ⟨⟩
  exact h

theorem IsTracked.error {e : ParseError} (h : e ≠ .splitCharacter) :
    IsTracked text after (.error e) := by
  refine ⟨?_, by simpa using h⟩
  rintro b ⟨⟩

theorem isTracked_enter {tag : Tag} {isEmpty : Bool} (hr : r.Reads t after) (hin : r.IsIn [] text)
    (htag : t.event = .start tag ∨ t.event = .empty tag) (hcapture : b.capture = none) :
    IsTracked text after (b.enter text limit after.position tag isEmpty) := by
  have hafter := hr.isIn hin
  obtain ⟨captured, hbegin, htracks⟩ := exists_beginCapture isEmpty hr hin htag hcapture
  constructor
  . intro b' h
    obtain ⟨_, _, h⟩ := enter_eq_ok.mp h
    split at h
    . obtain ⟨e, _, rfl⟩ := h
      apply tracks_of_capture hafter
      split
      . exact (capture_close (b.opened e)).trans hcapture
      . exact hcapture
    . rw [hbegin] at h
      cases h.2
      exact htracks
  . unfold enter
    split
    . simp
    . split
      . simp
      . split
        . split
          . simp
          . simp [hbegin]
        . split <;> simp

theorem Tracks.exists_continueCapture {c : Capture} (h : Tracks text r b) (hr : r.Reads t after)
    (hcapture : b.capture = some c) :
    ∃ b', b.continueCapture text after.position c t.event = .ok b' ∧ Tracks text after b' := by
  have hafter := hr.isIn h.isIn
  have hpiece := h.isPiece hcapture hr
  have hsame (c' : Capture) (hstart : c'.start = c.start) {b' : Builder}
      (hb' : b'.capture = some c') : Tracks text after b' := by
    refine ⟨hafter, ?_⟩
    intro c'' hc''
    rw [hb'] at hc''
    cases hc''
    rw [hstart]
    exact hpiece
  unfold continueCapture
  cases he : t.event with
  | text | cdata | empty | aside => exact ⟨b, rfl, hsame c rfl hcapture⟩
  | start tag =>
    dsimp only
    split
    . exact ⟨_, rfl, hsame { c with depth := c.depth + 1 } rfl rfl⟩
    . exact ⟨b, rfl, hsame c rfl hcapture⟩
  | close name =>
    dsimp only
    split
    . split
      . obtain ⟨b', hb', hnone⟩ :=
          exists_offerMarkup (h.isPiece_close hcapture hr he).1 { b with capture := none }
        exact ⟨b', hb', tracks_of_capture hafter hnone⟩
      . exact ⟨_, rfl, hsame { c with depth := c.depth - 1 } rfl rfl⟩
    . exact ⟨b, rfl, hsame c rfl hcapture⟩

theorem Tracks.step (h : Tracks text r b) (hr : r.Reads t after) :
    IsTracked text after (b.step text limit (t.event, after)) := by
  have hafter := hr.isIn h.isIn
  cases hcapture : b.capture with
  | some c =>
    obtain ⟨b', hb', htracks⟩ := h.exists_continueCapture hr hcapture
    rw [step_capture hcapture, hb']
    exact .ok htracks
  | none =>
    have hleaf (content : List Char) : IsTracked text after (.ok (b.pushText content)) :=
      .ok (tracks_of_capture hafter ((capture_pushText b content).trans hcapture))
    cases he : t.event with
    | start tag =>
      rw [step_start hcapture]
      exact isTracked_enter hr h.isIn (Or.inl he) hcapture
    | empty tag =>
      rw [step_empty hcapture]
      exact isTracked_enter hr h.isIn (Or.inr he) hcapture
    | close name =>
      rw [step_close hcapture]
      exact .ok (tracks_of_capture hafter ((capture_close b).trans hcapture))
    | aside =>
      unfold Builder.step
      rw [hcapture]
      exact .ok (tracks_of_capture hafter hcapture)
    | cdata content =>
      unfold Builder.step
      rw [hcapture]
      exact hleaf content
    | text raw =>
      unfold Builder.step
      rw [hcapture]
      dsimp only
      split
      . exact .error (by simp)
      . exact hleaf _

theorem Tracks.steps {events rest : List (Event × Reader)} (h : Tracks text r b)
    (hevents : r.transcript.events = events ++ rest) :
    IsTracked text (r.past events) (events.foldlM (Builder.step text limit) b) := by
  induction events generalizing r b with
  | nil => exact .ok h
  | cons event events ih =>
    obtain ⟨e, after⟩ := event
    obtain ⟨t, rfl, hreads, hrest⟩ := Reader.reads_of_events hevents
    have htracked : IsTracked text after (b.step text limit (t.event, after)) := h.step hreads
    obtain ⟨hok, herror⟩ := htracked
    rw [List.foldlM_cons]
    cases hstep : b.step text limit (t.event, after) with
    | error e =>
      rw [hstep] at herror
      exact .error (by simpa using herror)
    | ok b' => exact ih (hok b' hstep) hrest

theorem tracks_start (hmark : byteOrderMark text = []) (fresh : Nat) :
    Tracks text (Reader.start text) (start fresh) := by
  have hin := isIn_start text
  rw [hmark] at hin
  exact tracks_of_capture hin rfl

theorem finish_ne_splitCharacter (b : Builder) (e : Ending) : b.finish e ≠ .error .splitCharacter := by
  unfold finish
  split
  . simp
  . split
    . simp
    . split
      . split <;> simp
      . simp

end Builder

/--
In a text that does not begin with a byte order mark, whatever is captured can be cut out of it. A start tag
ends just behind a closing bracket, and the opening bracket that is looked for backwards from there is found.
An end tag in captured markup ends just behind a closing bracket too, or at the end of the text if it has
none. So it never happens that markup would be cut inside of a character.
-/
theorem captures_in_range {text : String} (hmark : byteOrderMark text.toList = []) (limit fresh : Nat) :
    (∀ e after tag, (e, after) ∈ (Reader.start text.toList).transcript.events →
      e = .start tag ∨ e = .empty tag →
        IsBehindBracket text.toList after.position
          ∧ ∃ start, Builder.lastBracket? text.toList after.position = some start
            ∧ IsPiece text.toList start after.position ∧ start ≤ after.position
            ∧ ∃ markup, sliceBytes? start after.position text.toList = some ('<' :: markup))
      ∧ (∀ before name after rest b c,
        (Reader.start text.toList).transcript.events = before ++ (.close name, after) :: rest →
        before.foldlM (Builder.step text.toList limit) (.start fresh) = .ok b → b.capture = some c →
          IsPiece text.toList c.start after.position ∧ c.start ≤ after.position
            ∧ (∃ markup, sliceBytes? c.start after.position text.toList = some ('<' :: markup))
            ∧ (IsBehindBracket text.toList after.position
              ∨ after.rest = [] ∧ after.position = byteLength text.toList))
      ∧ parseDocument limit fresh text ≠ .error .splitCharacter := by
  have hstart := Builder.tracks_start hmark fresh
  refine ⟨?_, ?_, ?_⟩
  . intro e after tag hmem htag
    obtain ⟨before, rest, hevents⟩ := List.append_of_mem hmem
    obtain ⟨⟨ts, hts⟩, hrest⟩ := Reader.readsAll_past hevents
    obtain ⟨t, rfl, hreads, _⟩ := Reader.reads_of_events hrest
    obtain ⟨front, inner, htext, hconsumed, hposition, hbracket⟩ :=
      hreads.exists_lastBracket (hts.isIn hstart.isIn) htag
    have hpiece : IsPiece text.toList (byteLength front) after.position :=
      ⟨front, inner ++ ['>'], after.rest, htext, rfl, hposition.trans hconsumed⟩
    refine ⟨⟨front ++ '<' :: inner, after.rest, ?_, ?_⟩, _, hbracket, hpiece, hpiece.le,
      hpiece.exists_slice⟩
    . rw [htext]
      simp
    . rw [hposition, hconsumed]
      simp
  . intro before name after rest b c hevents hrun hcapture
    obtain ⟨_, hrest⟩ := Reader.readsAll_past hevents
    have htracks := (hstart.steps hevents).1 b hrun
    obtain ⟨t, hclose, hreads, _⟩ := Reader.reads_of_events hrest
    obtain ⟨hpiece, hend⟩ := htracks.isPiece_close hcapture hreads hclose
    exact ⟨hpiece, hpiece.le, hpiece.exists_slice, hend⟩
  . let events := (Reader.start text.toList).transcript.events
    have hsteps : Builder.IsTracked text.toList ((Reader.start text.toList).past events)
        (events.foldlM (Builder.step text.toList limit) (.start fresh)) :=
      hstart.steps (List.append_nil _).symm
    cases hrun : events.foldlM (Builder.step text.toList limit) (.start fresh) with
    | error e =>
      rw [Builder.parseDocument_of_error hrun]
      have hne := hsteps.2
      rw [hrun] at hne
      simpa using hne
    | ok b =>
      rw [Builder.parseDocument_of_steps hrun]
      exact b.finish_ne_splitCharacter _

/--
A captured element with characters of several bytes, and with an angle bracket in the value of an attribute.
-/
theorem captures_in_range_multibyte :
    byteOrderMark "<Folder>é<x a='<ü'>€</x></Folder>".toList = []
      ∧ (∃ before name after rest b c,
        (Reader.start "<Folder>é<x a='<ü'>€</x></Folder>".toList).transcript.events
          = before ++ (.close name, after) :: rest
        ∧ before.foldlM (Builder.step "<Folder>é<x a='<ü'>€</x></Folder>".toList 9) (.start 0) = .ok b
        ∧ b.capture = some c ∧ c.start = 16
        ∧ ∃ markup, sliceBytes? 16 after.position "<Folder>é<x a='<ü'>€</x></Folder>".toList
          = some ('<' :: markup))
      ∧ parseDocument 9 0 "<Folder>é<x a='<ü'>€</x></Folder>" ≠ .error .splitCharacter := by
  let text := "<Folder>é<x a='<ü'>€</x></Folder>"
  let events := (Reader.start text.toList).transcript.events
  have hmark : byteOrderMark text.toList = [] := by
    decide
  obtain ⟨_, hclose, hparse⟩ := captures_in_range hmark 9 0
  have hcapture : ((events.take 4).foldlM (Builder.step text.toList 9) (.start 0)).toOption.map
      Builder.capture = some (some ⟨"x", 0, 16⟩) := by
    decide +kernel
  have hname : (events.drop 4).head?.map Prod.fst = some (.close "x") := by
    decide +kernel
  obtain ⟨b, hrun, hcapture⟩ := exists_of_toOption_map hcapture
  obtain ⟨⟨e, after⟩, hhead, rfl⟩ := Option.map_eq_some_iff.mp hname
  obtain ⟨rest, hrest⟩ := List.head?_eq_some_iff.mp hhead
  have hevents : events = events.take 4 ++ (.close "x", after) :: rest := by
    rw [← hrest, List.take_append_drop]
  obtain ⟨_, _, hmarkup, _⟩ := hclose (events.take 4) "x" after rest b _ hevents hrun hcapture
  exact ⟨hmark, ⟨events.take 4, "x", after, rest, b, _, hevents, hrun, hcapture, rfl, hmarkup⟩, hparse⟩

theorem not_isBehindBracket_end {text : List Char} (h : text.getLast? ≠ some '>') :
    ¬ IsBehindBracket text (byteLength text) := by
  rintro ⟨before, after, rfl, hposition⟩
  have hafter : after = [] := by
    by_contra hne
    have := byteLength_pos hne
    simp only [byteLength_append, byteLength_cons, byteLength_nil] at hposition
    omega
  rw [hafter] at h
  simp at h

/--
The end tag of a captured element without its closing bracket: the reader is behind the element, but not
behind a closing bracket.
-/
theorem capture_ends_without_bracket :
    byteOrderMark "<Folder><x></x".toList = []
      ∧ ∃ before after b c,
        (Reader.start "<Folder><x></x".toList).transcript.events = before ++ [(.close "x", after)]
          ∧ before.foldlM (Builder.step "<Folder><x></x".toList 100) (.start 0) = .ok b
          ∧ b.capture = some c ∧ c.name = "x" ∧ c.depth = 0
          ∧ ¬ IsBehindBracket "<Folder><x></x".toList after.position := by
  let text := "<Folder><x></x"
  let events := (Reader.start text.toList).transcript.events
  have hcapture : ((events.take 2).foldlM (Builder.step text.toList 100) (.start 0)).toOption.map
      Builder.capture = some (some ⟨"x", 0, 8⟩) := by
    decide +kernel
  have hlast : (events.drop 2).map (fun event => (event.1, event.2.position))
      = [(.close "x", byteLength text.toList)] := by
    decide +kernel
  obtain ⟨b, hrun, hcapture⟩ := exists_of_toOption_map hcapture
  obtain ⟨⟨e, after⟩, hdrop, heq⟩ := List.map_eq_singleton_iff.mp hlast
  simp only [Prod.mk.injEq] at heq
  obtain ⟨rfl, hposition⟩ := heq
  have hmark : byteOrderMark text.toList = [] := by
    decide
  have hevents : events = events.take 2 ++ [(.close "x", after)] := by
    rw [← hdrop, List.take_append_drop]
  refine ⟨hmark, events.take 2, after, b, _, hevents, hrun, hcapture, rfl, rfl, ?_⟩
  rw [hposition]
  exact not_isBehindBracket_end (by decide)

end KmlTree
