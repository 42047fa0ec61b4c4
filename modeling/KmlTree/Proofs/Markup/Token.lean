import KmlTree.Markup.Transcript
import KmlTree.Proofs.Text.Bytes
import KmlTree.Proofs.Text.Scan
import Mathlib.Data.List.Basic
import Mathlib.Data.List.TakeWhile

/-!
This module contains the tokens that a reader cuts a text into: every event together with the markup
that it was read from. What an event is depends only on that markup, so that a token can be read again
wherever its markup stands.
-/

namespace KmlTree

theorem utf8Size_bracket : '<'.utf8Size = 1 := by
  decide

theorem utf8Size_closingBracket : '>'.utf8Size = 1 := by
  decide

theorem tagStep_stop (q : Option Char) (c : Char) (h : tagStep q c = none) : c = '>' := by
  unfold tagStep at h
  grind

theorem Declaration.step_stop (k : Declaration) (s : Nat × Nat) (c : Char) (h : k.step s c = none) :
    c = '>' := by
  obtain ⟨read, count⟩ := s
  unfold Declaration.step at h
  cases k <;> grind

namespace Event

/--
The names of the open tags after an event, if it may happen where the given ones are open.
-/
def openNames? (e : Event) (names : List String) : Option (List String) :=
  match e with
  | .start tag => some (tag.name :: names)
  | .close name =>
    match names with
    | [] => none
    | expected :: names => if name = expected then some names else none
  | _ => some names

theorem openNames?_close {name : String} {names names' : List String} :
    openNames? (.close name) names = some names' ↔ names = name :: names' := by
  cases names with
  | nil => simp [openNames?]
  | cons expected names =>
    simp only [openNames?, List.cons.injEq]
    split
    . next heq => simp [heq]
    . next hne => simp [Ne.symm hne]

def isText : Event → Bool
  | .text _ => true
  | _ => false

end Event

/--
Whether an event is neither text nor a tag.
-/
structure Event.IsPlain (e : Event) : Prop where
  openNames : ∀ names, e.openNames? names = some names
  isText : e.isText = false
  start : ∀ tag, e ≠ .start tag
  empty : ∀ tag, e ≠ .empty tag
  close : ∀ name, e ≠ .close name

theorem Declaration.event?_plain (k : Declaration) {content : List Char} {e : Event}
    (h : k.event? content = some e) : e.IsPlain := by
  have hcases : e = .aside ∨ ∃ s, e = .cdata s := by
    unfold Declaration.event? at h
    cases k with
    | comment => simp_all
    | cdata =>
      simp only [Option.some.injEq] at h
      exact Or.inr ⟨_, h.symm⟩
    | doctype =>
      dsimp only at h
      split at h <;> simp_all
  cases hcases with
  | inl haside =>
    subst haside
    exact ⟨fun _ => rfl, rfl, by simp, by simp, by simp⟩
  | inr hcdata =>
    obtain ⟨s, rfl⟩ := hcdata
    exact ⟨fun _ => rfl, rfl, by simp, by simp, by simp⟩

/--
An event and the markup that it was read from.
-/
structure Token where
  event : Event
  source : List Char

namespace Token

/--
What the markup of a token looks like.
-/
structure WellFormed (t : Token) : Prop where
  nonempty : t.source ≠ []
  text : ∀ raw, t.event = .text raw → t.source = raw ∧ '<' ∉ raw
  markup : t.event.isText = false → ∃ rest, t.source = '<' :: rest
  start : ∀ tag, t.event = .start tag → t.source = '<' :: tag.content ++ ['>']
  empty : ∀ tag, t.event = .empty tag → t.source = '<' :: tag.content ++ ['/', '>']
  close : ∀ name, t.event = .close name → ∃ rest, t.source = '<' :: '/' :: rest
  noSlash : ∀ tag rest, t.event = .start tag ∨ t.event = .empty tag → t.source ≠ '<' :: '/' :: rest

/--
Whether a token may stand in front of `rest`. Text has to go on up to an angle bracket.
-/
def EndsBefore (t : Token) (rest : List Char) : Prop :=
  t.event.isText = true → ∀ c ∈ rest.head?, c = '<'

theorem endsBefore_of_markup {t : Token} (h : t.event.isText = false) (rest : List Char) :
    t.EndsBefore rest := by
  intro htext
  rw [h] at htext
  cases htext

end Token

namespace Reader

def behind (r : Reader) (t : Token) (rest : List Char) (names : List String) : Reader :=
  ⟨rest, r.consumed + byteLength t.source, t.event.isText, names⟩

end Reader

/--
Whether a token is read wherever its markup stands.
-/
structure Token.Readable (t : Token) : Prop extends t.WellFormed where
  next : ∀ (r : Reader) (rest : List Char) (names : List String), r.rest = t.source ++ rest →
    t.EndsBefore rest → t.event.openNames? r.openNames = some names →
      r.next = .event t.event (r.behind t rest names)

namespace Reader

/--
What is known of an event that is read between angle brackets. `closing` is the closing one, which may
be missing at the end of the text.
-/
structure ReadsMarkup (r : Reader) (e : Event) (after : Reader) (content closing : List Char) :
    Prop where
  rest : r.rest = content ++ closing ++ after.rest
  consumed : after.consumed = r.consumed + byteLength (content ++ closing)
  afterText : after.afterText = false
  openNames : e.openNames? r.openNames = some after.openNames
  ending : closing = ['>'] ∨ closing = [] ∧ after.rest = []
  isText : e.isText = false
  start : ∀ tag, e = .start tag → content = tag.content ∧ closing = ['>']
  empty : ∀ tag, e = .empty tag → content = tag.content ++ ['/'] ∧ closing = ['>']
  close : ∀ name, e = .close name → ∃ rest, content = '/' :: rest
  noSlash : ∀ tag rest, e = .start tag ∨ e = .empty tag → content ++ closing ≠ '/' :: rest
  again : closing = ['>'] → ∀ (q : Reader) (rest : List Char) (names : List String),
    q.rest = content ++ '>' :: rest → e.openNames? q.openNames = some names →
      q.readMarkup = .event e ⟨rest, q.consumed + byteLength content + 1, false, names⟩

theorem readToBracket_eq (r : Reader) :
    ∃ content closing rest, r.rest = content ++ closing ++ rest
      ∧ (closing = ['>'] ∨ closing = [] ∧ rest = [])
      ∧ '>' ∉ content
      ∧ r.readToBracket
          = (content, ⟨rest, r.consumed + byteLength (content ++ closing), false, r.openNames⟩) := by
  have hcontent := notMem_takeWhile_bne '>' r.rest
  have hsplit := List.takeWhile_append_dropWhile (p := (· != '>')) (l := r.rest)
  cases hrest : r.rest.dropWhile (· != '>') with
  | nil =>
    rw [hrest] at hsplit
    refine ⟨r.rest.takeWhile (· != '>'), [], [], ?_, Or.inr ⟨rfl, rfl⟩, hcontent, ?_⟩
    . simpa using hsplit.symm
    . simp [readToBracket, advance, hrest]
  | cons c rest =>
    have hc : c = '>' := by
      have := List.head_dropWhile_not (· != '>') (l := r.rest) (by simp [hrest])
      simpa [hrest] using this
    subst hc
    rw [hrest] at hsplit
    refine ⟨r.rest.takeWhile (· != '>'), ['>'], rest, ?_, Or.inl rfl, hcontent, ?_⟩
    . simpa using hsplit.symm
    . simp [readToBracket, advance, hrest, Nat.add_assoc]
      decide

theorem readToBracket_append {q : Reader} {content rest : List Char} (h : '>' ∉ content)
    (hq : q.rest = content ++ '>' :: rest) :
    q.readToBracket
      = (content, ⟨rest, q.consumed + byteLength content + 1, false, q.openNames⟩) := by
  unfold readToBracket advance
  rw [hq]
  rw [takeWhile_stop rest (bne_of_notMem h) (by decide)]
  rw [dropWhile_stop rest (bne_of_notMem h) (by decide)]
  simp

theorem exists_cons_of_append {c : Char} {tail content rest : List Char} (rest' : List Char)
    (hc : c ≠ '>') (h : c :: tail = content ++ '>' :: rest) :
    ∃ content', content = c :: content' ∧ content ++ '>' :: rest' = c :: (content' ++ '>' :: rest') := by
  cases content with
  | nil =>
    simp only [List.nil_append, List.cons.injEq] at h
    exact absurd h.1 hc
  | cons d content =>
    simp only [List.cons_append, List.cons.injEq] at h
    obtain ⟨rfl, _⟩ := h
    exact ⟨content, rfl, rfl⟩

theorem readsMarkup_of_plain {r after : Reader} {e : Event} {content closing : List Char}
    (he : e.IsPlain) (hrest : r.rest = content ++ closing ++ after.rest)
    (hafter : after
      = ⟨after.rest, r.consumed + byteLength (content ++ closing), false, r.openNames⟩)
    (hending : closing = ['>'] ∨ closing = [] ∧ after.rest = [])
    (hagain : closing = ['>'] → ∀ (q : Reader) (rest : List Char), q.rest = content ++ '>' :: rest →
      q.readMarkup = .event e ⟨rest, q.consumed + byteLength content + 1, false, q.openNames⟩) :
    ReadsMarkup r e after content closing where
  rest := hrest
  consumed := by rw [hafter]
  afterText := by rw [hafter]
  openNames := by
    rw [hafter]
    apply he.openNames
  ending := hending
  isText := he.isText
  start := by
    intro tag htag
    exact absurd htag (he.start tag)
  empty := by
    intro tag htag
    exact absurd htag (he.empty tag)
  close := by
    intro name hname
    exact absurd hname (he.close name)
  noSlash := by
    intro tag rest htag
    cases htag with
    | inl htag => exact absurd htag (he.start tag)
    | inr htag => exact absurd htag (he.empty tag)
  again := by
    intro hclosing q rest names hq hnames
    rw [he.openNames] at hnames
    simp only [Option.some.injEq] at hnames
    subst hnames
    exact hagain hclosing q rest hq

theorem isPlain_aside : Event.IsPlain .aside :=
  ⟨fun _ => rfl, rfl, by simp, by simp, by simp⟩

theorem readDeclaration_eq {q : Reader} {c : Char} {tail content rest : List Char}
    {kind : Declaration} {e : Event} (hq : q.rest = '!' :: c :: tail)
    (hkind : Declaration.ofChar? c = some kind)
    (hscan : splitScan? kind.step (0, 0) q.rest = some (content, rest))
    (hopens : kind.opens content = true) (hevent : kind.event? content = some e) :
    q.readDeclaration = .event e (q.advance content 1 rest) := by
  rw [hq] at hscan
  unfold readDeclaration
  rw [hq]
  simp only [List.drop_succ_cons, List.drop_zero, hkind, hscan, hopens, hevent, if_true]

theorem readsMarkup_of_readDeclaration {r after : Reader} {e : Event} {tail : List Char}
    (hr : r.rest = '!' :: tail) (h : r.readDeclaration = .event e after) :
    ∃ content closing, ReadsMarkup r e after content closing := by
  unfold readDeclaration fail at h
  rw [hr] at h
  simp only [List.drop_succ_cons, List.drop_zero] at h
  cases tail with
  | nil => simp at h
  | cons c tail =>
    dsimp only at h
    cases hkind : Declaration.ofChar? c with
    | none => simp [hkind] at h
    | some kind =>
      rw [hkind] at h
      dsimp only at h
      cases hscan : splitScan? kind.step (0, 0) ('!' :: c :: tail) with
      | none => simp [hscan] at h
      | some parts =>
        obtain ⟨content, rest⟩ := parts
        rw [hscan] at h
        dsimp only at h
        obtain ⟨htext, hagain⟩ := splitScan?_local (Declaration.step_stop kind) hscan
        split at h
        . next hopens =>
          cases hevent : kind.event? content with
          | none => simp [hevent] at h
          | some e' =>
            rw [hevent] at h
            simp only [Reading.event.injEq] at h
            obtain ⟨rfl, rfl⟩ := h
            -- the content has the two characters that decide what is read
            obtain ⟨content, rfl⟩ : ∃ content', content = '!' :: c :: content' := by
              match content, htext with
              | [], htext => simp at htext
              | [_], htext =>
                simp only [List.cons_append, List.nil_append, List.cons.injEq] at htext
                obtain ⟨_, rfl, _⟩ := htext
                simp [Declaration.ofChar?] at hkind
              | _ :: _ :: content, htext =>
                simp only [List.cons_append, List.cons.injEq] at htext
                obtain ⟨rfl, rfl, _⟩ := htext
                exact ⟨content, rfl⟩
            refine ⟨'!' :: c :: content, ['>'], readsMarkup_of_plain (kind.event?_plain hevent)
              ?_ ?_ (Or.inl rfl) ?_⟩
            . rw [hr, htext]
              simp [advance]
            . simp [advance, utf8Size_closingBracket, Nat.add_assoc]
            . intro _ q rest' hq
              have hdeclaration : q.readMarkup = q.readDeclaration := by
                simp [readMarkup, hq]
              rw [hdeclaration]
              exact readDeclaration_eq hq hkind (by rw [hq]; exact hagain rest') hopens hevent
        . simp at h

theorem readClose_eq {q : Reader} {content rest : List Char} {name : String} {names : List String}
    (hcontent : '>' ∉ content) (hq : q.rest = content ++ '>' :: rest)
    (hnames : q.openNames = name :: names)
    (hname : String.ofList (closingName (content.drop 1)) = name) :
    q.readClose = .event (.close name) ⟨rest, q.consumed + byteLength content + 1, false, names⟩ := by
  unfold readClose
  rw [readToBracket_append hcontent hq]
  rw [hnames]
  dsimp only
  rw [if_pos hname]

theorem readsMarkup_of_readClose {r after : Reader} {e : Event} {tail : List Char}
    (hr : r.rest = '/' :: tail) (h : r.readClose = .event e after) :
    ∃ content closing, ReadsMarkup r e after content closing := by
  obtain ⟨content, closing, rest, hrest, hclosing, hcontent, hread⟩ := readToBracket_eq r
  unfold readClose fail at h
  rw [hread] at h
  dsimp only at h
  cases hnames : r.openNames with
  | nil => simp [hnames] at h
  | cons expected names =>
    rw [hnames] at h
    dsimp only at h
    split at h
    . next hfound =>
      simp only [Reading.event.injEq] at h
      obtain ⟨rfl, rfl⟩ := h
      have hslash : ∃ content', content = '/' :: content' := by
        cases content with
        | nil =>
          cases hclosing with
          | inl hclosing => simp [hr, hclosing] at hrest
          | inr hclosing => simp [hr, hclosing] at hrest
        | cons c content =>
          rw [hr] at hrest
          simp only [List.cons_append, List.cons.injEq] at hrest
          exact ⟨content, by rw [← hrest.1]⟩
      refine ⟨content, closing, hrest, rfl, rfl, ?_, hclosing, rfl, ?_, ?_, ?_, ?_, ?_⟩
      . simp [Event.openNames?, hnames]
      . intro tag htag
        cases htag
      . intro tag htag
        cases htag
      . intro name _
        exact hslash
      . intro tag rest' htag
        cases htag with
        | inl htag => cases htag
        | inr htag => cases htag
      . rintro rfl q rest' names' hq hnames'
        obtain ⟨content', rfl⟩ := hslash
        rw [Event.openNames?_close] at hnames'
        have hclose : q.readMarkup = q.readClose := by
          simp [readMarkup, hq]
        rw [hclose]
        exact readClose_eq hcontent hq hnames' hfound
    . simp at h

theorem readsMarkup_of_readInstruction {r after : Reader} {e : Event} {tail : List Char}
    (hr : r.rest = '?' :: tail) (h : r.readInstruction = .event e after) :
    ∃ content closing, ReadsMarkup r e after content closing := by
  obtain ⟨content, closing, rest, hrest, hclosing, hcontent, hread⟩ := readToBracket_eq r
  unfold readInstruction fail at h
  rw [hread] at h
  dsimp only at h
  split at h
  . next hshape =>
    simp only [Reading.event.injEq] at h
    obtain ⟨rfl, rfl⟩ := h
    refine ⟨content, closing, readsMarkup_of_plain isPlain_aside hrest rfl hclosing ?_⟩
    rintro rfl q rest' hq
    have hq' : ∃ tail', q.rest = '?' :: tail' := by
      rw [hr] at hrest
      obtain ⟨content', _, hcons⟩ := exists_cons_of_append (c := '?') rest' (by decide)
        (by simpa using hrest)
      exact ⟨_, hq.trans hcons⟩
    obtain ⟨tail', htail'⟩ := hq'
    have hinstruction : q.readMarkup = q.readInstruction := by
      simp [readMarkup, htail']
    rw [hinstruction]
    unfold readInstruction
    rw [readToBracket_append hcontent hq]
    simp [hshape]
  . simp at h

theorem readMarkup_eq_readTag {q : Reader} {c : Char} {tail : List Char} (hq : q.rest = c :: tail)
    (hbang : c ≠ '!') (hslash : c ≠ '/') (hmark : c ≠ '?') : q.readMarkup = q.readTag := by
  unfold readMarkup
  split
  . next hnil => simp [hnil] at hq
  . next hcons =>
    simp only [hcons, List.cons.injEq] at hq
    exact absurd hq.1.symm hbang
  . next hcons =>
    simp only [hcons, List.cons.injEq] at hq
    exact absurd hq.1.symm hslash
  . next hcons =>
    simp only [hcons, List.cons.injEq] at hq
    exact absurd hq.1.symm hmark
  . rfl

def tagEvent (content : List Char) : Event :=
  if content.getLast? = some '/' then .empty ⟨content.dropLast⟩ else .start ⟨content⟩

theorem tagEvent_eq_start {content : List Char} {tag : Tag} (h : tagEvent content = .start tag) :
    content = tag.content := by
  unfold tagEvent at h
  split at h
  . cases h
  . cases h
    rfl

theorem tagEvent_eq_empty {content : List Char} {tag : Tag} (h : tagEvent content = .empty tag) :
    content = tag.content ++ ['/'] := by
  unfold tagEvent at h
  split at h
  . next hlast =>
    cases h
    exact (List.dropLast_append_getLast? '/' (by simpa using hlast)).symm
  . cases h

theorem tagEvent_isText (content : List Char) : (tagEvent content).isText = false := by
  unfold tagEvent
  split <;> rfl

theorem tagEvent_ne_close (content : List Char) (name : String) : tagEvent content ≠ .close name := by
  unfold tagEvent
  split <;> simp

theorem readTag_eq {q : Reader} {content rest : List Char}
    (h : splitScan? tagStep none q.rest = some (content, rest)) :
    ∃ names, (tagEvent content).openNames? q.openNames = some names
      ∧ q.readTag
        = .event (tagEvent content) ⟨rest, q.consumed + byteLength content + 1, false, names⟩ := by
  unfold readTag tagEvent
  rw [h]
  dsimp only
  split
  . exact ⟨_, rfl, rfl⟩
  . exact ⟨_, rfl, rfl⟩

-- An empty content is followed by the bracket, which is none of the three characters either.
theorem readMarkup_of_content {q : Reader} {c : Char} {tail content rest rest' : List Char}
    (hbang : c ≠ '!') (hslash : c ≠ '/') (hmark : c ≠ '?') (h : c :: tail = content ++ '>' :: rest)
    (hq : q.rest = content ++ '>' :: rest') : q.readMarkup = q.readTag := by
  cases content with
  | nil => exact readMarkup_eq_readTag hq (by decide) (by decide) (by decide)
  | cons d content =>
    simp only [List.cons_append, List.cons.injEq] at h
    obtain ⟨rfl, _⟩ := h
    exact readMarkup_eq_readTag hq hbang hslash hmark

theorem readsMarkup_of_readTag {r after : Reader} {e : Event} {c : Char} {tail : List Char}
    (hr : r.rest = c :: tail) (hbang : c ≠ '!') (hslash : c ≠ '/') (hmark : c ≠ '?')
    (h : r.readTag = .event e after) : ∃ content closing, ReadsMarkup r e after content closing := by
  cases hscan : splitScan? tagStep none r.rest with
  | none => simp [readTag, fail, hscan] at h
  | some parts =>
    obtain ⟨content, rest⟩ := parts
    obtain ⟨htext, hagain⟩ := splitScan?_local tagStep_stop hscan
    obtain ⟨names, hnames, hread⟩ := readTag_eq hscan
    rw [hread] at h
    simp only [Reading.event.injEq] at h
    obtain ⟨rfl, rfl⟩ := h
    refine ⟨content, ['>'], ?_, ?_, rfl, hnames, Or.inl rfl, tagEvent_isText content, ?_, ?_, ?_,
      ?_, ?_⟩
    . simp [htext]
    . simp [utf8Size_closingBracket, Nat.add_assoc]
    . intro tag htag
      exact ⟨tagEvent_eq_start htag, rfl⟩
    . intro tag htag
      exact ⟨tagEvent_eq_empty htag, rfl⟩
    . intro name hname
      exact absurd hname (tagEvent_ne_close content name)
    . intro tag rest' _ heq
      rw [hr] at htext
      cases content with
      | nil => simp at heq
      | cons d content =>
        simp only [List.cons_append, List.cons.injEq] at heq htext
        exact hslash (htext.1.trans heq.1)
    . intro _ q rest' names' hq hnames'
      rw [readMarkup_of_content hbang hslash hmark (hr.symm.trans htext) hq]
      obtain ⟨names'', hnames'', hread'⟩ := readTag_eq (by rw [hq]; exact hagain rest')
      rw [hnames'] at hnames''
      simp only [Option.some.injEq] at hnames''
      rw [hread', hnames'']

theorem readsMarkup_of_readMarkup {r after : Reader} {e : Event} (h : r.readMarkup = .event e after) :
    ∃ content closing, ReadsMarkup r e after content closing := by
  unfold readMarkup at h
  split at h
  . simp at h
  . next hr => exact readsMarkup_of_readDeclaration hr h
  . next hr => exact readsMarkup_of_readClose hr h
  . next hr => exact readsMarkup_of_readInstruction hr h
  . next hbang hslash hmark hr =>
    apply readsMarkup_of_readTag hr _ _ _ h
    . rintro rfl
      exact hbang rfl
    . rintro rfl
      exact hslash rfl
    . rintro rfl
      exact hmark rfl

/--
Whether a reader reads a token and is at another place after it.
-/
structure Reads (r : Reader) (t : Token) (after : Reader) : Prop where
  next : r.next = .event t.event after
  rest : r.rest = t.source ++ after.rest
  openNames : t.event.openNames? r.openNames = some after.openNames
  behind : after = r.behind t after.rest after.openNames
  endsBefore : t.EndsBefore after.rest
  wellFormed : t.WellFormed
  readable : after.rest ≠ [] → t.Readable

theorem next_markup {r : Reader} {rest : List Char} (h : r.rest = '<' :: rest) :
    r.next = Reader.readMarkup { r with rest := rest, consumed := r.consumed + 1 } := by
  unfold next
  split
  . next hnil => simp [hnil] at h
  . next hcons =>
    rw [hcons] at h
    simp only [List.cons.injEq, true_and] at h
    rw [h]
  . next hne hcons =>
    rw [hcons] at h
    simp only [List.cons.injEq] at h
    exact absurd h.1 hne

theorem next_text {r : Reader} {c : Char} {rest : List Char} (h : r.rest = c :: rest)
    (hc : c ≠ '<') : r.next = r.readText := by
  unfold next
  rw [h]
  split
  . next hnil => simp at hnil
  . next hcons =>
    simp only [List.cons.injEq] at hcons
    exact absurd hcons.1 hc
  . rfl

theorem readable_text {raw : List Char} (hne : raw ≠ []) (hraw : '<' ∉ raw) :
    Token.Readable ⟨.text raw, raw⟩ where
  nonempty := hne
  text := by
    rintro raw' heq
    simp only [Event.text.injEq] at heq
    subst heq
    exact ⟨rfl, hraw⟩
  markup := by simp [Event.isText]
  start := by simp
  empty := by simp
  close := by simp
  noSlash := by simp
  next := by
    intro r rest names hr hends hnames
    have hall := bne_of_notMem hraw
    have hrest : rest.takeWhile (· != '<') = [] ∧ rest.dropWhile (· != '<') = rest := by
      cases rest with
      | nil => simp
      | cons c rest =>
        obtain rfl := hends rfl c rfl
        simp
    simp only [Event.openNames?, Option.some.injEq] at hnames
    cases raw with
    | nil => exact absurd rfl hne
    | cons c raw =>
      rw [next_text hr (by rintro rfl; simp at hraw)]
      unfold readText
      rw [hr]
      dsimp only
      rw [List.takeWhile_append_of_pos hall, List.dropWhile_append_of_pos hall]
      rw [hrest.1, hrest.2]
      simp [advance, Reader.behind, Event.isText, hnames]

theorem ReadsMarkup.wellFormed {r after : Reader} {e : Event} {content closing : List Char}
    (h : ReadsMarkup r e after content closing) :
    Token.WellFormed ⟨e, '<' :: content ++ closing⟩ where
  nonempty := by simp
  text := by
    rintro raw rfl
    have := h.isText
    simp [Event.isText] at this
  markup := by
    intro _
    exact ⟨content ++ closing, rfl⟩
  start := by
    intro tag htag
    obtain ⟨rfl, rfl⟩ := h.start tag htag
    rfl
  empty := by
    intro tag htag
    obtain ⟨rfl, rfl⟩ := h.empty tag htag
    simp
  close := by
    intro name hname
    obtain ⟨rest, rfl⟩ := h.close name hname
    exact ⟨rest ++ closing, rfl⟩
  noSlash := by
    intro tag rest htag heq
    simp only [List.cons_append, List.cons.injEq, true_and] at heq
    exact h.noSlash tag rest htag heq

theorem ReadsMarkup.readable {r after : Reader} {e : Event} {content : List Char}
    (h : ReadsMarkup r e after content ['>']) : Token.Readable ⟨e, '<' :: content ++ ['>']⟩ where
  toWellFormed := h.wellFormed
  next := by
    intro q rest names hq _ hnames
    have hq' : q.rest = '<' :: (content ++ '>' :: rest) := by simpa using hq
    let inside : Reader := { q with rest := content ++ '>' :: rest, consumed := q.consumed + 1 }
    have hread : inside.readMarkup = _ := h.again rfl inside rest names rfl hnames
    rw [next_markup hq']
    rw [hread]
    simp only [inside, behind, h.isText, Reading.event.injEq, Reader.mk.injEq, true_and, and_true,
      List.cons_append, byteLength_cons, byteLength_append, byteLength_nil, utf8Size_bracket,
      utf8Size_closingBracket]
    omega

theorem ReadsMarkup.reads {r after : Reader} {e : Event} {rest content closing : List Char}
    (hr : r.rest = '<' :: rest) (hnext : r.next = .event e after)
    (h : ReadsMarkup { r with rest := rest, consumed := r.consumed + 1 } e after content closing) :
    r.Reads ⟨e, '<' :: content ++ closing⟩ after where
  next := hnext
  rest := by
    rw [hr]
    simpa using h.rest
  openNames := h.openNames
  behind := by
    have hconsumed := h.consumed
    have hafter := h.afterText
    have htext := h.isText
    obtain ⟨afterRest, afterConsumed, afterText, afterNames⟩ := after
    dsimp only at hconsumed hafter
    simp only [Reader.behind, htext, hafter, Reader.mk.injEq, true_and, and_true, hconsumed,
      List.cons_append, byteLength_cons, utf8Size_bracket]
    omega
  endsBefore := Token.endsBefore_of_markup h.isText after.rest
  wellFormed := h.wellFormed
  readable := by
    intro hne
    cases h.ending with
    | inl hclosing =>
      subst hclosing
      exact h.readable
    | inr hend => exact absurd hend.2 hne

theorem reads_text {r after : Reader} {e : Event} {c : Char} {rest : List Char}
    (hr : r.rest = c :: rest) (hc : c ≠ '<') (h : r.next = .event e after) :
    ∃ raw, e = .text raw ∧ r.Reads ⟨.text raw, raw⟩ after := by
  have hnext := h
  rw [next_text hr hc] at h
  unfold readText at h
  simp only [Reading.event.injEq] at h
  obtain ⟨rfl, rfl⟩ := h
  have hne : r.rest.takeWhile (· != '<') ≠ [] := by
    rw [hr]
    simp [hc]
  have hraw := notMem_takeWhile_bne '<' r.rest
  have hends : ∀ c ∈ (r.rest.dropWhile (· != '<')).head?, c = '<' := by
    intro c hc
    have := List.head?_dropWhile_not (· != '<') r.rest
    simp_all
  refine ⟨_, rfl, hnext, ?_, rfl, ?_, ?_, (readable_text hne hraw).toWellFormed, ?_⟩
  . simp [advance]
  . simp [advance, behind, Event.isText]
  . intro _
    exact hends
  . intro _
    exact readable_text hne hraw

theorem exists_reads {r after : Reader} {e : Event} (h : r.next = .event e after) :
    ∃ t, t.event = e ∧ r.Reads t after := by
  cases hr : r.rest with
  | nil =>
    unfold next at h
    rw [hr] at h
    simp at h
  | cons c rest =>
    by_cases hc : c = '<'
    . subst hc
      have hmarkup := h
      rw [next_markup hr] at hmarkup
      obtain ⟨content, closing, hreads⟩ := readsMarkup_of_readMarkup hmarkup
      exact ⟨_, rfl, hreads.reads hr h⟩
    . obtain ⟨raw, rfl, hreads⟩ := reads_text hr hc h
      exact ⟨_, rfl, hreads⟩

end Reader

namespace Token

theorem Readable.reads {t : Token} (h : t.Readable) {r : Reader} {rest : List Char}
    {names : List String} (hr : r.rest = t.source ++ rest) (hends : t.EndsBefore rest)
    (hnames : t.event.openNames? r.openNames = some names) : r.Reads t (r.behind t rest names) where
  next := h.next r rest names hr hends hnames
  rest := hr
  openNames := hnames
  behind := rfl
  endsBefore := hends
  wellFormed := h.toWellFormed
  readable := by
    intro _
    exact h

end Token

namespace Reader

theorem start_of_head? {text : List Char} (h : text.head? ≠ some '\ufeff') :
    start text = ⟨text, 0, false, []⟩ := by
  unfold start
  split
  . next tail => exact absurd rfl h
  . rfl

theorem exists_reads_text {r : Reader} (h : ¬∀ c ∈ r.rest.head?, c = '<') :
    ∃ raw after, r.Reads ⟨.text raw, raw⟩ after := by
  obtain ⟨c, tail, hr, hc⟩ : ∃ c tail, r.rest = c :: tail ∧ c ≠ '<' := by
    cases hr : r.rest with
    | nil => simp [hr] at h
    | cons c tail => exact ⟨c, tail, rfl, by simpa [hr] using h⟩
  have hnext := next_text hr hc
  unfold readText at hnext
  obtain ⟨raw, _, hreads⟩ := reads_text hr hc hnext
  exact ⟨raw, _, hreads⟩

/--
Text in front of text is read together with it.
-/
theorem Reads.prepend_text {r after : Reader} {s raw rest : List Char}
    (h : Reads { r with rest := rest, consumed := r.consumed + byteLength s } ⟨.text raw, raw⟩ after)
    (hs : '<' ∉ s) (hr : r.rest = s ++ rest) : r.Reads ⟨.text (s ++ raw), s ++ raw⟩ after := by
  have hne : s ++ raw ≠ [] := by
    have hraw : raw ≠ [] := h.wellFormed.nonempty
    simp [hraw]
  have hbracket : '<' ∉ s ++ raw := by
    rw [List.mem_append, not_or]
    exact ⟨hs, (h.wellFormed.text raw rfl).2⟩
  have hrest : r.rest = (s ++ raw) ++ after.rest := by
    rw [hr, List.append_assoc]
    exact congrArg (s ++ ·) h.rest
  have hreads := (readable_text hne hbracket).reads hrest (h.endsBefore) h.openNames
  have hafter : r.behind ⟨.text (s ++ raw), s ++ raw⟩ after.rest after.openNames = after := by
    refine Eq.trans ?_ h.behind.symm
    unfold Reader.behind
    simp [Nat.add_assoc, Event.isText]
  rw [hafter] at hreads
  exact hreads

end Reader

end KmlTree
