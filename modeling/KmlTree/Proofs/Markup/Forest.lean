import KmlTree.Proofs.Markup.Token

/-!
This module contains the nesting of tokens. The tokens of a text that closes all of its tags are those of
exactly one forest (`Reader.tokens_forest`), and what is known of a text can be shown by induction on it.
-/

namespace KmlTree

namespace Reader

/--
Whether a reader reads tokens one after the other.
-/
inductive ReadsAll : Reader → List Token → Reader → Prop where
  | nil (r : Reader) : ReadsAll r [] r
  | cons {r mid after : Reader} {t : Token} {ts : List Token} (h : r.Reads t mid)
    (hs : ReadsAll mid ts after) : ReadsAll r (t :: ts) after

theorem readsAll_nil {r after : Reader} : r.ReadsAll [] after ↔ after = r := by
  constructor
  . intro h
    cases h
    rfl
  . rintro rfl
    exact .nil after

theorem readsAll_cons {r after : Reader} {t : Token} {ts : List Token} :
    r.ReadsAll (t :: ts) after ↔ ∃ mid, r.Reads t mid ∧ mid.ReadsAll ts after := by
  constructor
  . intro h
    cases h with
    | cons h hs => exact ⟨_, h, hs⟩
  . rintro ⟨mid, h, hs⟩
    exact .cons h hs

theorem readsAll_append {r after : Reader} {ts us : List Token} :
    r.ReadsAll (ts ++ us) after ↔ ∃ mid, r.ReadsAll ts mid ∧ mid.ReadsAll us after := by
  induction ts generalizing r with
  | nil => simp [readsAll_nil]
  | cons t ts ih =>
    simp only [List.cons_append, readsAll_cons, ih]
    constructor
    . rintro ⟨mid, h, mid', hs, hus⟩
      exact ⟨mid', ⟨mid, h, hs⟩, hus⟩
    . rintro ⟨mid', ⟨mid, h, hs⟩, hus⟩
      exact ⟨mid, h, mid', hs, hus⟩

theorem ReadsAll.rest {r after : Reader} {ts : List Token} (h : r.ReadsAll ts after) :
    r.rest = ts.flatMap Token.source ++ after.rest := by
  induction h with
  | nil => simp
  | cons h _ ih => rw [h.rest, ih, List.flatMap_cons, List.append_assoc]

theorem Reads.consumed {r after : Reader} {t : Token} (h : r.Reads t after) :
    after.consumed = r.consumed + byteLength t.source := by
  rw [h.behind]
  rfl

theorem ReadsAll.consumed {r after : Reader} {ts : List Token} (h : r.ReadsAll ts after) :
    after.consumed = r.consumed + byteLength (ts.flatMap Token.source) := by
  induction h with
  | nil => simp
  | cons h _ ih =>
    rw [ih, h.consumed, List.flatMap_cons, byteLength_append]
    omega

theorem Reads.position {r after : Reader} {t : Token} (h : r.Reads t after)
    (ht : t.event.isText = false) : after.position = r.consumed + byteLength t.source := by
  have htext : after.afterText = false := by
    rw [h.behind]
    exact ht
  unfold Reader.position
  rw [htext, h.consumed]
  rfl

theorem transcript_of_reads {r after : Reader} {t : Token} (h : r.Reads t after) :
    r.transcript
      = ⟨(t.event, after) :: after.transcript.events, after.transcript.ending⟩ := by
  have hnext := h.next
  rw [transcript]
  split
  . next hending =>
    rw [hending] at hnext
    cases hnext
  . next hevent =>
    rw [hevent] at hnext
    simp only [Reading.event.injEq] at hnext
    obtain ⟨rfl, rfl⟩ := hnext
    rfl

theorem transcript_of_ending {r : Reader} {e : Ending} (h : r.next = .ending e) :
    r.transcript = ⟨[], e⟩ := by
  rw [transcript]
  split
  . next hending =>
    rw [hending] at h
    simp only [Reading.ending.injEq] at h
    rw [h]
  . next hevent =>
    rw [hevent] at h
    cases h

/--
The tokens of events that are read one after the other, from a text on.
-/
def tokensFrom (rest : List Char) : List (Event × Reader) → List Token
  | [] => []
  | (e, after) :: events =>
    ⟨e, rest.take (rest.length - after.rest.length)⟩ :: tokensFrom after.rest events

def tokens (r : Reader) : List Token :=
  tokensFrom r.rest r.transcript.events

theorem tokens_of_reads {r after : Reader} {t : Token} (h : r.Reads t after) :
    r.tokens = t :: after.tokens := by
  have hsource : r.rest.take (r.rest.length - after.rest.length) = t.source := by
    rw [h.rest]
    simp
  unfold tokens
  rw [transcript_of_reads h]
  simp only [tokensFrom, hsource]

theorem tokens_of_ending {r : Reader} {e : Ending} (h : r.next = .ending e) : r.tokens = [] := by
  unfold tokens
  rw [transcript_of_ending h]
  rfl

theorem exists_readsAll (r : Reader) :
    ∃ last, r.ReadsAll r.tokens last ∧ last.next = .ending r.transcript.ending := by
  -- The recursion of the transcript ends since every event takes something off the text.
  induction r using Reader.transcript.induct with
  | case1 r e hending =>
    refine ⟨r, ?_, ?_⟩
    . rw [tokens_of_ending hending]
      exact .nil r
    . rw [transcript_of_ending hending]
      exact hending
  | case2 r e after hevent _ ih =>
    obtain ⟨t, rfl, hreads⟩ := exists_reads hevent
    obtain ⟨last, hall, hending⟩ := ih
    refine ⟨last, ?_, ?_⟩
    . rw [tokens_of_reads hreads]
      exact .cons hreads hall
    . rw [transcript_of_reads hreads]
      exact hending

end Reader

/--
What stands in a text and is no tag.
-/
inductive Leaf where
  | text (raw : List Char)
  | cdata (content : List Char)
  | aside
deriving DecidableEq

namespace Leaf

def event : Leaf → Event
  | text raw => .text raw
  | cdata content => .cdata content
  | aside => .aside

/--
The text that a leaf stands for, unless its references have no meaning.
-/
def content? : Leaf → Option (List Char)
  | text raw => (unescape raw).toOption
  | cdata content => some content
  | aside => some []

end Leaf

namespace Tag

def source (t : Tag) : List Char := '<' :: t.content ++ ['>']

def emptySource (t : Tag) : List Char := '<' :: t.content ++ ['/', '>']

end Tag

/--
What stands side by side in a text: leaves, empty elements, and elements with what is inside of them.
-/
inductive Forest where
  | nil
  | leaf (content : Leaf) (source : List Char) (next : Forest)
  | empty (tag : Tag) (next : Forest)
  | element (tag : Tag) (children : Forest) (closing : List Char) (next : Forest)
deriving DecidableEq

namespace Forest

def tokens : Forest → List Token
  | nil => []
  | leaf content source next => ⟨content.event, source⟩ :: next.tokens
  | empty tag next => ⟨.empty tag, tag.emptySource⟩ :: next.tokens
  | element tag children closing next =>
    ⟨.start tag, tag.source⟩ :: children.tokens ++ ⟨.close tag.name, closing⟩ :: next.tokens

def source (f : Forest) : List Char := f.tokens.flatMap Token.source

@[simp]
theorem source_nil : nil.source = [] := by
  rfl

@[simp]
theorem source_leaf (l : Leaf) (s : List Char) (next : Forest) :
    (leaf l s next).source = s ++ next.source := by
  rfl

@[simp]
theorem source_empty (tag : Tag) (next : Forest) :
    (empty tag next).source = tag.emptySource ++ next.source := by
  rfl

@[simp]
theorem source_element (tag : Tag) (children : Forest) (closing : List Char) (next : Forest) :
    (element tag children closing next).source
      = tag.source ++ children.source ++ closing ++ next.source := by
  simp [source, tokens]

end Forest

/--
The nesting of tokens from the last one on: the forest up to the first end tag whose start tag is not
among the tokens, and every such end tag with the forest behind it.
-/
def nest : List Token → Forest × List (List Char × Forest)
  | [] => (.nil, [])
  | t :: ts =>
    let (forest, closed) := nest ts
    match t.event with
    | .text raw => (.leaf (.text raw) t.source forest, closed)
    | .cdata content => (.leaf (.cdata content) t.source forest, closed)
    | .aside => (.leaf .aside t.source forest, closed)
    | .empty tag => (.empty tag forest, closed)
    | .close _ => (.nil, (t.source, forest) :: closed)
    | .start tag =>
      match closed with
      | [] => (.nil, [])
      | (closing, next) :: closed => (.element tag forest closing next, closed)

/--
The tokens of end tags with the forests behind them. The names are those of the tags that they close.
-/
def closedTokens : List String → List (List Char × Forest) → List Token
  | name :: names, (closing, forest) :: closed =>
    ⟨.close name, closing⟩ :: forest.tokens ++ closedTokens names closed
  | _, _ => []

namespace Reader

theorem nest_tokens {r last : Reader} {ts : List Token} (h : r.ReadsAll ts last)
    (hlast : last.openNames = []) :
    (nest ts).2.length = r.openNames.length
      ∧ (nest ts).1.tokens ++ closedTokens r.openNames (nest ts).2 = ts := by
  -- The tokens are nested from their end, so that the names which are still to be closed are those that
  -- are open in front of them.
  induction h with
  | nil r =>
    rw [hlast]
    exact ⟨rfl, rfl⟩
  | @cons r mid after t ts h hs ih =>
    obtain ⟨hlength, htokens⟩ := ih hlast
    have hnames := h.openNames
    have hwell := h.wellFormed
    obtain ⟨event, source⟩ := t
    unfold nest
    generalize nest ts = nested at *
    obtain ⟨forest, closed⟩ := nested
    dsimp only at *
    cases event with
    | text raw =>
      simp only [Event.openNames?, Option.some.injEq] at hnames
      rw [hnames]
      exact ⟨hlength, by rw [← htokens]; rfl⟩
    | cdata content =>
      simp only [Event.openNames?, Option.some.injEq] at hnames
      rw [hnames]
      exact ⟨hlength, by rw [← htokens]; rfl⟩
    | aside =>
      simp only [Event.openNames?, Option.some.injEq] at hnames
      rw [hnames]
      exact ⟨hlength, by rw [← htokens]; rfl⟩
    | empty tag =>
      simp only [Event.openNames?, Option.some.injEq] at hnames
      have hsource : source = tag.emptySource := hwell.empty tag rfl
      rw [hnames]
      exact ⟨hlength, by rw [← htokens, hsource]; rfl⟩
    | close name =>
      rw [Event.openNames?_close.mp hnames]
      refine ⟨by simp [hlength], ?_⟩
      rw [← htokens]
      rfl
    | start tag =>
      simp only [Event.openNames?, Option.some.injEq] at hnames
      have hsource : source = tag.source := hwell.start tag rfl
      rw [← hnames] at hlength htokens
      cases closed with
      | nil => simp at hlength
      | cons entry closed =>
        obtain ⟨closing, next⟩ := entry
        refine ⟨by simpa using hlength, ?_⟩
        rw [← htokens, hsource]
        simp [Forest.tokens, closedTokens]

/--
The forest that a reader reads. It stands for the whole text if all tags are closed at the end.
-/
def forest (r : Reader) : Forest := (nest r.tokens).1

theorem tokens_forest {r last : Reader} (h : r.ReadsAll r.tokens last)
    (hr : r.openNames = []) (hlast : last.openNames = []) : r.forest.tokens = r.tokens := by
  obtain ⟨_, htokens⟩ := nest_tokens h hlast
  unfold forest
  rw [hr] at htokens
  simpa [closedTokens] using htokens

end Reader

end KmlTree
