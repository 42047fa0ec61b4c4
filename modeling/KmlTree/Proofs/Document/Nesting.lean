import KmlTree.Proofs.Document.Verbatim

/-!
This module contains the root of a document by recursion on the nesting of its elements
(`Forest.values?`): every element is opened by its tag, is offered the elements inside of it one after the
other, and then gets the text that stands directly inside of it. What the builder makes of a document with
its stack of open elements is the same (`values_documentForest`).
-/

namespace KmlTree

/--
The markup of an element from the last opening bracket of its start tag on.
-/
def Branch.fragment (b : Branch) : List Char :=
  '<' :: (b.opening.reverse.takeWhile (· != '<')).reverse ++ (b.children.source ++ b.closing)

/--
The element that a start tag opens when the given elements and the given text are inside of it.
-/
def Tag.value? (t : Tag) (fresh : Nat) (children : List Element) (content : List Char) :
    Option Element :=
  (t.open? fresh).map fun e => (children.foldl Element.add e).setText (String.ofList content)

namespace Forest

/--
The text that stands side by side with the elements of a forest. Nothing that is inside of them belongs to
it, and neither do comments, instructions and declarations.
-/
def directText? : Forest → Option (List Char)
  | nil => some []
  | leaf content _ next => do
    let front ← content.content?
    let back ← next.directText?
    return front ++ back
  | empty _ next => next.directText?
  | element _ _ _ next => next.directText?

/--
The elements of a forest, in order. The first one has the number `fresh`, and those inside of an element
have the numbers behind its own. An element that is not of the catalog is its markup.
-/
def values? (fresh : Nat) : Forest → Option (List Element)
  | nil => some []
  | leaf _ _ next => next.values? fresh
  | empty tag next =>
    if tag.isKnown then do
      let value ← tag.value? fresh [] []
      let rest ← next.values? (fresh + 1)
      return value :: rest
    else do
      let rest ← next.values? (fresh + 1)
      return .ofMarkup fresh (Branch.fragment ⟨tag, true, nil, []⟩) :: rest
  | element tag children closing next =>
    if tag.isKnown then do
      let inside ← children.values? (fresh + 1)
      let content ← children.directText?
      let value ← tag.value? fresh inside content
      let rest ← next.values? (fresh + 1 + children.count)
      return value :: rest
    else do
      let rest ← next.values? (fresh + 1)
      return .ofMarkup fresh (Branch.fragment ⟨tag, false, children, closing⟩) :: rest

variable {f next : Forest} {b : Branch} {fresh : Nat}

theorem directText?_branch (h : f.branch? = some (b, next)) : f.directText? = next.directText? := by
  cases f with
  | nil | leaf => cases h
  | empty | element =>
    cases h
    rfl

theorem values?_known (h : f.branch? = some (b, next)) (hknown : b.tag.isKnown = true)
    {inside rest : List Element} {content : List Char} {value : Element}
    (hinside : b.children.values? (fresh + 1) = some inside)
    (hcontent : b.children.directText? = some content)
    (hvalue : b.tag.value? fresh inside content = some value)
    (hrest : next.values? (fresh + 1 + b.children.count) = some rest) :
    f.values? fresh = some (value :: rest) := by
  cases f with
  | nil | leaf => cases h
  | empty =>
    cases h
    cases hinside
    cases hcontent
    dsimp only [count] at hknown hvalue hrest
    simp [values?, hknown, hvalue, hrest]
  | element =>
    cases h
    dsimp only at hknown hinside hcontent hvalue hrest
    simp [values?, hknown, hinside, hcontent, hvalue, hrest]

theorem values?_unknown (h : f.branch? = some (b, next)) (hknown : b.tag.isKnown = false)
    {rest : List Element} (hrest : next.values? (fresh + 1) = some rest) :
    f.values? fresh = some (.ofMarkup fresh b.fragment :: rest) := by
  cases f with
  | nil | leaf => cases h
  | empty | element =>
    cases h
    dsimp only at hknown
    simp [values?, hknown, hrest]

theorem values?_isQuiet (h : f.isQuiet = true) : f.values? fresh = some [] := by
  apply quietInduction h
  . rfl
  . intro l source next ih
    exact ih

end Forest

/--
Whether a piece of a text begins at a given byte of it.
-/
def StandsAt (text : List Char) (position : Nat) (piece : List Char) : Prop :=
  ∃ before after, text = before ++ (piece ++ after) ∧ position = byteLength before

namespace StandsAt

variable {text a b : List Char} {position : Nat}

theorem left (h : StandsAt text position (a ++ b)) : StandsAt text position a := by
  obtain ⟨before, after, htext, hposition⟩ := h
  exact ⟨before, b ++ after, by rw [htext, List.append_assoc], hposition⟩

theorem right (h : StandsAt text position (a ++ b)) : StandsAt text (position + byteLength a) b := by
  obtain ⟨before, after, htext, hposition⟩ := h
  refine ⟨before ++ a, after, ?_, ?_⟩
  . rw [htext]
    simp only [List.append_assoc]
  . rw [hposition, byteLength_append]

end StandsAt

/--
Where every byte is counted, an element is captured from the last opening bracket of its start tag on.
-/
theorem excerpt?_eq_fragment {text : List Char} {position : Nat} {b : Branch}
    (h : StandsAt text position b.source) :
    excerpt? text (position + byteLength b.opening) (position + byteLength b.source)
      = some b.fragment := by
  have hmem : '<' ∈ b.opening := by
    rw [b.opening_eq]
    simp
  obtain ⟨front, back, hopening, hback⟩ := exists_last_of_mem hmem
  have hreverse : b.opening.reverse.takeWhile (· != '<') = back.reverse := by
    rw [hopening, List.reverse_append, List.reverse_cons, List.append_assoc]
    apply takeWhile_stop
    . apply bne_of_notMem
      rw [List.mem_reverse]
      exact hback
    . rfl
  obtain ⟨before, after, rfl, rfl⟩ := h
  rw [excerpt?_eq before after hopening hback]
  unfold Branch.fragment
  rw [hreverse, List.reverse_reverse]

theorem Tag.value?_closed {tag : Tag} {fresh : Nat} {child : Element} {inner : Frame}
    {inside : List Element} {content : List Char} (hopen : tag.open? fresh = some child)
    (hinner : inner = ⟨inside.foldl Element.add child, "" ++ String.ofList content⟩) :
    tag.value? fresh inside content = some inner.closed := by
  unfold value?
  rw [hopen, hinner]
  simp [Frame.closed]

namespace Forest

variable {limit depth position fresh fresh' n : Nat} {frame frame' : Frame} {f : Forest}
  {root : Element} {text : List Char}

-- The text of an open element comes in pieces between the elements in it, so that the induction is for an
-- element which has some children and some text already.
theorem Feeds.values (h : Feeds text limit depth position frame fresh f frame' fresh')
    (hg : frame.element.Grown fresh) (hf : StandsAt text position f.source) :
    ∃ values content, f.values? fresh = some values ∧ f.directText? = some content
      ∧ frame' = ⟨values.foldl Element.add frame.element, frame.text ++ String.ofList content⟩ := by
  induction h with
  | nil => exact ⟨[], [], rfl, rfl, by simp⟩
  | @leaf depth position fresh fresh' frame frame' l source content next hcontent _ ih =>
    rw [source_leaf] at hf
    obtain ⟨values, content', hvalues, hcontent', hframe⟩ := ih hg hf.right
    refine ⟨values, content ++ content', hvalues, ?_, ?_⟩
    . simp [directText?, hcontent, hcontent']
    . rw [hframe]
      simp [Frame.pushText, String.append_assoc]
  | @known depth position fresh fresh'' frame frame' f next branch child inner fresh' hbranch _ hopen
      hinside _ ihinside ihnext =>
    obtain ⟨hopened, _⟩ := Element.grown_open hopen
    obtain ⟨htakes, hcount⟩ := hinside.takes hopen hg
    rw [source_branch hbranch] at hf
    have hsource := hf.left
    unfold Branch.source at hsource
    obtain ⟨inside, content, hinsideValues, hinsideText, hinner⟩ :=
      ihinside hopened hsource.left.right
    obtain ⟨values, content', hvalues, hcontent', hframe⟩ := ihnext htakes.offered hf.right
    rw [hcount] at hvalues
    refine ⟨inner.closed :: values, content', ?_, ?_, ?_⟩
    . exact values?_known hbranch (Tag.isKnown_of_open? hopen) hinsideValues hinsideText
        (Tag.value?_closed hopen hinner) hvalues
    . rw [directText?_branch hbranch, hcontent']
    . rw [hframe]
      rfl
  | @unknown depth position fresh fresh' frame frame' f next branch markup hbranch _ hknown hmarkup _
      ih =>
    rw [source_branch hbranch] at hf
    rw [excerpt?_eq_fragment hf.left, Option.some.injEq] at hmarkup
    obtain ⟨values, content, hvalues, hcontent, hframe⟩ :=
      ih ((hg.keepMarkup _).mono (Nat.le_succ _)) hf.right
    refine ⟨.ofMarkup fresh branch.fragment :: values, content, ?_, ?_, ?_⟩
    . exact values?_unknown hbranch hknown hvalues
    . rw [directText?_branch hbranch, hcontent]
    . rw [hframe, hmarkup]
      rfl

theorem Yields.values (h : f.Yields text limit fresh position root n)
    (hf : StandsAt text position f.source) : f.values? fresh = some [root] := by
  induction h with
  | @leaf position n l source content next root _ _ ih =>
    rw [source_leaf] at hf
    exact ih hf.right
  | @root position n f next branch child inner hbranch _ hopen hinside hnext =>
    obtain ⟨hopened, _⟩ := Element.grown_open hopen
    rw [source_branch hbranch] at hf
    have hsource := hf.left
    unfold Branch.source at hsource
    obtain ⟨inside, content, hvalues, hcontent, hinner⟩ := hinside.values hopened hsource.left.right
    exact values?_known hbranch (Tag.isKnown_of_open? hopen) hvalues hcontent
      (Tag.value?_closed hopen hinner) (values?_isQuiet hnext)

end Forest

theorem Reader.ReadsAll.events {r last : Reader} {ts : List Token} {e : Ending}
    (h : r.ReadsAll ts last) (hlast : last.next = .ending e) :
    ts.map Token.event = r.transcript.events.map Prod.fst := by
  induction h with
  | nil r =>
    rw [Reader.transcript_of_ending hlast]
    rfl
  | cons hread _ ih =>
    rw [Reader.transcript_of_reads hread, List.map_cons, List.map_cons, ih hlast]

/--
The root of a document is the one that is given by recursion on the nesting of the events that are read
from its text. Only the markup that is cut out of the text depends on there being no byte order mark.
-/
theorem values_documentForest {limit fresh : Nat} {text : String} {root : Element} {n : Nat}
    (h : parseDocument limit fresh text = .ok (root, n)) (hmark : byteOrderMark text.toList = []) :
    (documentForest text.toList).tokens.map Token.event
        = (Reader.start text.toList).transcript.events.map Prod.fst
      ∧ (documentForest text.toList).values? fresh = some [root] := by
  obtain ⟨last, position, hall, hlast⟩ := readsAll_documentForest h
  obtain ⟨rest, htext, _⟩ := source_documentForest h
  rw [hmark, List.nil_append] at htext
  refine ⟨hall.events hlast, ?_⟩
  exact (Forest.yields_of_parse h).values ⟨[], rest, htext, rfl⟩

theorem values_documentForest_mixed :
    ∃ text root n,
      text = "<Folder id='f'>a<name>N</name><x b='1'>?</x>b<![CDATA[c]]><kml/>d</Folder> "
        ∧ parseDocument 100 3 text = .ok (root, n) ∧ byteOrderMark text.toList = []
        ∧ root.head.charData = "abcd" ∧ root.head.unknown = ["<x b='1'>?</x>"]
        ∧ (documentForest text.toList).tokens.map Token.event
          = (Reader.start text.toList).transcript.events.map Prod.fst
        ∧ (documentForest text.toList).values? 3 = some [root] := by
  let text := "<Folder id='f'>a<name>N</name><x b='1'>?</x>b<![CDATA[c]]><kml/>d</Folder> "
  have hroot : (parseDocument 100 3 text).toOption.map
        (fun result => (result.1.head.charData, result.1.head.unknown))
      = some ("abcd", ["<x b='1'>?</x>"]) := by
    decide +kernel
  obtain ⟨⟨root, n⟩, hparsed, hhead⟩ := Option.map_eq_some_iff.mp hroot
  obtain ⟨result, h⟩ := exists_eq_ok (Option.isSome_iff_exists.mpr ⟨_, hparsed⟩)
  rw [h] at hparsed
  cases hparsed
  simp only [Prod.mk.injEq] at hhead
  have hmark : byteOrderMark text.toList = [] := by
    decide
  exact ⟨text, root, n, rfl, h, hmark, hhead.1, hhead.2, values_documentForest h hmark⟩

end KmlTree
