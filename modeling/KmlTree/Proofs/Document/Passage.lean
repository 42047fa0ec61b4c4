import KmlTree.Proofs.Document.Verbatim
import KmlTree.Proofs.Markup.Layout
import KmlTree.Proofs.Markup.Written

/-!
This module contains the passages of a builder over a piece of text that stands anywhere in a document
(`Builder.Passes`). A document can be put together from them: over text, over the tags that the writer
writes, and over markup that has been captured before.
-/

namespace KmlTree

namespace Builder

def openNames (b : Builder) : List String := b.openTags.map fun tag => tag.getD ""

/--
Whether a builder goes from one state to another over a piece of text: a document can be read from the
second state on behind the piece only if it can be read from the first one on with the piece.
-/
def Passes (limit : Nat) (s : List Char) (b b' : Builder) : Prop :=
  ∀ (before rest : List Char) (result : Element × Nat),
    run (before ++ s ++ rest) limit ⟨rest, byteLength (before ++ s), false, b'.openNames⟩ b'
        = .ok result →
      run (before ++ s ++ rest) limit ⟨s ++ rest, byteLength before, false, b.openNames⟩ b
        = .ok result

variable {text : List Char} {limit : Nat}

namespace Passes

variable {s t : List Char} {b b' b'' : Builder}

theorem nil (b : Builder) : Passes limit [] b b := by
  intro before rest result h
  simpa using h

theorem append (hs : Passes limit s b b') (ht : Passes limit t b' b'') :
    Passes limit (s ++ t) b b'' := by
  intro before rest result h
  have hrest := ht (before ++ s) rest result
  have hall := hs before (t ++ rest) result
  simp only [List.append_assoc] at hrest hall h ⊢
  exact hall (hrest h)

end Passes

theorem pushText_nil (b : Builder) : b.pushText [] = b := by
  unfold pushText
  split
  . rfl
  . next hstack => simp [← hstack]

theorem pushText_pushText (b : Builder) (u v : List Char) :
    (b.pushText u).pushText v = b.pushText (u ++ v) := by
  unfold pushText
  cases hstack : b.stack with
  | nil => simp [hstack]
  | cons frame frames => simp [String.append_assoc]

theorem openNames_pushText (b : Builder) (u : List Char) : (b.pushText u).openNames = b.openNames := by
  unfold openNames
  rw [openTags_pushText]

theorem run_afterText (r : Reader) (afterText : Bool) (b : Builder) :
    run text limit { r with afterText := afterText } b = run text limit r b := by
  have hnext : Reader.next { r with afterText := afterText } = r.next := by
    rfl
  unfold run
  rw [Reader.transcript, Reader.transcript]
  split
  . next hending =>
    rw [hnext] at hending
    split
    . next hending' =>
      rw [hending] at hending'
      cases hending'
      rfl
    . next hevent =>
      rw [hending] at hevent
      cases hevent
  . next hevent =>
    rw [hnext] at hevent
    split
    . next hending =>
      rw [hevent] at hending
      cases hending
    . next hevent' =>
      rw [hevent] at hevent'
      cases hevent'
      rfl

theorem run_token {t : Token} (ht : t.Readable) {rest : List Char} {names names' : List String}
    {n : Nat} {b b' : Builder} (hends : t.EndsBefore rest)
    (hnames : t.event.openNames? names = some names')
    (hstep : ∀ after : Reader, (t.event.isText = false → after.position = n + byteLength t.source) →
      b.step text limit (t.event, after) = .ok b') :
    run text limit ⟨t.source ++ rest, n, false, names⟩ b
      = run text limit ⟨rest, n + byteLength t.source, false, names'⟩ b' := by
  have hreads := ht.reads (r := ⟨t.source ++ rest, n, false, names⟩) rfl hends hnames
  rw [run_of_reads b hreads, hstep _ hreads.position]
  exact run_afterText ⟨rest, n + byteLength t.source, false, names'⟩ t.event.isText b'

theorem step_text {raw content : List Char} {b : Builder} (hcapture : b.capture = none)
    (hraw : unescape raw = .ok content) (after : Reader) :
    b.step text limit (.text raw, after) = .ok (b.pushText content) := by
  apply (step_leaf (l := .text raw) hcapture).mpr
  refine ⟨content, ?_, rfl⟩
  simp [Leaf.content?, hraw, Except.toOption]

theorem run_text {raw content rest : List Char} {names : List String} {n : Nat} {b : Builder}
    (hne : raw ≠ []) (hbracket : '<' ∉ raw) (hends : ∀ c ∈ rest.head?, c = '<')
    (hcapture : b.capture = none) (hraw : unescape raw = .ok content) :
    run text limit ⟨raw ++ rest, n, false, names⟩ b
      = run text limit ⟨rest, n + byteLength raw, false, names⟩ (b.pushText content) :=
  run_token (Reader.readable_text hne hbracket) (fun _ => hends) rfl
    fun after _ => step_text hcapture hraw after

theorem passes_text {s u : List Char} {b : Builder} (hs : Denotes s u) (hbracket : '<' ∉ s)
    (hcapture : b.capture = none) : Passes limit s b (b.pushText u) := by
  by_cases hnil : s = []
  . subst hnil
    rw [hs.eq_nil, pushText_nil]
    exact .nil b
  . intro before rest result h
    rw [openNames_pushText, byteLength_append] at h
    by_cases hends : ∀ c ∈ rest.head?, c = '<'
    . rw [run_text hnil hbracket hends hcapture hs.unescape]
      exact h
    . have hpush : (b.pushText u).capture = none := by
        rw [capture_pushText]
        exact hcapture
      let r : Reader := ⟨rest, byteLength before + byteLength s, false, b.openNames⟩
      obtain ⟨raw, after, hreads⟩ := Reader.exists_reads_text (r := r) hends
      obtain ⟨b', hstep, hrun⟩ := bind_eq_ok.mp ((run_of_reads _ hreads).symm.trans h)
      obtain ⟨content, hcontent, rfl⟩ := (step_leaf (l := .text raw) hpush).mp hstep
      have hraw : unescape raw = .ok content := by
        unfold Leaf.content? at hcontent
        cases hunescape : unescape raw with
        | error e => simp [hunescape, Except.toOption] at hcontent
        | ok content' => simpa [hunescape, Except.toOption] using hcontent
      let whole : Reader := ⟨s ++ rest, byteLength before, false, b.openNames⟩
      have hwhole : whole.Reads ⟨.text (s ++ raw), s ++ raw⟩ after := hreads.prepend_text hbracket rfl
      rw [run_of_reads b hwhole, step_text hcapture (hs.unescape_append hraw)]
      rw [pushText_pushText] at hrun
      exact hrun

theorem passes_token {t : Token} (ht : t.Readable) {b b' : Builder} (htext : t.event.isText = false)
    (hnames : t.event.openNames? b.openNames = some b'.openNames)
    (hstep : ∀ text after, b.step text limit (t.event, after) = .ok b') :
    Passes limit t.source b b' := by
  intro before rest result h
  rw [run_token ht (Token.endsBefore_of_markup htext rest) hnames fun after _ => hstep _ after]
  rw [byteLength_append] at h
  exact h

end Builder

namespace Kind

theorem name_of_ofTag? {name : String} {kind : Kind} (h : ofTag? name = some kind) :
    name ≠ "" ∧ ∀ c ∈ name.toList, c ∉ tagDelimiters := by
  have hall : ∀ entry ∈ catalog, entry.1 ≠ "" ∧ ∀ c ∈ entry.1.toList, c ∉ tagDelimiters := by
    simp only [← List.all_iff_forall_prop]
    decide
  obtain ⟨model, hmem⟩ := mem_catalog_of_ofTag? h
  exact hall _ hmem

end Kind

namespace Builder

variable {limit : Nat}

section Tags

variable {name : String} {kind : Kind} {a : Attributes} {e : Element} {b : Builder}

theorem open?_written (hkind : Kind.ofTag? name = some kind)
    (hcreate : Element.create? b.fresh kind = some e)
    (hnames : ∀ entry ∈ a.entries, isXmlName entry.1.toList = true) :
    (Tag.written name a).isKnown = true
      ∧ (Tag.written name a).open? b.fresh = some (e.openWith a) := by
  obtain ⟨_, hname⟩ := Kind.name_of_ofTag? hkind
  unfold Tag.isKnown Tag.open?
  rw [Tag.name_written hname, Tag.attributes_written hname hnames, hkind]
  refine ⟨rfl, ?_⟩
  simp only [Option.bind_eq_bind, Option.bind_some, hcreate]
  rfl

theorem passes_start (hkind : Kind.ofTag? name = some kind)
    (hcreate : Element.create? b.fresh kind = some e)
    (hnames : ∀ entry ∈ a.entries, isXmlName entry.1.toList = true) (hcapture : b.capture = none)
    (hlimit : b.stack.length + 1 ≤ limit) (hroot : b.stack = [] → b.root = none) :
    Passes limit (Tag.written name a).source b (b.opened (e.openWith a)) := by
  obtain ⟨hne, hname⟩ := Kind.name_of_ofTag? hkind
  obtain ⟨hknown, hopen⟩ := open?_written hkind hcreate hnames
  apply passes_token (Tag.readable_start_written hne hname hnames) rfl
  . have htag := Tag.tag?_of_open? hopen
    unfold openNames
    rw [openTags_opened htag]
    rfl
  . intro text after
    rw [step_start hcapture]
    apply enter_eq_ok.mpr
    refine ⟨hlimit, hroot, ?_⟩
    rw [if_pos hknown]
    exact ⟨_, hopen, rfl⟩

theorem passes_empty (hkind : Kind.ofTag? name = some kind)
    (hcreate : Element.create? b.fresh kind = some e)
    (hnames : ∀ entry ∈ a.entries, isXmlName entry.1.toList = true) (hcapture : b.capture = none)
    (hlimit : b.stack.length + 1 ≤ limit) (hroot : b.stack = [] → b.root = none) :
    Passes limit (Tag.written name a).emptySource b (b.opened (e.openWith a)).close := by
  obtain ⟨hne, hname⟩ := Kind.name_of_ofTag? hkind
  obtain ⟨hknown, hopen⟩ := open?_written hkind hcreate hnames
  apply passes_token (Tag.readable_empty_written hne hname hnames) rfl
  . have htag := Tag.tag?_of_open? hopen
    unfold openNames
    rw [openTags_close, openTags_opened htag]
    rfl
  . intro text after
    rw [step_empty hcapture]
    apply enter_eq_ok.mpr
    refine ⟨hlimit, hroot, ?_⟩
    rw [if_pos hknown]
    exact ⟨_, hopen, rfl⟩

theorem passes_close {frame : Frame} {frames : List Frame} (hkind : Kind.ofTag? name = some kind)
    (hstack : b.stack = frame :: frames) (hframe : frame.element.kind = kind)
    (hcapture : b.capture = none) : Passes limit (closingTag name) b b.close := by
  obtain ⟨_, hname⟩ := Kind.name_of_ofTag? hkind
  have htag : frame.element.kind.tag? = some name := by
    rw [hframe]
    exact Kind.tag?_of_ofTag? hkind
  apply passes_token (readable_close hname) rfl
  . have hopen : b.openNames = name :: b.close.openNames := by
      unfold openNames
      rw [openTags_close]
      unfold openTags
      rw [hstack, List.map_cons, htag]
      rfl
    rw [hopen]
    simp [Event.openNames?]
  . intro text after
    exact step_close hcapture

end Tags

end Builder

namespace Reader

theorem Reads.again {r after q : Reader} {t : Token} {rest : List Char} {names : List String}
    (h : r.Reads t after) (hafter : after.rest ≠ []) (hq : q.rest = t.source ++ rest)
    (hhead : t.event.isText = true → rest.head? = after.rest.head?)
    (hnames : t.event.openNames? q.openNames = some names) : q.Reads t (q.behind t rest names) := by
  apply (h.readable hafter).reads hq _ hnames
  intro htext
  rw [hhead htext]
  exact h.endsBefore htext

/--
Whether a forest that has been read in front of something can be read again in front of anything that
begins alike.
-/
def ReadsAgain (f : Forest) : Prop :=
  ∀ (r mid q : Reader) (rest : List Char), r.ReadsAll f.tokens mid → mid.rest ≠ [] →
    q.rest = f.source ++ rest → rest.head? = mid.rest.head? →
      ∃ q', q.ReadsAll f.tokens q' ∧ q'.rest = rest ∧ q'.openNames = q.openNames

/--
An element can be read again in front of anything, since it ends with a tag.
-/
theorem ReadsAll.again_branch {f next : Forest} {b : Branch} {r mid q : Reader} {rest : List Char}
    (hf : f.branch? = some (b, next)) (hchildren : ReadsAgain b.children)
    (h : r.ReadsAll b.tokens mid) (hmid : mid.rest ≠ []) (hq : q.rest = b.source ++ rest) :
    ∃ q', q.ReadsAll b.tokens q' ∧ q'.rest = rest ∧ q'.openNames = q.openNames := by
  cases f with
  | nil | leaf => cases hf
  | empty tag next =>
    cases hf
    obtain ⟨_, hread, hnil⟩ := readsAll_cons.mp h
    obtain rfl := readsAll_nil.mp hnil
    have hsource : Branch.source ⟨tag, true, .nil, []⟩ = tag.emptySource := by
      simp [Branch.source, Branch.opening]
    rw [hsource] at hq
    have hagain := hread.again hmid hq (fun htext => by cases htext) rfl
    exact ⟨q.behind _ rest q.openNames, hagain.readsAll, rfl, rfl⟩
  | element tag children closing next =>
    cases hf
    obtain ⟨first, hread, hrest⟩ := readsAll_cons.mp h
    obtain ⟨inside, hall, hclose⟩ := readsAll_append.mp hrest
    obtain ⟨_, hreadclose, hnil⟩ := readsAll_cons.mp hclose
    obtain rfl := readsAll_nil.mp hnil
    have hsame : (closing ++ rest).head? = inside.rest.head? := by
      have hne : closing ≠ [] := hreadclose.wellFormed.nonempty
      rw [hreadclose.rest, List.head?_append_of_ne_nil _ hne, List.head?_append_of_ne_nil _ hne]
    have hq' : q.rest = tag.source ++ (children.source ++ (closing ++ rest)) := by
      rw [hq]
      simp [Branch.source, Branch.opening]
    have hagain := hread.again (hrest.rest_ne_nil hmid) hq' (fun htext => by cases htext) rfl
    obtain ⟨q', hall', hrest', hopen⟩ :=
      hchildren first inside (q.behind _ _ (tag.name :: q.openNames)) (closing ++ rest) hall
        (hclose.rest_ne_nil hmid) rfl hsame
    have hnames : Event.openNames? (.close tag.name) q'.openNames = some q.openNames := by
      rw [hopen]
      simp [behind, Event.openNames?]
    have hagain' := hreadclose.again hmid hrest' (fun htext => by cases htext) hnames
    refine ⟨q'.behind ⟨.close tag.name, closing⟩ rest q.openNames, ?_, rfl, rfl⟩
    exact .cons hagain (readsAll_append.mpr ⟨q', hall', hagain'.readsAll⟩)

theorem readsAgain (f : Forest) : ReadsAgain f := by
  induction f using Forest.branchInduction with
  | nil =>
    intro r mid q rest _ _ hq _
    exact ⟨q, .nil q, by simpa using hq, rfl⟩
  | leaf l source next ih =>
    intro r mid q rest h hmid hq hhead
    obtain ⟨after, hread, hnext⟩ := readsAll_cons.mp h
    have hnames : l.event.openNames? q.openNames = some q.openNames := by
      cases l <;> rfl
    -- Only the character behind a text decides where it ends.
    have hsame : (next.source ++ rest).head? = after.rest.head? := by
      rw [hnext.rest, List.head?_append, List.head?_append, hhead]
      rfl
    have hagain := hread.again (hnext.rest_ne_nil hmid) (q := q)
      (by rw [hq, Forest.source_leaf, List.append_assoc]) (fun _ => hsame) hnames
    obtain ⟨q', hall, hrest, hopen⟩ :=
      ih after mid (q.behind _ (next.source ++ rest) _) rest hnext hmid rfl hhead
    exact ⟨q', .cons hagain hall, hrest, hopen⟩
  | branch f branch next hf ihchildren ihnext =>
    intro r mid q rest h hmid hq hhead
    obtain ⟨_, _, behind, _, _, _, hbranch, hnext⟩ := Forest.readsAll_branch hf h
    rw [Forest.source_branch hf, List.append_assoc] at hq
    obtain ⟨q₁, hall, hrest, hopen⟩ :=
      hbranch.again_branch hf ihchildren (hnext.rest_ne_nil hmid) hq
    obtain ⟨q₂, hall', hrest', hopen'⟩ := ihnext behind mid q₁ rest hnext hmid hrest hhead
    refine ⟨q₂, ?_, hrest', hopen'.trans hopen⟩
    rw [(Forest.tokens_branch hf).1]
    exact readsAll_append.mpr ⟨q₁, hall, hall'⟩

end Reader

/--
Whether a text is the markup of a single element that is not of the catalog and can be captured as it is.
-/
def IsFragment (markup : List Char) : Prop :=
  ∃ (f : Forest) (b : Branch), f.branch? = some (b, .nil) ∧ b.tag.isKnown = false
    ∧ '<' ∉ b.tag.content ∧ b.source = markup
    ∧ ∃ r mid : Reader, r.ReadsAll b.tokens mid ∧ mid.rest ≠ []

namespace Builder

variable {limit : Nat}

theorem openNames_offer (b : Builder) (child : Element) : (b.offer child).openNames = b.openNames := by
  unfold openNames
  rw [openTags_offer]

theorem passes_fragment {markup : List Char} {b : Builder} (h : IsFragment markup)
    (hcapture : b.capture = none) (hstack : b.stack ≠ []) (hlimit : b.stack.length + 1 ≤ limit) :
    Passes limit markup b ({ b with fresh := b.fresh + 1 }.offer (.ofMarkup b.fresh markup)) := by
  obtain ⟨f, branch, hf, hknown, hbracket, rfl, r, mid, hr, hmid⟩ := h
  intro before rest result hrun
  let q : Reader := ⟨branch.source ++ rest, byteLength before, false, b.openNames⟩
  obtain ⟨q', hall, hrest, hopen⟩ :=
    hr.again_branch (q := q) hf (Reader.readsAgain branch.children) hmid rfl
  have hconsumed : q'.consumed = byteLength (before ++ branch.source) := by
    rw [hall.consumed, (Forest.tokens_branch hf).2, byteLength_append]
  -- The start tag has no second bracket, so that the search backwards finds its beginning.
  have hexcerpt : excerpt? (before ++ branch.source ++ rest)
      (byteLength before + byteLength branch.opening) (byteLength before + byteLength branch.source)
      = some branch.source := by
    have hback : '<' ∉ branch.tag.content ++ branch.openingEnd := by
      simp [hbracket, branch.notMem_openingEnd]
    rw [List.append_assoc, @excerpt?_eq branch [] _ before rest branch.opening_eq hback,
      ← branch.source_eq]
  apply (run_unknown hf hall hknown hcapture hstack).mpr
  refine ⟨hlimit, branch.source, hexcerpt, ?_⟩
  have hnames : ({ b with fresh := b.fresh + 1 } : Builder).openNames = q'.openNames := hopen.symm
  rw [openNames_offer, hnames, ← hconsumed] at hrun
  rw [← run_afterText q' false, hrest]
  exact hrun

end Builder

end KmlTree
