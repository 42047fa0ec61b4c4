import KmlTree.Proofs.Document.AttributeTally
import KmlTree.Proofs.Document.Depth
import KmlTree.Proofs.Document.Rereading
import KmlTree.Proofs.Element.Built

/-!
This module contains the normal form of documents: the root of a document writes a document again, and the
root of that one has the same raw text.
-/

namespace KmlTree

namespace Element

/--
Whether the unknown attributes of an element and of those in it have names of XML.
-/
def Named (e : Element) : Prop :=
  ∀ x ∈ e.all, ∀ bag, x.head.unknownAttributes = some bag →
    ∀ name ∈ bag.names, isXmlName name.toList = true

theorem Named.of_children {e e' : Element} (h : e.Named)
    (hattributes : e'.head.unknownAttributes = e.head.unknownAttributes)
    (hchildren : e'.placed ++ e'.misplaced = e.placed ++ e.misplaced) : e'.Named := by
  unfold Named at h ⊢
  rw [forall_mem_all] at h ⊢
  rw [hattributes, hchildren]
  exact h

theorem Named.added {owner child e : Element} (ho : owner.Named) (hc : child.Named)
    (h : Added owner child e) : e.Named := by
  have hinside : (child.inside owner.id).Named := hc.of_children rfl rfl
  have happend (es : List Element) (hes : ∀ c, c ∈ es ↔ c ∈ owner.placed ++ owner.misplaced
      ∨ c = child.inside owner.id) : ∀ c ∈ es, c.Named := by
    intro c hmem
    cases (hes c).mp hmem with
    | inl hold =>
      intro x hx
      exact ho x (mem_all.mpr (Or.inr ⟨c, hold, hx⟩))
    | inr hnew =>
      rw [hnew]
      exact hinside
  have hself := ho owner owner.mem_all_self
  cases h with
  | markup | absorbed => exact ho.of_children rfl rfl
  | placed | misplaced =>
    intro x hx
    cases mem_all.mp hx with
    | inl heq =>
      rw [heq]
      exact hself
    | inr hin =>
      obtain ⟨c, hmem, hx⟩ := hin
      refine happend _ ?_ c hmem x hx
      intro c
      simp only [List.mem_append, List.mem_singleton]
      grind

theorem named_open {fresh : Nat} {tag : Tag} {e : Element} (h : tag.open? fresh = some e)
    (hnames : ∀ pair ∈ tag.pairs, isXmlName pair.1.toList = true) : e.Named := by
  obtain ⟨body, a, _, hcreate, ha, rfl⟩ := Tag.open?_spec h
  obtain ⟨_, _, hlisted, hsame⟩ := create?_spec hcreate
  cases hsame
  rw [openWith_ofBody]
  unfold Named
  rw [forall_mem_all]
  constructor
  . intro bag hbag name hname
    obtain ⟨_, rfl⟩ := Attributes.nonempty?_eq_some.mp hbag
    unfold Attributes.names at hname
    rw [Body.entries_takeAttributes hlisted, Attributes.filter_entries_erase,
      Tag.entries_attributes ha] at hname
    obtain ⟨pair, hpair, rfl⟩ := List.mem_map.mp hname
    exact hnames pair (List.mem_of_mem_filter hpair)
  . intro c hc
    cases hc

end Element

theorem Forest.Feeds.named {text : List Char} {limit depth position fresh fresh' : Nat}
    {frame frame' : Frame} {f : Forest}
    (h : Forest.Feeds text limit depth position frame fresh f frame' fresh')
    (hg : frame.element.Grown fresh)
    (hnames : ∀ entry ∈ f.tags fresh, ∀ pair ∈ entry.2.pairs, isXmlName pair.1.toList = true)
    (hnamed : frame.element.Named) : frame'.element.Named := by
  induction h with
  | nil => exact hnamed
  | leaf _ _ ih => exact ih hg hnames hnamed
  | @known depth position fresh fresh'' frame frame' f next branch child inner fresh' hf hdepth hopen
      hinside _ ihinside ihnext =>
    obtain ⟨hopened, _⟩ := Element.grown_open hopen
    obtain ⟨htakes, hcount⟩ := hinside.takes hopen hg
    rw [Forest.tags_known hf (Tag.isKnown_of_open? hopen)] at hnames
    have hnamedChild := Element.named_open hopen (hnames (fresh, branch.tag) (by simp))
    have hnamedInner := ihinside hopened (fun entry hentry => hnames entry (by simp [hentry]))
      hnamedChild
    have hnamedClosed : inner.closed.Named := hnamedInner.of_children rfl rfl
    apply ihnext htakes.offered _ (hnamed.added hnamedClosed htakes.added)
    intro entry hentry
    rw [hcount] at hentry
    exact hnames entry (by simp [hentry])
  | unknown markup hf _ hknown _ _ ih =>
    rw [Forest.tags_unknown hf hknown] at hnames
    exact ih ((hg.keepMarkup _).mono (Nat.le_succ _)) hnames
      (hnamed.of_children rfl rfl : (Element.keepMarkup _ (String.ofList markup)).Named)

theorem Forest.Yields.named {text : List Char} {limit fresh position n : Nat} {f : Forest}
    {root : Element} (h : f.Yields text limit fresh position root n)
    (hnames : ∀ entry ∈ f.tags fresh, ∀ pair ∈ entry.2.pairs, isXmlName pair.1.toList = true) :
    root.Named ∧ root.nesting ≤ limit := by
  refine ⟨?_, h.nesting_le⟩
  induction h with
  | leaf _ _ ih => exact ih hnames
  | @root position n f next branch child inner hf hlimit hopen hinside _ =>
    obtain ⟨hopened, _⟩ := Element.grown_open hopen
    rw [Forest.tags_known hf (Tag.isKnown_of_open? hopen)] at hnames
    have hnamedChild := Element.named_open hopen (hnames (fresh, branch.tag) (by simp))
    have hnamed := hinside.named hopened (fun entry hentry => hnames entry (by simp [hentry]))
      hnamedChild
    exact hnamed.of_children rfl rfl

theorem relates_fragment {text : List Char} (hmark : byteOrderMark text = []) :
    Relates (byteOrderMark text) text fun fragment excerpt =>
      '<' ∉ excerpt.tag.content → IsFragment fragment.toList := by
  intro r mid f next b markup holder hf hknown hr hmid hin hmarkup hbracket
  obtain ⟨before, htext, hconsumed⟩ := hin
  have hrest := hr.rest
  rw [(Forest.tokens_branch hf).2] at hrest
  rw [hmark, List.nil_append, hrest] at htext
  rw [hconsumed, htext] at hmarkup
  have hverbatim := (excerpt?_verbatim_iff hmarkup).mpr hbracket
  obtain ⟨f', hf'⟩ : ∃ f' : Forest, f'.branch? = some (b, .nil) := by
    cases f with
    | nil | leaf => cases hf
    | empty tag => exact ⟨.empty tag .nil, by cases hf; rfl⟩
    | element tag children closing => exact ⟨.element tag children closing .nil, by cases hf; rfl⟩
  rw [String.toList_ofList]
  exact ⟨f', b, hf', hknown, hbracket, hverbatim.symm, r, mid, hr, hmid⟩

theorem exists_of_forall₂ {α β : Type} {R : α → β → Prop} {as : List α} {bs : List β}
    (h : List.Forall₂ R as bs) {a : α} (ha : a ∈ as) : ∃ b ∈ bs, R a b := by
  induction h with
  | nil => cases ha
  | cons hfirst _ ih =>
    cases List.mem_cons.mp ha with
    | inl heq =>
      subst heq
      exact ⟨_, List.mem_cons_self, hfirst⟩
    | inr hmem =>
      obtain ⟨b, hb, hrelated⟩ := ih hmem
      exact ⟨b, List.mem_cons_of_mem _ hb, hrelated⟩

theorem isFragment_of_parse {limit fresh : Nat} {text : String} {root : Element} {n : Nat}
    (h : parseDocument limit fresh text = .ok (root, n)) (hmark : byteOrderMark text.toList = [])
    (hbracket : ∀ x ∈ documentExcerpts fresh text.toList, '<' ∉ x.tag.content) :
    ∀ e ∈ root.all, ∀ markup ∈ e.head.unknown, IsFragment markup.toList := by
  obtain ⟨last, position, hall, _⟩ := readsAll_documentForest h
  have hyields := Forest.yields_of_parse h
  obtain ⟨hgrown, _⟩ := hyields.grown
  have hconsumed : (Reader.start text.toList).consumed = 0 := by
    unfold Reader.start
    split <;> rfl
  intro e he markup hmarkup
  have hkept := hyields.kept (relates_fragment hmark) hall (isIn_start _) hconsumed fresh e.id
  rw [hgrown.kept_of_mem he] at hkept
  obtain ⟨x, hx, hrelated⟩ := exists_of_forall₂ hkept hmarkup
  exact hrelated (hbracket x (List.mem_of_mem_filter hx))

/--
The root of a document writes a document again if the attributes of the known elements have names of XML,
unknown elements are captured verbatim and coordinates read what they write. The root of that document
has the same raw text, whatever white space the first one adds.
-/
theorem raw_of_parse_write {limit fresh n : Nat} {text : String} {root : Element} {style : Style}
    (h : parseDocument limit fresh text = .ok (root, n)) (hmark : text.toList.head? ≠ some '\ufeff')
    (hnames : ∀ entry ∈ documentTags fresh text.toList, ∀ pair ∈ entry.2.pairs,
      isXmlName pair.1.toList = true)
    (hbracket : ∀ x ∈ documentExcerpts fresh text.toList, '<' ∉ x.tag.content)
    (hcoordinates : ∀ e ∈ root.all, ∀ positions skipped, e.body = .coordinates positions skipped →
      readPositions (positionsText positions skipped).toList = (positions, skipped))
    (hstyle : style.IsWhite) (fresh' : Nat) :
    ∃ root' n', parseDocument limit fresh' (root.write style) = .ok (root', n')
      ∧ root'.raw = root.raw := by
  have hyields := Forest.yields_of_parse h
  obtain ⟨hgrown, _⟩ := hyields.grown
  obtain ⟨hnamed, hnesting⟩ := hyields.named hnames
  have hfragments := isFragment_of_parse h (if_neg hmark) hbracket
  have hsettled : ∀ x ∈ root.all, x.Settled := by
    intro x hx
    exact ⟨hgrown.regular x hx, hnamed x hx, hfragments x hx, hcoordinates x hx⟩
  obtain ⟨root', n', hparse, hbare⟩ := Element.parse_write hsettled hstyle hnesting fresh'
  exact ⟨root', n', hparse, Element.write_of_bare hbare .raw⟩

/--
A document with stray text, an unknown element, a second name, a second geometry and a tuple that is no
position.
-/
def strayDocument : String :=
  "<Folder hint='&lt;&amp;'> stray<Placemark><name>A</name><name>B</name><x:y k='v'/>"
    ++ "<Point><coordinates> 1.5, 2 ,-3 far 4,5</coordinates></Point><Point/></Placemark></Folder>"

theorem raw_of_parse_write_stray :
    ∃ root n root' n', parseDocument 4 0 strayDocument = .ok (root, n)
      ∧ parseDocument 4 n (root.write .pretty) = .ok (root', n') ∧ root'.raw = root.raw := by
  have hreads : (parseDocument 4 0 strayDocument).toOption.any (fun result =>
      result.1.all.all fun e =>
        readPositions (positionsText e.body.positions e.body.skipped).toList
          == (e.body.positions, e.body.skipped)) = true := by
    decide +kernel
  obtain ⟨⟨root, n⟩, h⟩ := exists_eq_ok (Option.isSome_of_any hreads)
  have hcoordinates : ∀ e ∈ root.all, ∀ positions skipped, e.body = .coordinates positions skipped →
      readPositions (positionsText positions skipped).toList = (positions, skipped) := by
    intro e he positions skipped hbody
    rw [h] at hreads
    have hread := List.all_eq_true.mp hreads e he
    rw [hbody] at hread
    exact eq_of_beq hread
  obtain ⟨root', n', hparse, hraw⟩ := raw_of_parse_write h (by decide +kernel) (by decide +kernel)
    (by decide +kernel) hcoordinates Style.isWhite_pretty n
  exact ⟨root, n, root', n', h, hparse, hraw⟩

end KmlTree
