import KmlTree.Proofs.Document.AttributeTally
import KmlTree.Proofs.Document.Offer
import KmlTree.Proofs.Document.Verbatim
import KmlTree.Proofs.Element.Census

/-!
This module contains the comparison of the elements in a text with those that its root is described with:
none is lost and none is there twice (`elements_conserved`).
-/

namespace KmlTree

namespace Forest

/--
The census of a forest: the kind of each of its elements, and a blank entry for each one that is not of
the catalog. Nothing inside of those is looked at.
-/
def census : Forest → List (Option Kind)
  | nil => []
  | leaf _ _ next => next.census
  | empty tag next => Kind.ofTag? tag.name :: next.census
  | element tag children _ next =>
    Kind.ofTag? tag.name :: (if tag.isKnown then children.census else []) ++ next.census

variable {f next : Forest} {b : Branch} {fresh : Nat}

theorem census_known (h : f.branch? = some (b, next)) (hknown : b.tag.isKnown = true) :
    f.census = Kind.ofTag? b.tag.name :: b.children.census ++ next.census := by
  cases f with
  | nil | leaf => cases h
  | empty | element =>
    cases h
    dsimp only at hknown
    simp [census, hknown]

theorem census_unknown (h : f.branch? = some (b, next)) (hknown : b.tag.isKnown = false) :
    f.census = none :: next.census := by
  have hnone : Kind.ofTag? b.tag.name = none := by
    unfold Tag.isKnown at hknown
    simpa using hknown
  cases f with
  | nil | leaf => cases h
  | empty | element =>
    cases h
    dsimp only at hknown hnone
    simp [census, hknown, hnone]

theorem census_isQuiet (h : f.isQuiet = true) : f.census = [] := by
  apply quietInduction h
  . rfl
  . intro l source next ih
    exact ih

theorem count_some_census (f : Forest) (fresh : Nat) (kind : Kind) :
    f.census.count (some kind)
      = (f.tags fresh).countP fun entry => Kind.ofTag? entry.2.name == some kind := by
  induction f using branchInduction generalizing fresh with
  | nil => rfl
  | leaf l source next ih => exact ih fresh
  | branch f b next hf ihchildren ihnext =>
    cases hknown : b.tag.isKnown with
    | false =>
      rw [census_unknown hf hknown, tags_unknown hf hknown, List.count_cons, ihnext (fresh + 1)]
      simp
    | true =>
      rw [census_known hf hknown, tags_known hf hknown, List.cons_append, List.cons_append,
        List.count_cons, List.count_append, List.countP_cons, List.countP_append,
        ihchildren (fresh + 1), ihnext (fresh + 1 + b.children.count)]

theorem count_none_census (f : Forest) (holder fresh : Nat) :
    f.census.count none = (f.excerpts holder fresh).length := by
  induction f using branchInduction generalizing holder fresh with
  | nil => rfl
  | leaf l source next ih => exact ih holder fresh
  | branch f b next hf ihchildren ihnext =>
    cases hknown : b.tag.isKnown with
    | false =>
      rw [census_unknown hf hknown, excerpts_unknown hf hknown, List.count_cons, List.length_cons,
        ihnext holder (fresh + 1)]
      simp
    | true =>
      have hsome : (Kind.ofTag? b.tag.name == none) = false := by
        obtain ⟨kind, hkind⟩ := Option.isSome_iff_exists.mp hknown
        rw [hkind]
        rfl
      rw [census_known hf hknown, excerpts_known hf hknown, List.cons_append, List.count_cons, hsome,
        List.count_append, List.length_append, ihchildren fresh (fresh + 1),
        ihnext holder (fresh + 1 + b.children.count)]
      simp

end Forest

theorem Element.census_open {fresh : Nat} {tag : Tag} {e : Element} (h : tag.open? fresh = some e) :
    e.census = [Kind.ofTag? tag.name] := by
  obtain ⟨body, a, hkind, hcreate, _, rfl⟩ := Tag.open?_spec h
  have hvalues := values_create hcreate (a.erase "xmlns")
  have hsame := Body.kind_takeAttributes body (a.erase "xmlns")
  rw [openWith_ofBody, census_eq, hkind]
  unfold ownCensus
  dsimp only [ofBody] at hvalues ⊢
  rw [hvalues]
  unfold kind
  dsimp only
  rw [hsame]
  rfl

namespace Forest

/--
An element inside of which a forest is read has the entries of the forest besides its own.
-/
theorem Feeds.census {text : List Char} {limit depth position fresh fresh' : Nat}
    {frame frame' : Frame} {f : Forest}
    (h : Feeds text limit depth position frame fresh f frame' fresh')
    (hg : frame.element.Grown fresh) :
    frame'.element.census.Perm (frame.element.census ++ f.census) := by
  induction h with
  | nil =>
    unfold Forest.census
    rw [List.append_nil]
  | leaf _ _ ih => exact ih hg
  | @known depth position fresh fresh'' frame frame' f next branch child inner fresh' hf _ hopen
      hinside _ ihinside ihnext =>
    obtain ⟨hopened, _⟩ := Element.grown_open hopen
    obtain ⟨htakes, _⟩ := hinside.takes hopen hg
    have hinner : inner.closed.census.Perm
        (Kind.ofTag? branch.tag.name :: branch.children.census) := by
      have hclosed : inner.closed.census = inner.element.census := Element.census_setText _ _
      rw [hclosed]
      have hread := ihinside hopened
      rw [Element.census_open hopen] at hread
      exact hread
    have hoffered := (Element.census_added htakes.added htakes.grown.self).trans (hinner.append_left _)
    rw [census_known hf (Tag.isKnown_of_open? hopen), ← List.append_assoc]
    exact (ihnext htakes.offered).trans (hoffered.append_right _)
  | @unknown depth position fresh fresh' frame frame' f next branch markup hf _ hknown _ _ ih =>
    have hoffered := Element.census_keepMarkup frame.element (String.ofList markup)
    have hrest := (ih ((hg.keepMarkup _).mono (Nat.le_succ _))).trans (hoffered.append_right _)
    rw [List.append_assoc] at hrest
    rw [census_unknown hf hknown]
    exact hrest

theorem Yields.census {text : List Char} {limit fresh position n : Nat} {f : Forest} {root : Element}
    (h : f.Yields text limit fresh position root n) : root.census.Perm f.census := by
  induction h with
  | leaf _ _ ih => exact ih
  | root hf _ hopen hinside hquiet =>
    obtain ⟨hopened, _⟩ := Element.grown_open hopen
    have hread := hinside.census hopened
    rw [Element.census_open hopen] at hread
    unfold Frame.closed
    rw [Element.census_setText, census_known hf (Tag.isKnown_of_open? hopen), census_isQuiet hquiet,
      List.append_nil]
    exact hread

end Forest

theorem Kind.ofTag?_eq_iff {tag name : String} {kind : Kind} (h : ofTag? tag = some kind) :
    ofTag? name = some kind ↔ name = tag := by
  constructor
  . intro hname
    have hsame := (tag?_of_ofTag? hname).symm.trans (tag?_of_ofTag? h)
    exact Option.some.inj hsame
  . rintro rfl
    exact h

/--
No element of a document is lost and none is there twice. Of each kind of the catalog as many elements
begin in the description of the root as there are start tags of it outside of captured markup, and as many
pieces of markup are kept in the tree as there are elements that are captured. At every step of the
parsing, a child that is offered to an open element can be claimed for it.
-/
theorem elements_conserved {limit fresh : Nat} {text : String} {root : Element} {n : Nat}
    (h : parseDocument limit fresh text = .ok (root, n)) :
    (∀ tag kind, Kind.ofTag? tag = some kind →
      (documentTags fresh text.toList).countP (fun entry => entry.2.name = tag)
        = (Emission.roll root.emissions).count kind)
      ∧ (documentExcerpts fresh text.toList).length
        = (root.all.flatMap fun e => e.head.unknown).length
      ∧ ∀ before event after,
        (Reader.start text.toList).transcript.events = before ++ event :: after →
          ∃ b b', before.foldlM (Builder.step text.toList limit) (.start fresh) = .ok b
            ∧ b.step text.toList limit event = .ok b'
            ∧ Builder.Turn b.fresh b.elements (b.offered? text.toList event) b'.fresh b'.elements
            ∧ ∀ owner child, b.offered? text.toList event = some (owner, child) →
              (child.claim? owner.id).isSome = true := by
  have hyields := Forest.yields_of_parse h
  have hcensus := hyields.census
  refine ⟨?_, ?_, ?_⟩
  . intro tag kind hkind
    rw [← root.count_some_census hyields.grown.1.regular kind, hcensus.count_eq,
      Forest.count_some_census _ fresh]
    unfold documentTags
    apply List.countP_congr
    intro entry _
    simp [Kind.ofTag?_eq_iff hkind]
  . rw [← root.count_none_census, hcensus.count_eq, Forest.count_none_census _ fresh fresh]
    rfl
  . intro before event after hevents
    unfold parseDocument at h
    obtain ⟨builder, hrun, _⟩ := bind_eq_ok.mp h
    rw [hevents, List.foldlM_append] at hrun
    obtain ⟨b, hbefore, hrest⟩ := bind_eq_ok.mp hrun
    rw [List.foldlM_cons] at hrest
    obtain ⟨b', hstep, _⟩ := bind_eq_ok.mp hrest
    refine ⟨b, b', hbefore, hstep, Builder.turn_of_step hstep, ?_⟩
    intro owner child hoffered
    rw [Builder.claim_of_offered hbefore hstep hoffered]
    rfl

/--
A folder that reads one name, keeps the other one, and captures two elements.
-/
theorem elements_conserved_names :
    ∃ root n, parseDocument 100 0 "<Folder><name>A</name><x><name/></x><name>B</name><y/></Folder>"
          = .ok (root, n)
        ∧ (Emission.roll root.emissions).count .name = 2
        ∧ (root.all.flatMap fun e => e.head.unknown).length = 2 := by
  have haccepted : (parseDocument 100 0
      "<Folder><name>A</name><x><name/></x><name>B</name><y/></Folder>").toOption.isSome = true := by
    decide +kernel
  obtain ⟨⟨root, n⟩, h⟩ := exists_eq_ok haccepted
  obtain ⟨htags, hmarkup, _⟩ := elements_conserved h
  refine ⟨root, n, h, ?_, ?_⟩
  . rw [← htags "name" .name (by decide)]
    decide +kernel
  . rw [← hmarkup]
    decide +kernel

end KmlTree
