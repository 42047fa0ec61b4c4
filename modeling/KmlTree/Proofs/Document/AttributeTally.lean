import KmlTree.Proofs.Document.Growth
import KmlTree.Proofs.Element.Tally
import KmlTree.Proofs.Markup.Tag

/-!
This module contains the comparison of the attributes in a text with those that its root is described
with. A default namespace is lost with an element that is read into a value of the element around it;
nothing else is.
-/

namespace KmlTree

/--
The attributes of a start tag, each with the kind that has the name of the tag.
-/
def Tag.tally (t : Tag) : List (Kind × String × String) :=
  match Kind.ofTag? t.name with
  | some kind => t.pairs.map (kind, ·)
  | none => []

namespace Forest

/--
The start tags of a forest that are of the catalog and not inside of captured markup, each with the
number that its element gets. The first one is `fresh`.
-/
def tags (fresh : Nat) : Forest → List (Nat × Tag)
  | nil => []
  | leaf _ _ next => next.tags fresh
  | empty tag next =>
    if tag.isKnown then (fresh, tag) :: next.tags (fresh + 1) else next.tags (fresh + 1)
  | element tag children _ next =>
    if tag.isKnown then
      (fresh, tag) :: children.tags (fresh + 1) ++ next.tags (fresh + 1 + children.count)
    else
      next.tags (fresh + 1)

variable {f next : Forest} {b : Branch} {fresh : Nat}

theorem tags_known (h : f.branch? = some (b, next)) (hknown : b.tag.isKnown = true) :
    f.tags fresh
      = (fresh, b.tag) :: b.children.tags (fresh + 1) ++ next.tags (fresh + 1 + b.children.count) := by
  cases f with
  | nil | leaf => cases h
  | empty | element =>
    cases h
    dsimp only at hknown
    simp [tags, hknown, count]

theorem tags_unknown (h : f.branch? = some (b, next)) (hknown : b.tag.isKnown = false) :
    f.tags fresh = next.tags (fresh + 1) := by
  cases f with
  | nil | leaf => cases h
  | empty | element =>
    cases h
    dsimp only at hknown
    simp [tags, hknown]

theorem tags_isQuiet (h : f.isQuiet = true) : f.tags fresh = [] := by
  apply quietInduction h
  . rfl
  . intro l source next ih
    exact ih

theorem mem_tags {entry : Nat × Tag} (h : entry ∈ f.tags fresh) :
    fresh ≤ entry.1 ∧ entry.1 < fresh + f.count ∧ entry.2.isKnown = true := by
  induction f using branchInduction generalizing fresh with
  | nil => cases h
  | leaf l source next ih => exact ih h
  | branch f b next hf ihchildren ihnext =>
    rw [count_branch hf]
    cases hknown : b.tag.isKnown with
    | false =>
      rw [tags_unknown hf hknown] at h
      obtain ⟨_, _, hentry⟩ := ihnext h
      refine ⟨by omega, ?_, hentry⟩
      rw [if_neg (by simp)]
      omega
    | true =>
      rw [tags_known hf hknown, List.mem_append, List.mem_cons] at h
      rw [if_pos rfl]
      rcases h with (rfl | hchildren) | hnext
      . refine ⟨Nat.le_refl fresh, ?_, hknown⟩
        dsimp only
        omega
      . obtain ⟨_, _, hentry⟩ := ihchildren hchildren
        exact ⟨by omega, by omega, hentry⟩
      . obtain ⟨_, _, hentry⟩ := ihnext hnext
        exact ⟨by omega, by omega, hentry⟩

end Forest

namespace Element

theorem ownTally_open {fresh : Nat} {tag : Tag} {e : Element} (h : tag.open? fresh = some e) :
    e.ownTally.Perm tag.tally := by
  obtain ⟨body, a, hkind, hcreate, ha, rfl⟩ := Tag.open?_spec h
  have hperm := Attributes.perm_of_get? (get?_attributes_openWith hcreate a)
  have hsame : ((ofBody fresh body).openWith a).kind = body.kind := by
    rw [openWith_ofBody]
    exact Body.kind_takeAttributes _ _
  rw [Tag.entries_attributes ha] at hperm
  unfold ownTally Tag.tally
  rw [hkind, hsame]
  exact hperm.map _

theorem tally_open {fresh : Nat} {tag : Tag} {e : Element} (h : tag.open? fresh = some e) :
    e.tally.Perm tag.tally := by
  have hchildren : e.placed ++ e.misplaced = [] := by
    obtain ⟨body, a, _, _, _, rfl⟩ := Tag.open?_spec h
    rw [openWith_ofBody]
    rfl
  rw [tally_eq, hchildren, List.flatMap_nil, List.append_nil]
  exact ownTally_open h

theorem tally_setText (e : Element) (text : String) : (e.setText text).tally = e.tally := by
  have halike := e.body.alike_readText text
  have hown : (e.setText text).ownTally = e.ownTally := by
    unfold ownTally attributes putAttributes
    rw [kind_setText]
    have hbody := halike.putAttributes ∅
    unfold setText
    dsimp only
    rw [hbody]
    rfl
  rw [tally_eq, tally_eq e, hown]
  rfl

theorem ids_setText (e : Element) (text : String) : (e.setText text).ids = e.ids := by
  rw [ids_eq, ids_eq e]
  rfl

theorem tally_keepMarkup (e : Element) (markup : String) : (e.keepMarkup markup).tally = e.tally := by
  rw [tally_eq, tally_eq e]
  rfl

theorem ids_keepMarkup (e : Element) (markup : String) : (e.keepMarkup markup).ids = e.ids := by
  rw [ids_eq, ids_eq e]
  rfl

theorem tally_added {owner child e : Element} (h : Added owner child e)
    (hchild : child.body.isListed = true) :
    e.tally.Perm (owner.tally ++ child.tally) ∧ e.ids.Perm (owner.ids ++ child.ids)
      ∨ e.tally = owner.tally ∧ e.ids = owner.ids ∧ child.isPlain = true
        ∧ ∃ kind, child.body = .field kind := by
  cases h with
  | markup m hbody =>
    rw [hbody] at hchild
    cases hchild
  | placed =>
    left
    rw [tally_eq, tally_eq owner, ids_eq, ids_eq owner]
    simp only [List.flatMap_append, List.flatMap_cons, List.flatMap_nil, tally_inside, ids_inside,
      List.append_assoc, List.cons_append]
    constructor
    . apply List.Perm.append_left
      apply List.Perm.append_left
      exact List.perm_append_comm
    . apply List.Perm.cons
      apply List.Perm.append_left
      exact List.perm_append_comm
  | absorbed body hplace habsorb =>
    right
    obtain ⟨halike, hplain, hfield⟩ := Body.absorb?_spec habsorb
    refine ⟨?_, ?_, hplain, hfield⟩
    . have hown : ownTally { owner with body := body } = owner.ownTally := by
        unfold ownTally attributes putAttributes
        dsimp only
        rw [halike.putAttributes]
        have hkind : kind { owner with body := body } = owner.kind := halike.kind
        rw [hkind]
      rw [tally_eq, tally_eq owner, hown]
    . rw [ids_eq, ids_eq owner]
      rfl
  | misplaced =>
    left
    rw [tally_eq, tally_eq owner, ids_eq, ids_eq owner]
    simp only [List.flatMap_append, List.flatMap_cons, List.flatMap_nil, tally_inside, ids_inside,
      List.append_nil, List.append_assoc, List.cons_append]
    exact ⟨List.Perm.refl _, List.Perm.refl _⟩

theorem tally_plain {e : Element} {kind : Kind} (hregular : e.Regular) (hplain : e.isPlain = true)
    (hbody : e.body = .field kind) : e.tally = e.ownTally ∧ e.ids = [e.id]
      ∧ ∀ entry ∈ e.ownTally, entry.2.1 = "xmlns" := by
  obtain ⟨hplaced, hmisplaced, _, hattributes⟩ := hregular.of_isPlain hplain hbody
  refine ⟨?_, ?_, ?_⟩
  . rw [tally_eq, hplaced, hmisplaced]
    simp
  . rw [ids_eq, hplaced, hmisplaced]
    rfl
  . intro entry hentry
    unfold ownTally at hentry
    rw [List.mem_map] at hentry
    obtain ⟨⟨name, value⟩, hmem, rfl⟩ := hentry
    rw [Attributes.mem_entries] at hmem
    unfold attributes putAttributes Head.putAttributes at hmem
    rw [hattributes, hbody] at hmem
    dsimp only at hmem ⊢
    rw [Attributes.get?_set?] at hmem
    split at hmem
    . next hname => exact hname
    . cases hmem

end Element

/--
What a tree with the given numbers keeps of the attributes of a numbered start tag. Where its number is
missing the default namespace is lost.
-/
def keptTally (ids : List Nat) (entry : Nat × Tag) : List (Kind × String × String) :=
  if entry.1 ∈ ids then
    entry.2.tally
  else
    entry.2.tally.filter fun item => item.2.1 != "xmlns"

theorem keptTally_of_mem {ids : List Nat} {entry : Nat × Tag} (h : entry.1 ∈ ids) :
    keptTally ids entry = entry.2.tally :=
  if_pos h

theorem xmlns_notMem_keptTally {ids : List Nat} {entry : Nat × Tag} (h : entry.1 ∉ ids) :
    ∀ item ∈ keptTally ids entry, item.2.1 ≠ "xmlns" := by
  intro item hitem
  unfold keptTally at hitem
  rw [if_neg h] at hitem
  simpa using List.of_mem_filter hitem

theorem flatMap_keptTally_congr {ids ids' : List Nat} {entries : List (Nat × Tag)}
    (h : ∀ entry ∈ entries, entry.1 ∈ ids ↔ entry.1 ∈ ids') :
    entries.flatMap (keptTally ids) = entries.flatMap (keptTally ids') := by
  apply List.flatMap_congr
  intro entry hentry
  unfold keptTally
  simp only [h entry hentry]

theorem Element.Grown.notMem_ids {stop : Nat} {e : Element} (h : e.Grown stop) {n : Nat}
    (hn : stop ≤ n) : n ∉ e.ids := by
  intro hmem
  obtain ⟨x, hx, rfl⟩ := Element.mem_ids.mp hmem
  have := h.id_le hx
  omega

namespace Frame.Takes

variable {frame inner : Frame} {fresh fresh' : Nat} {tag : Tag} {child : Element} {f : Forest}
  {ids : List Nat}

theorem mem_ids (h : frame.Takes inner fresh fresh') {n : Nat} (hn : n < fresh) :
    n ∈ (frame.offer inner.closed).element.ids ↔ n ∈ frame.element.ids := by
  cases Element.tally_added h.added h.grown.self.listed with
  | inl hkept =>
    rw [hkept.2.mem_iff, List.mem_append, or_iff_left]
    intro hmem
    obtain ⟨x, hx, rfl⟩ := Element.mem_ids.mp hmem
    have := h.grown.id_le hx
    have := h.id
    omega
  | inr habsorbed => rw [habsorbed.2.1]

/--
The tags of an element that its parent keeps are kept as they are in the element.
-/
theorem keptTally_offer (h : frame.Takes inner fresh fresh') (hg : frame.element.Grown fresh)
    (hcount : fresh' = fresh + 1 + f.count)
    (hids : ∀ n < fresh', n ∈ ids ↔ n ∈ (frame.offer inner.closed).element.ids)
    (hmore : (frame.offer inner.closed).element.ids.Perm (frame.element.ids ++ inner.closed.ids)) :
    keptTally ids (fresh, tag) ++ (f.tags (fresh + 1)).flatMap (keptTally ids)
      = tag.tally ++ (f.tags (fresh + 1)).flatMap (keptTally inner.closed.ids) := by
  have hmem : ∀ n, fresh ≤ n → n < fresh' → (n ∈ ids ↔ n ∈ inner.closed.ids) := by
    intro n hle hlt
    rw [hids n hlt, hmore.mem_iff, List.mem_append, or_iff_right (hg.notMem_ids hle)]
  have hself : fresh ∈ inner.closed.ids :=
    Element.mem_ids.mpr ⟨inner.closed, Element.mem_all_self _, h.id⟩
  have htag : keptTally ids (fresh, tag) = tag.tally := by
    apply keptTally_of_mem
    exact (hmem fresh (Nat.le_refl _) (by omega)).mpr hself
  have hchildren : (f.tags (fresh + 1)).flatMap (keptTally ids)
      = (f.tags (fresh + 1)).flatMap (keptTally inner.closed.ids) := by
    apply flatMap_keptTally_congr
    intro entry hentry
    have := Forest.mem_tags hentry
    exact hmem entry.1 (by omega) (by omega)
  rw [htag, hchildren]

/--
Nothing is kept of the tags of an element that goes into a value of its parent: they have only default
namespaces, and these are lost.
-/
theorem keptTally_absorbed (h : frame.Takes inner fresh fresh')
    (hcount : fresh' = fresh + 1 + f.count) (hone : inner.closed.ids = [inner.closed.id])
    (hnone : ∀ n, fresh ≤ n → n < fresh' → n ∉ ids)
    (hall : ∀ item ∈ tag.tally ++ (f.tags (fresh + 1)).flatMap (keptTally inner.closed.ids),
      item.2.1 = "xmlns") :
    keptTally ids (fresh, tag) ++ (f.tags (fresh + 1)).flatMap (keptTally ids) = [] := by
  have hnumber : ∀ entry ∈ f.tags (fresh + 1), entry.1 ∉ ids ∧ entry.1 ≠ fresh := by
    intro entry hentry
    have := Forest.mem_tags hentry
    exact ⟨hnone entry.1 (by omega) (by omega), by omega⟩
  have htag : keptTally ids (fresh, tag) = [] := by
    unfold keptTally
    rw [if_neg (hnone fresh (Nat.le_refl _) (by omega)), List.filter_eq_nil_iff]
    intro item hitem
    simpa using hall item (List.mem_append_left _ hitem)
  have hcongr : (f.tags (fresh + 1)).flatMap (keptTally ids)
      = (f.tags (fresh + 1)).flatMap (keptTally inner.closed.ids) := by
    apply flatMap_keptTally_congr
    intro entry hentry
    obtain ⟨hnot, hne⟩ := hnumber entry hentry
    rw [hone, List.mem_singleton, h.id]
    exact iff_of_false hnot hne
  rw [htag, List.nil_append, List.eq_nil_iff_forall_not_mem]
  intro item hitem
  obtain ⟨entry, hentry, hkept⟩ := List.mem_flatMap.mp hitem
  rw [hcongr] at hitem
  exact xmlns_notMem_keptTally (hnumber entry hentry).1 item hkept
    (hall item (List.mem_append_right _ hitem))

/--
What a frame is described with after it has taken in an element that was opened by a tag and filled with
a forest. The list `ids` agrees with the numbers in the frame.
-/
theorem tally_offer (h : frame.Takes inner fresh fresh') (hg : frame.element.Grown fresh)
    (hcount : fresh' = fresh + 1 + f.count)
    (hids : ∀ n < fresh', n ∈ ids ↔ n ∈ (frame.offer inner.closed).element.ids)
    (hinner : inner.closed.tally.Perm
      (tag.tally ++ (f.tags (fresh + 1)).flatMap (keptTally inner.closed.ids))) :
    (frame.offer inner.closed).element.tally.Perm
      (frame.element.tally
        ++ (keptTally ids (fresh, tag) ++ (f.tags (fresh + 1)).flatMap (keptTally ids))) := by
  cases Element.tally_added h.added h.grown.self.listed with
  | inl hkept =>
    obtain ⟨htally, hmore⟩ := hkept
    rw [h.keptTally_offer hg hcount hids hmore]
    exact htally.trans (hinner.append_left _)
  | inr habsorbed =>
    obtain ⟨htally, hsame, hplain, kind, hbody⟩ := habsorbed
    obtain ⟨hown, hone, hxmlns⟩ := Element.tally_plain h.grown.self hplain hbody
    have hnone : ∀ n, fresh ≤ n → n < fresh' → n ∉ ids := by
      intro n hle hlt
      rw [hids n hlt, hsame]
      exact hg.notMem_ids hle
    have hall : ∀ item ∈ tag.tally ++ (f.tags (fresh + 1)).flatMap (keptTally inner.closed.ids),
        item.2.1 = "xmlns" := by
      intro item hitem
      apply hxmlns
      rw [← hown]
      exact hinner.mem_iff.mpr hitem
    rw [h.keptTally_absorbed hcount hone hnone hall, List.append_nil, htally]

end Frame.Takes

namespace Forest

theorem Feeds.mem_ids {text : List Char} {limit depth position fresh fresh' : Nat}
    {frame frame' : Frame} {f : Forest}
    (h : Feeds text limit depth position frame fresh f frame' fresh')
    (hg : frame.element.Grown fresh) {m : Nat} (hm : m < fresh) :
    m ∈ frame'.element.ids ↔ m ∈ frame.element.ids := by
  -- All that is taken in has numbers from `fresh` on.
  induction h with
  | nil => rfl
  | leaf _ _ ih => exact ih hg hm
  | known inner fresh' hf _ hopen hinside hnext _ ih =>
    obtain ⟨htakes, hcount⟩ := hinside.takes hopen hg
    rw [ih htakes.offered (by omega)]
    exact htakes.mem_ids hm
  | @unknown depth position fresh fresh' frame frame' f next branch markup _ _ _ _ _ ih =>
    rw [ih ((hg.keepMarkup _).mono (Nat.le_succ _)) (by omega)]
    rw [← Element.ids_keepMarkup frame.element (String.ofList markup)]
    rfl

theorem Feeds.tally {text : List Char} {limit depth position fresh fresh' : Nat}
    {frame frame' : Frame} {f : Forest}
    (h : Feeds text limit depth position frame fresh f frame' fresh')
    (hg : frame.element.Grown fresh) :
    frame'.element.tally.Perm
      (frame.element.tally ++ (f.tags fresh).flatMap (keptTally frame'.element.ids)) := by
  induction h with
  | nil =>
    simp only [tags, List.flatMap_nil, List.append_nil]
    exact List.Perm.refl _
  | leaf _ _ ih => exact ih hg
  | @known depth position fresh fresh'' frame frame' f next branch child inner fresh' hf _ hopen
      hinside hnext ihinside ihnext =>
    obtain ⟨hopened, _⟩ := Element.grown_open hopen
    obtain ⟨htakes, hcount⟩ := hinside.takes hopen hg
    -- The number of the closed element decides for the tags in it, and later the one of the frame does.
    have hinner : inner.closed.tally.Perm
        (branch.tag.tally
          ++ (branch.children.tags (fresh + 1)).flatMap (keptTally inner.closed.ids)) := by
      have hclosed : inner.closed.tally = inner.element.tally := Element.tally_setText _ _
      have hids : inner.closed.ids = inner.element.ids := Element.ids_setText _ _
      rw [hclosed, hids]
      exact (ihinside hopened).trans ((Element.tally_open hopen).append_right _)
    -- What stands behind the element does not change which of the numbers before it are in the tree.
    have hoffer := htakes.tally_offer hg hcount (fun n hn => hnext.mem_ids htakes.offered hn) hinner
    have hrest := ihnext htakes.offered
    rw [hcount] at hrest
    rw [tags_known hf (Tag.isKnown_of_open? hopen), List.cons_append, List.flatMap_cons,
      List.flatMap_append, ← List.append_assoc, ← List.append_assoc]
    apply hrest.trans
    apply List.Perm.append_right
    rw [List.append_assoc]
    exact hoffer
  | @unknown depth position fresh fresh' frame frame' f next branch markup hf _ hknown _ _ ih =>
    rw [tags_unknown hf hknown]
    have hrest := ih ((hg.keepMarkup _).mono (Nat.le_succ _))
    rw [← Element.tally_keepMarkup frame.element (String.ofList markup)]
    exact hrest

theorem Yields.tally {text : List Char} {limit fresh position n : Nat} {f : Forest} {root : Element}
    (h : f.Yields text limit fresh position root n) :
    root.tally.Perm ((f.tags fresh).flatMap (keptTally root.ids)) := by
  induction h with
  | leaf _ _ ih => exact ih
  | @root position n f next branch child inner hf _ hopen hinside hquiet =>
    obtain ⟨hopened, hid⟩ := Element.grown_open hopen
    obtain ⟨_, _, hsame⟩ := hinside.grown hopened
    have hinner := hinside.tally hopened
    have hself : fresh ∈ inner.element.ids :=
      Element.mem_ids.mpr ⟨_, Element.mem_all_self _, hsame.trans hid⟩
    have htag : keptTally inner.element.ids (fresh, branch.tag) = branch.tag.tally := by
      unfold keptTally
      rw [if_pos hself]
    unfold Frame.closed
    rw [tags_known hf (Tag.isKnown_of_open? hopen), tags_isQuiet hquiet, List.append_nil,
      List.flatMap_cons, Element.tally_setText, Element.ids_setText, htag]
    exact hinner.trans ((Element.tally_open hopen).append_right _)

end Forest

theorem length_flatMap_le {α β : Type} {l : List α} {f g : α → List β}
    (h : ∀ x ∈ l, (g x).Sublist (f x)) : (l.flatMap g).length ≤ (l.flatMap f).length := by
  induction l with
  | nil => simp
  | cons x l ih =>
    have hx := (h x (by simp)).length_le
    have hl := ih fun y hy => h y (by simp [hy])
    simp only [List.flatMap_cons, List.length_append]
    omega

theorem perm_flatMap_iff {α β : Type} {l : List α} {f g : α → List β}
    (h : ∀ x ∈ l, (g x).Sublist (f x)) :
    (l.flatMap f).Perm (l.flatMap g) ↔ ∀ x ∈ l, g x = f x := by
  constructor
  . intro hperm
    have hlength := hperm.length_eq
    clear hperm
    induction l with
    | nil => simp
    | cons x l ih =>
      have hx := h x (by simp)
      have hl : ∀ y ∈ l, (g y).Sublist (f y) := fun y hy => h y (by simp [hy])
      have hxle := hx.length_le
      have hlle := length_flatMap_le hl
      simp only [List.flatMap_cons, List.length_append] at hlength
      intro y hy
      cases List.mem_cons.mp hy with
      | inl heq =>
        subst heq
        exact hx.eq_of_length (by omega)
      | inr hmem => exact ih hl (by omega) y hmem
  . intro hsame
    rw [List.flatMap_congr hsame]

/--
The start tags of a document that are of the catalog and not inside of captured markup, each with the
number that its element gets.
-/
def documentTags (fresh : Nat) (text : List Char) : List (Nat × Tag) :=
  (documentForest text).tags fresh

/--
All attributes of these start tags, each with the kind of its element.
-/
def documentAttributes (fresh : Nat) (text : List Char) : List (Kind × String × String) :=
  (documentTags fresh text).flatMap fun entry => entry.2.tally

theorem keptTally_sublist (ids : List Nat) (entry : Nat × Tag) :
    (keptTally ids entry).Sublist entry.2.tally := by
  unfold keptTally
  split
  . exact List.Sublist.refl _
  . exact List.filter_sublist

theorem keptTally_eq_iff {ids : List Nat} {entry : Nat × Tag} (h : entry.2.isKnown = true) :
    keptTally ids entry = entry.2.tally
      ↔ ((∃ value, ("xmlns", value) ∈ entry.2.pairs) → entry.1 ∈ ids) := by
  unfold Tag.isKnown at h
  obtain ⟨kind, hkind⟩ := Option.isSome_iff_exists.mp h
  unfold keptTally Tag.tally
  rw [hkind]
  dsimp only
  split
  . next hmem => simp [hmem]
  . next hmem =>
    rw [List.filter_eq_self]
    constructor
    . rintro hall ⟨value, hvalue⟩
      have := hall (kind, "xmlns", value) (List.mem_map_of_mem hvalue)
      simp at this
    . intro hnone item hitem
      obtain ⟨⟨name, value⟩, hpair, rfl⟩ := List.mem_map.mp hitem
      simp only [bne_iff_ne, ne_eq]
      rintro rfl
      exact hmem (hnone ⟨value, hpair⟩)

/--
The root of a document is described with the attributes of the document if and only if every start tag
that gives a default namespace belongs to an element that is in the tree.
-/
theorem attributes_perm_iff {limit fresh : Nat} {text : String} {root : Element} {n : Nat}
    (h : parseDocument limit fresh text = .ok (root, n)) :
    (documentAttributes fresh text.toList).Perm (Emission.tallyOf root.emissions)
      ↔ ∀ entry ∈ documentTags fresh text.toList,
        (∃ value, ("xmlns", value) ∈ entry.2.pairs) → entry.1 ∈ root.ids := by
  have hyields := Forest.yields_of_parse h
  have hperm := hyields.tally
  rw [Element.tallyOf_emissions root hyields.grown.1.regular]
  have hkept : (documentAttributes fresh text.toList).Perm root.tally
      ↔ (documentAttributes fresh text.toList).Perm
        ((documentTags fresh text.toList).flatMap (keptTally root.ids)) :=
    ⟨fun hall => hall.trans hperm, fun hall => hall.trans hperm.symm⟩
  rw [hkept]
  unfold documentAttributes
  rw [perm_flatMap_iff fun entry _ => keptTally_sublist root.ids entry]
  constructor
  . intro hall entry hentry
    exact (keptTally_eq_iff (Forest.mem_tags hentry).2.2).mp (hall entry hentry)
  . intro hall entry hentry
    exact (keptTally_eq_iff (Forest.mem_tags hentry).2.2).mpr (hall entry hentry)

theorem attributes_perm_second :
    ∃ root n,
      parseDocument 100 0 "<Placemark id='p'><name>A</name><name xmlns='u'>B</name></Placemark>"
          = .ok (root, n)
        ∧ ((documentAttributes 0
              "<Placemark id='p'><name>A</name><name xmlns='u'>B</name></Placemark>".toList).Perm
            (Emission.tallyOf root.emissions)
          ↔ ∀ entry ∈ documentTags 0
              "<Placemark id='p'><name>A</name><name xmlns='u'>B</name></Placemark>".toList,
            (∃ value, ("xmlns", value) ∈ entry.2.pairs) → entry.1 ∈ root.ids) := by
  have haccepted : (parseDocument 100 0
      "<Placemark id='p'><name>A</name><name xmlns='u'>B</name></Placemark>").toOption.isSome = true := by
    decide +kernel
  obtain ⟨⟨root, n⟩, h⟩ := exists_eq_ok haccepted
  exact ⟨root, n, h, attributes_perm_iff h⟩

/--
The default namespace of a name that is read into a value is lost.
-/
theorem attributes_lost :
    documentAttributes 0 "<Placemark><name xmlns='u'>A</name></Placemark>".toList
        = [(.name, "xmlns", "u")]
      ∧ (parseDocument 100 0 "<Placemark><name xmlns='u'>A</name></Placemark>").toOption.map
          (fun result => Emission.tallyOf result.1.emissions)
        = some [] := by
  decide +kernel

end KmlTree
