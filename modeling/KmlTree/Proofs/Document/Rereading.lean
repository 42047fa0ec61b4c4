import KmlTree.Proofs.Document.Following

/-!
This module contains the reading of what an element writes. An element that is settled with everything in
it is read as an element with the same bare element, whatever white space the style adds
(`Element.parse_write`).
-/

namespace KmlTree

namespace Element

/--
Whether what an element keeps of a text can be read again: its unknown attributes have names, the markup
in it is captured as it is, and the text of coordinates has the positions and tuples that they hold.
-/
structure Settled (e : Element) : Prop extends e.Regular where
  names : ∀ bag, e.head.unknownAttributes = some bag → ∀ name ∈ bag.names, isXmlName name.toList = true
  fragments : ∀ markup ∈ e.head.unknown, IsFragment markup.toList
  coordinates : ∀ positions skipped, e.body = .coordinates positions skipped →
    readPositions (positionsText positions skipped).toList = (positions, skipped)

namespace Settled

variable {e : Element}

theorem inside (h : e.Settled) (parent : Nat) : (e.inside parent).Settled where
  toRegular := h.toRegular.inside parent
  names := h.names
  fragments := h.fragments
  coordinates := h.coordinates

theorem names_attributes (h : e.Settled) :
    ∀ entry ∈ e.attributes.entries, isXmlName entry.1.toList = true := by
  have hown (kind : Kind) : ∀ name ∈ kind.attributeNames, isXmlName name.toList = true := by
    cases kind <;> decide
  intro entry hentry
  rw [h.entries_attributes, List.mem_append, List.mem_append] at hentry
  rcases hentry with (hentry | hentry) | hentry
  . exact hown _ _ (Body.kind_attributeNames (List.mem_map_of_mem hentry))
  . simp only [Option.mem_toList, Option.map_eq_some_iff] at hentry
    obtain ⟨value, _, rfl⟩ := hentry
    have hxmlns : isXmlName "xmlns".toList = true := by
      decide
    exact hxmlns
  . cases hunknown : e.head.unknownAttributes with
    | none => simp [hunknown] at hentry
    | some bag =>
      simp only [hunknown, Option.map_some, Option.getD_some] at hentry
      exact h.names bag hunknown entry.1 (List.mem_map_of_mem hentry)

end Settled

theorem exists_tag? {e : Element} (h : e.body.isListed = true) : ∃ name, e.kind.tag? = some name := by
  unfold kind
  cases hbody : e.body with
  | feature form fields => cases form <;> exact ⟨_, rfl⟩
  | field kind =>
    rw [hbody] at h
    unfold Body.isListed at h
    cases kind <;> first | exact ⟨_, rfl⟩ | cases h
  | fragment | foreign =>
    rw [hbody] at h
    cases h
  | _ => exact ⟨_, rfl⟩

end Element

/--
Whether a text goes on with nothing but the white space that a place allows. There is none inside of an
inline element.
-/
def Writer.Cursor.Pads (c : Writer.Cursor) (t t' : List Char) : Prop :=
  ∃ white, t' = t ++ white ∧ IsWhite white ∧ (c.inlineDepth ≠ 0 → white = [])

namespace Writer.Cursor

variable {style : Style} {c : Cursor} {t t' t'' : List Char}

theorem Pads.refl (c : Cursor) (t : List Char) : c.Pads t t :=
  ⟨[], by simp, .nil, fun _ => rfl⟩

theorem Pads.trans (h : c.Pads t t') (h' : c.Pads t' t'') : c.Pads t t'' := by
  obtain ⟨w, rfl, hw, hinline⟩ := h
  obtain ⟨w', rfl, hw', hinline'⟩ := h'
  refine ⟨w ++ w', by simp, hw.append hw', ?_⟩
  intro hdepth
  rw [hinline hdepth, hinline' hdepth]
  rfl

theorem pads_around (hstyle : style.IsWhite) (c : Cursor) (t : List Char) :
    c.Pads t (t ++ (c.before style ++ c.after style)) := by
  refine ⟨_, rfl, (isWhite_before hstyle c).append (isWhite_after hstyle c), ?_⟩
  intro hdepth
  unfold before after
  rw [if_neg hdepth, if_neg hdepth]
  rfl

theorem Pads.isWhite (h : c.Pads t t') (ht : IsWhite t) : IsWhite t' := by
  obtain ⟨w, rfl, hw, _⟩ := h
  exact ht.append hw

end Writer.Cursor

namespace Builder

variable {style : Style} {limit : Nat}

/--
Whether an element is read from what it writes, at any place: the builder opens an element that will have
the same bare element when it closes.
-/
def Rereads (style : Style) (limit : Nat) (e : Element) : Prop :=
  ∀ (c : Writer.Cursor) (b : Builder), b.capture = none → b.stack.length + e.nesting ≤ limit →
    (b.stack = [] → b.root = none) →
      ∃ (o : Element) (t : List Char) (n : Nat),
        (o.setText (String.ofList t)).bare = e.bare ∧ o.head.parent = none ∧ o.id = b.fresh
          ∧ b.fresh < n
          ∧ Follows style limit c e.instructions b
            (((b.pushText (c.before style)).within o t n).close.pushText (c.after style)) c

section Inside

variable {p : Builder} {c : Writer.Cursor}

/--
The children of one list are read one after the other. `put` gives the owner with the children that it
has so far, which are those in `front`.
-/
theorem follows_children (hstyle : style.IsWhite) (hcapture : p.capture = none) {id : Nat}
    {put : List Element → Element} {front back done : List Element}
    (hback : ∀ e ∈ back, Rereads style limit e)
    (hlimit : ∀ e ∈ back, p.stack.length + 1 + e.nesting ≤ limit)
    (hput : ∀ front' e back' done child, front ++ back = front' ++ e :: back' →
      done.map Element.bare = front'.map Element.bare → child.bare = e.bare →
        child.head.parent = none → id ≠ child.id →
          (put done).add child = put (done ++ [child.inside id]))
    (hdone : done.map Element.bare = front.map Element.bare) (t : List Char) {n : Nat} (hid : id < n) :
    ∃ done' t' n', done'.map Element.bare = (front ++ back).map Element.bare ∧ id < n' ∧ c.Pads t t'
      ∧ Follows style limit c (back.flatMap Element.instructions) (p.within (put done) t n)
        (p.within (put done') t' n') c := by
  -- The children that are read have other numbers and other white space than those that were written,
  -- so that the two lists are only compared as bare elements.
  induction back generalizing front done t n with
  | nil => exact ⟨done, t, n, by simpa using hdone, hid, .refl c t, .nil c _⟩
  | cons e back ih =>
    have hlimit' : (p.within (put done) t n).stack.length + e.nesting ≤ limit := by
      have := hlimit e List.mem_cons_self
      simpa [within] using this
    obtain ⟨o, u, m, hbare, hparent, hfresh, hlt, hfollows⟩ :=
      hback e List.mem_cons_self c (p.within (put done) t n) hcapture hlimit' (by simp [within])
    have hn : n < m := hlt
    have hchild : id ≠ (o.setText (String.ofList u)).id := by
      have hsame : (o.setText (String.ofList u)).id = n := hfresh
      omega
    have hadd := hput front e back done (o.setText (String.ofList u)) rfl hdone hbare hparent hchild
    rw [pushText_within, close_within_within, pushText_within, hadd, List.append_assoc] at hfollows
    have hdone' : (done ++ [(o.setText (String.ofList u)).inside id]).map Element.bare
        = (front ++ [e]).map Element.bare := by
      rw [List.map_append, List.map_append, hdone]
      simp [hbare]
    obtain ⟨done', t', n', hall, hid', hpads, hrest⟩ := ih
      (fun e' he' => hback e' (List.mem_cons_of_mem e he'))
      (fun e' he' => hlimit e' (List.mem_cons_of_mem e he'))
      (fun front' e' back' done child hsplit => hput front' e' back' done child (by simpa using hsplit))
      hdone' (t ++ (c.before style ++ c.after style)) (Nat.lt_trans hid hn)
    refine ⟨done', t', n', ?_, hid', (Writer.Cursor.pads_around hstyle c t).trans hpads, ?_⟩
    . rw [hall]
      simp
    . rw [List.flatMap_cons]
      exact hfollows.append hrest

theorem follows_fragments (hstyle : style.IsWhite) (hcapture : p.capture = none) {o : Element}
    {markup : List String} (hmarkup : ∀ m ∈ markup, IsFragment m.toList)
    (hlimit : markup ≠ [] → p.stack.length + 2 ≤ limit) (t : List Char) (n : Nat) :
    ∃ t' n', n ≤ n' ∧ c.Pads t t'
      ∧ Follows style limit c (markup.map .raw) (p.within o t n)
        (p.within { o with head.unknown := o.head.unknown ++ markup } t' n') c := by
  induction markup generalizing o t n with
  | nil =>
    obtain ⟨head, body, placed, misplaced⟩ := o
    refine ⟨t, n, Nat.le_refl n, .refl c t, ?_⟩
    rw [List.append_nil]
    exact .nil c _
  | cons m markup ih =>
    have hroom := hlimit (by simp)
    have hfirst := follows_raw hstyle c (hmarkup m List.mem_cons_self) hcapture hroom o t n
    obtain ⟨t', n', hn, hpads, hrest⟩ := ih (o := o.keepMarkup m)
      (fun m' hm' => hmarkup m' (List.mem_cons_of_mem m hm')) (fun _ => hroom)
      (t ++ (c.before style ++ c.after style)) (n + 1)
    refine ⟨t', n', by omega, (Writer.Cursor.pads_around hstyle c t).trans hpads, ?_⟩
    have hkept : { o.keepMarkup m with head.unknown := (o.keepMarkup m).head.unknown ++ markup }
        = { o with head.unknown := o.head.unknown ++ m :: markup } := by
      simp [Element.keepMarkup]
    rw [hkept] at hrest
    exact hfirst.append hrest

theorem add_field {o : Element} {id : Nat} {kind : Kind} {text : String} {body : Body}
    (h : o.body.absorb? (.ofText id kind text) = some body) :
    o.add (.ofText id kind text) = { o with body := body } := by
  have hplace : o.hasPlaceFor (.ofText id kind text) = false := by
    simp [Element.hasPlaceFor, Element.ofText, Body.class?]
  unfold Element.add
  split
  . next m hbody => cases hbody
  . rw [hplace, h]
    rfl

theorem follows_fills (hstyle : style.IsWhite) (hcapture : p.capture = none) {o : Element} {body : Body}
    {es : List Emission} (hfills : o.body.Fills es body)
    (hlimit : es ≠ [] → p.stack.length + 2 ≤ limit) (t : List Char) (n : Nat) :
    ∃ t' n', n ≤ n' ∧ c.Pads t t'
      ∧ Follows style limit c (Emission.instructions es) (p.within o t n)
        (p.within { o with body := body } t' n') c := by
  -- The relation speaks of bodies only, so that the element around them is generalized.
  generalize hbody : o.body = first at hfills
  induction hfills generalizing o t n with
  | nil body =>
    subst hbody
    obtain ⟨head, body, placed, misplaced⟩ := o
    exact ⟨t, n, Nat.le_refl n, .refl c t, .nil c _⟩
  | @cons body body' body'' kind text es hsimple habsorb _ ih =>
    subst hbody
    have hroom := hlimit (by simp)
    have hlisted : (Element.ofText 0 kind text).body.isListed = true := hsimple
    obtain ⟨name, htag⟩ := Element.exists_tag? hlisted
    have hregular : (Element.ofText 0 kind text).Regular :=
      ⟨hlisted, by simp [Element.ofText], Or.inr (by simp [Element.ofText]), by simp [Element.ofText],
        by simp [Element.ofText, Head.new]⟩
    have hattributes : (Element.ofText 0 kind text).attributes = ∅ := by
      rfl
    have hfirst : Follows style limit c _ (p.within o t n) _ c :=
      follows_textElement hstyle c hregular htag text
        (by rw [hattributes]; simp [EmptyCollection.emptyCollection, Attributes.empty]) hcapture
        hroom (by simp [within])
    have hchild : Element.setText ⟨(Element.ofText 0 kind text).head.reopened (p.within o t n).fresh,
        (Element.ofText 0 kind text).body.blank, [], []⟩ (String.ofList text.toList)
        = Element.ofText n kind text := by
      rw [String.ofList_toList]
      rfl
    rw [pushText_within, close_within_within, pushText_within, List.append_assoc, hchild,
      add_field (habsorb n), hattributes] at hfirst
    obtain ⟨t', n', hn, hpads, hrest⟩ := ih (o := { o with body := body' }) (fun _ => hroom)
      (t ++ (c.before style ++ c.after style)) (n + 1) rfl
    refine ⟨t', n', by omega, (Writer.Cursor.pads_around hstyle c t).trans hpads, ?_⟩
    have hinstruction : (Emission.ofText kind text).instruction? = some (.textElement name ∅ text) := by
      have htag' : kind.tag? = some name := htag
      simp [Emission.ofText, Emission.instruction?, htag']
    rw [Emission.instructions_cons, hinstruction]
    exact hfirst.append hrest

theorem follows_textInstructions (hstyle : style.IsWhite) (hcapture : p.capture = none) (o : Element)
    (s t : List Char) (n : Nat) :
    ∃ t', (c.Pads t t' ∧ s = [] ∨ c.Pads (t ++ c.before style ++ s) t')
      ∧ Follows style limit c (textInstructions s) (p.within o t n) (p.within o t' n) c := by
  unfold textInstructions
  split
  . next hempty =>
    rw [List.isEmpty_iff] at hempty
    exact ⟨t, Or.inl ⟨.refl c t, hempty⟩, .nil c _⟩
  . have htext : Follows style limit c _ (p.within o t n) _ c :=
      follows_text hstyle c (String.ofList s) hcapture
    rw [String.toList_ofList, pushText_within] at htext
    refine ⟨_, Or.inr ?_, htext⟩
    refine ⟨c.after style, by simp, Writer.Cursor.isWhite_after hstyle c, ?_⟩
    intro hdepth
    unfold Writer.Cursor.after
    rw [if_neg hdepth]

end Inside

end Builder

namespace Element

variable {o child : Element}

theorem add_placed (hchild : child.body.isListed = true) (hplace : o.hasPlaceFor child = true)
    (hparent : child.head.parent = none) (hid : o.id ≠ child.id) :
    o.add child = { o with placed := o.placed ++ [child.inside o.id] } := by
  unfold add
  split
  . next m hbody =>
    rw [hbody] at hchild
    cases hchild
  . rw [if_pos hplace]
    unfold appendChild?
    rw [claim?_eq_some hparent hid]
    rfl

theorem add_misplaced (hchild : child.body.isListed = true) (hplace : o.hasPlaceFor child = false)
    (habsorb : o.body.absorb? child = none) (hparent : child.head.parent = none)
    (hid : o.id ≠ child.id) :
    o.add child = { o with misplaced := o.misplaced ++ [child.inside o.id] } := by
  unfold add
  split
  . next m hbody =>
    rw [hbody] at hchild
    cases hchild
  . rw [if_neg (by simp [hplace]), habsorb]
    unfold keepMisplaced
    rw [claim?_eq_some hparent hid]

end Element

namespace Body

theorem alike_unread (body : Body) : body.Alike body.unread := by
  cases body <;> exact ⟨rfl, rfl, rfl, rfl, fun _ => rfl⟩

theorem absorb?_unread {body : Body} {e : Element} (h : body.absorb? e = none) :
    body.unread.absorb? e = none := by
  cases body with
  | coordinates positions skipped =>
    unfold absorb?
    split <;> rfl
  | _ => exact h

end Body

namespace Element

variable {e : Element} {id : Nat} {placed misplaced : List Element}

theorem Regular.add_placed_again (h : e.Regular) {front back done : List Element} {c child : Element}
    {head : Head} (hsplit : e.placed = front ++ c :: back)
    (hdone : done.map bare = front.map bare) (hlisted : c.body.isListed = true)
    (hbare : child.bare = c.bare) (hparent : child.head.parent = none) (hid : head.id ≠ child.id) :
    add ⟨head, e.body.unread, done, []⟩ child
      = ⟨head, e.body.unread, done ++ [child.inside head.id], []⟩ := by
  have hbody := body_of_bare hbare
  obtain ⟨hclass, hsame⟩ := h.placed c (by simp [hsplit])
  have halike := e.body.alike_unread
  have hid' : Element.id ⟨head, e.body.unread, done, []⟩ ≠ child.id := hid
  apply add_placed _ _ hparent hid'
  . rw [hbody]
    exact hlisted
  . unfold hasPlaceFor
    dsimp only
    rw [hbody, halike.place?, halike.isContainer, hsame]
    simp only [hclass, beq_self_eq_true, Bool.and_self, Bool.true_and, Bool.or_eq_true,
      List.isEmpty_iff]
    cases h.single with
    | inl hcontainer => exact Or.inl hcontainer
    | inr hsingle =>
      right
      rw [hsplit, List.length_append, List.length_cons] at hsingle
      have hlength := congrArg List.length hdone
      rw [List.length_map, List.length_map] at hlength
      exact List.eq_nil_of_length_eq_zero (by omega)

theorem Regular.add_misplaced_again (h : e.Regular) {c child : Element} {head : Head}
    (hc : c ∈ e.misplaced) (hplaced : placed.map bare = e.placed.map bare)
    (hlisted : c.body.isListed = true) (hbare : child.bare = c.bare)
    (hparent : child.head.parent = none) (hid : head.id ≠ child.id) :
    add ⟨head, e.body.unread, placed, misplaced⟩ child
      = ⟨head, e.body.unread, placed, misplaced ++ [child.inside head.id]⟩ := by
  obtain ⟨hrefused, habsorb⟩ := h.misplaced c hc
  have halike := e.body.alike_unread
  have hid' : Element.id ⟨head, e.body.unread, placed, misplaced⟩ ≠ child.id := hid
  apply add_misplaced _ _ _ hparent hid'
  . rw [body_of_bare hbare]
    exact hlisted
  . rw [← hrefused, hasPlaceFor_of_bare hbare]
    have hempty : placed.isEmpty = e.placed.isEmpty := by
      have hlength := congrArg List.length hplaced
      rw [List.length_map, List.length_map] at hlength
      rw [Bool.eq_iff_iff, List.isEmpty_iff_length_eq_zero, List.isEmpty_iff_length_eq_zero, hlength]
    unfold hasPlaceFor
    dsimp only
    rw [halike.place?, halike.isContainer, hempty]
  . rw [Body.absorb?_of_bare hbare]
    exact Body.absorb?_unread habsorb

theorem bare_closed {t : String} (hplaced : placed.map bare = e.placed.map bare)
    (hmisplaced : misplaced.map bare = e.misplaced.map bare)
    (hbody : e.body.unread.readText t = e.body)
    (htext : e.body.bareText t = e.body.bareText e.head.charData) :
    (setText ⟨{ e.head.reopened id with unknown := e.head.unknown }, e.body.unread, placed, misplaced⟩
      t).bare = e.bare := by
  rw [bare_eq, bare_eq e]
  unfold setText storeText
  dsimp only
  rw [hplaced, hmisplaced, hbody, htext]
  rfl

end Element

namespace Builder

variable {style : Style} {limit : Nat} {p : Builder} {c : Writer.Cursor} {e : Element}

theorem follows_kept (hstyle : style.IsWhite) (hcapture : p.capture = none) (he : e.Settled)
    (hmisplaced : ∀ x ∈ e.misplaced, Rereads style limit x ∧ x.body.isListed = true)
    (hlimit : p.stack.length + e.nesting ≤ limit) {placed : List Element}
    (hplaced : placed.map Element.bare = e.placed.map Element.bare) (t : List Char) {id n : Nat}
    (hid : id < n) :
    ∃ misplaced t' n', misplaced.map Element.bare = e.misplaced.map Element.bare ∧ id < n'
      ∧ c.Pads t t'
      ∧ Follows style limit c e.keptInstructions
        (p.within ⟨e.head.reopened id, e.body.unread, placed, []⟩ t n)
        (p.within ⟨{ e.head.reopened id with unknown := e.head.unknown }, e.body.unread, placed,
          misplaced⟩ t' n') c := by
  obtain ⟨_, _, hunknown, hchildren⟩ := Element.nesting_le.mp (Nat.le_refl e.nesting)
  have hroom : e.head.unknown ≠ [] → p.stack.length + 2 ≤ limit := by
    intro hne
    have := hunknown hne
    omega
  obtain ⟨t', n', hn, hpads, hfragments⟩ :=
    follows_fragments (o := ⟨e.head.reopened id, e.body.unread, placed, []⟩) (c := c) hstyle hcapture
      he.fragments hroom t n
  let put : List Element → Element := fun misplaced =>
    ⟨{ e.head.reopened id with unknown := e.head.unknown }, e.body.unread, placed, misplaced⟩
  have hput : ∀ front x back done child, [] ++ e.misplaced = front ++ x :: back →
      done.map Element.bare = front.map Element.bare → child.bare = x.bare →
        child.head.parent = none → id ≠ child.id →
          (put done).add child = put (done ++ [child.inside id]) := by
    intro front x back done child hsplit _ hbare hparent hchild
    have hx : x ∈ e.misplaced := by
      rw [List.nil_append] at hsplit
      rw [hsplit]
      simp
    exact he.toRegular.add_misplaced_again hx hplaced (hmisplaced x hx).2 hbare hparent hchild
  have hrooms : ∀ x ∈ e.misplaced, p.stack.length + 1 + x.nesting ≤ limit := by
    intro x hx
    have := hchildren x (List.mem_append_right _ hx)
    omega
  obtain ⟨misplaced, t'', n'', hbare, hn', hpads', hrest⟩ :=
    follows_children (c := c) (p := p) hstyle hcapture (fun x hx => (hmisplaced x hx).1) hrooms hput
      rfl t' (n := n') (by omega)
  refine ⟨misplaced, t'', n'', hbare, hn', hpads.trans hpads', ?_⟩
  exact hfragments.append hrest

theorem follows_placed (hstyle : style.IsWhite) (hcapture : p.capture = none) (he : e.Settled)
    (hplaced : ∀ x ∈ e.placed, Rereads style limit x ∧ x.body.isListed = true)
    (hlimit : p.stack.length + e.nesting ≤ limit) (t : List Char) {id n : Nat} (hid : id < n) :
    ∃ placed t' n', placed.map Element.bare = e.placed.map Element.bare ∧ id < n' ∧ c.Pads t t'
      ∧ Follows style limit c (e.placed.flatMap Element.instructions)
        (p.within ⟨e.head.reopened id, e.body.unread, [], []⟩ t n)
        (p.within ⟨e.head.reopened id, e.body.unread, placed, []⟩ t' n') c := by
  obtain ⟨_, _, _, hchildren⟩ := Element.nesting_le.mp (Nat.le_refl e.nesting)
  let put : List Element → Element := fun placed =>
    ⟨e.head.reopened id, e.body.unread, placed, []⟩
  have hput : ∀ front x back done child, [] ++ e.placed = front ++ x :: back →
      done.map Element.bare = front.map Element.bare → child.bare = x.bare →
        child.head.parent = none → id ≠ child.id →
          (put done).add child = put (done ++ [child.inside id]) := by
    intro front x back done child hsplit hdone hbare hparent hchild
    have hx : x ∈ e.placed := by
      rw [List.nil_append] at hsplit
      rw [hsplit]
      simp
    exact he.toRegular.add_placed_again hsplit hdone (hplaced x hx).2 hbare hparent hchild
  have hrooms : ∀ x ∈ e.placed, p.stack.length + 1 + x.nesting ≤ limit := by
    intro x hx
    have := hchildren x (List.mem_append_left _ hx)
    omega
  exact follows_children hstyle hcapture (fun x hx => (hplaced x hx).1) hrooms hput rfl t hid

end Builder

namespace Body

variable {body : Body} {charData : String} {values : List Emission}

theorem readText_unread (h : body.content charData = .complex values) (text : String) :
    body.unread.readText text = body := by
  cases body with
  | coordinates | field | fragment | foreign => cases h
  | _ => rfl

theorem bareText_complex (h : body.content charData = .complex values) (text : String) :
    body.bareText text = String.ofList (trim text.toList) := by
  cases body with
  | coordinates | field | fragment | foreign => cases h
  | _ => rfl

end Body

namespace Builder

variable {style : Style} {limit : Nat} {c : Writer.Cursor} {e : Element}

theorem rereads_complex (hstyle : style.IsWhite) (he : e.Settled) {values : List Emission}
    (hcontent : e.body.content e.head.charData = .complex values)
    (hplaced : ∀ x ∈ e.placed, Rereads style limit x ∧ x.body.isListed = true)
    (hmisplaced : ∀ x ∈ e.misplaced, Rereads style limit x ∧ x.body.isListed = true) :
    Rereads style limit e := by
  intro c b hcapture hlimit hroot
  obtain ⟨name, htag⟩ := Element.exists_tag? he.listed
  obtain ⟨hone, hvalues, _, _⟩ := Element.nesting_le.mp (Nat.le_refl e.nesting)
  obtain ⟨_, _, hlength, _⟩ := b.fields_pushText (c.before style)
  let q : Builder := b.pushText (c.before style)
  have hq : q.capture = none := by
    rw [capture_pushText]
    exact hcapture
  have hroom : q.stack.length + e.nesting ≤ limit := by
    rw [hlength]
    exact hlimit
  have hafter := Writer.Cursor.isWhite_after hstyle c
  have hbefore := Writer.Cursor.isWhite_before hstyle c
  have hstart : Follows style limit c _ b _ c.down :=
    follows_startTag hstyle c he.toRegular htag he.names_attributes hcapture (by omega) hroot
  have hfills := e.body.fills_values
  rw [Body.values_eq hcontent] at hfills hvalues
  have hroom' : values ≠ [] → q.stack.length + 2 ≤ limit := by
    intro hne
    have := hvalues hne
    omega
  -- The values come first, then the children in their place, the text, and what has no place. Each part
  -- finds the element as the part before it leaves it.
  obtain ⟨t₁, n₁, hn₁, hpads₁, hvalues⟩ :=
    follows_fills (o := ⟨e.head.reopened b.fresh, e.body.blank, [], []⟩) (c := c.down) (p := q) hstyle
      hq hfills hroom' (c.after style) (b.fresh + 1)
  obtain ⟨placed, t₂, n₂, hbare₂, hn₂, hpads₂, hchildren⟩ :=
    follows_placed (c := c.down) hstyle hq he hplaced hroom t₁ (Nat.lt_of_succ_le hn₁)
  obtain ⟨t₃, hpads₃, htext⟩ :=
    follows_textInstructions (c := c.down) hstyle hq
      ⟨e.head.reopened b.fresh, e.body.unread, placed, []⟩ (trim e.head.charData.toList) t₂ n₂
  obtain ⟨misplaced, t₄, n₄, hbare₄, hn₄, hpads₄, hkept⟩ :=
    follows_kept (c := c.down) hstyle hq he hmisplaced hroom hbare₂ t₃ hn₂
  let o : Element :=
    ⟨{ e.head.reopened b.fresh with unknown := e.head.unknown }, e.body.unread, placed, misplaced⟩
  have htag' : o.kind.tag? = some name := by
    rw [← htag]
    exact congrArg Kind.tag? e.body.alike_unread.kind
  have hend : Follows style limit c.down _ (q.within o t₄ n₄) _ c := follows_endTag hstyle c htag' hq t₄ n₄
  -- All white space that the style adds stands around the text of the element and is trimmed with it.
  have htrim : trim (t₄ ++ c.before style) = trim e.head.charData.toList := by
    have hwhite := hpads₂.isWhite (hpads₁.isWhite hafter)
    cases hpads₃ with
    | inl hnone =>
      rw [hnone.2]
      exact trim_of_isWhite ((hpads₄.isWhite (hnone.1.isWhite hwhite)).append hbefore)
    | inr hpads₃ =>
      obtain ⟨w, rfl, hw, _⟩ := hpads₃.trans hpads₄
      have hfront := hwhite.append (Writer.Cursor.isWhite_before hstyle c.down)
      rw [List.append_assoc, trim_around _ hfront (hw.append hbefore), trim_trim]
  refine ⟨o, t₄ ++ c.before style, n₄, ?_, rfl, rfl, hn₄, ?_⟩
  . apply Element.bare_closed hbare₂ hbare₄ (Body.readText_unread hcontent _)
    rw [Body.bareText_complex hcontent, Body.bareText_complex hcontent, String.toList_ofList, htrim]
  . rw [Element.instructions_complex hcontent htag]
    exact hstart.append ((((hvalues.append hchildren).append htext).append hkept).append hend)

end Builder

theorem Writer.Cursor.Pads.eq_of_inline {c : Writer.Cursor} {t t' : List Char} (h : c.Pads t t')
    (hdepth : c.inlineDepth ≠ 0) : t' = t := by
  obtain ⟨w, rfl, _, hinline⟩ := h
  rw [hinline hdepth, List.append_nil]

namespace Element

variable {e : Element} {text : String}

theorem Settled.readText_blank (h : e.Settled) (hcontent : e.body.content e.head.charData = .textual text) :
    e.body.blank = e.body.unread ∧ e.body.unread.readText text = e.body
      ∧ e.body.bareText text = e.body.bareText e.head.charData ∧ e.placed = [] := by
  have hcoordinates := h.coordinates
  have hplaced := h.toRegular.placed_eq_nil
  cases hbody : e.body with
  | coordinates positions skipped =>
    rw [hbody] at hcontent hplaced
    simp only [Body.content, Content.textual.injEq] at hcontent
    subst hcontent
    refine ⟨rfl, ?_, rfl, hplaced rfl⟩
    have hread := hcoordinates positions skipped hbody
    simp [Body.unread, Body.readText, Body.updatePositions?, hread]
  | field kind =>
    rw [hbody] at hcontent hplaced
    simp only [Body.content, Content.textual.injEq] at hcontent
    subst hcontent
    exact ⟨rfl, rfl, rfl, hplaced rfl⟩
  | _ =>
    rw [hbody] at hcontent
    cases hcontent

end Element

namespace Builder

variable {style : Style} {limit : Nat} {e : Element}

theorem rereads_textual (hstyle : style.IsWhite) (he : e.Settled) {text : String}
    (hcontent : e.body.content e.head.charData = .textual text)
    (hmisplaced : ∀ x ∈ e.misplaced, Rereads style limit x ∧ x.body.isListed = true) :
    Rereads style limit e := by
  intro c b hcapture hlimit hroot
  obtain ⟨name, htag⟩ := Element.exists_tag? he.listed
  obtain ⟨hone, _, _, _⟩ := Element.nesting_le.mp (Nat.le_refl e.nesting)
  obtain ⟨_, _, hlength, _⟩ := b.fields_pushText (c.before style)
  obtain ⟨hblank, hread, htext, hplaced⟩ := he.readText_blank hcontent
  have hbare : ([] : List Element).map Element.bare = e.placed.map Element.bare := by
    rw [hplaced]
  rw [Element.instructions_textual hcontent htag]
  split
  . next hempty =>
    obtain ⟨hunknown, hnone⟩ := hempty
    refine ⟨⟨e.head.reopened b.fresh, e.body.blank, [], []⟩, text.toList, b.fresh + 1, ?_, rfl, rfl,
      Nat.lt_succ_self _, ?_⟩
    . have hclosed : (Element.setText
          ⟨{ e.head.reopened b.fresh with unknown := e.head.unknown }, e.body.unread, [], []⟩ text).bare
          = e.bare := Element.bare_closed hbare (by rw [hnone]) hread htext
      rw [hblank, String.ofList_toList, ← hclosed, hunknown]
      rfl
    . exact follows_textElement hstyle c he.toRegular htag text he.names_attributes hcapture (by omega)
        hroot
  . -- Inside of an inline element nothing is added, so that its text is read as it was.
    let q : Builder := b.pushText (c.before style)
    have hq : q.capture = none := by
      rw [capture_pushText]
      exact hcapture
    have hroom : q.stack.length + e.nesting ≤ limit := by
      rw [hlength]
      exact hlimit
    have hinline : c.inline.inlineDepth ≠ 0 := Nat.succ_ne_zero _
    have hstart : Follows style limit c _ b _ c.inline :=
      follows_startInline hstyle c he.toRegular htag he.names_attributes hcapture (by omega) hroot
    obtain ⟨t, hpads, hchars⟩ :=
      follows_textInstructions (c := c.inline) hstyle hq
        ⟨e.head.reopened b.fresh, e.body.blank, [], []⟩ text.toList [] (b.fresh + 1)
    have ht : t = text.toList := by
      cases hpads with
      | inl hnone => rw [hnone.1.eq_of_inline hinline, hnone.2]
      | inr hpads =>
        rw [hpads.eq_of_inline hinline, Writer.Cursor.before_inline]
        rfl
    obtain ⟨misplaced, t', n, hbare', hn, hpads', hkept⟩ :=
      follows_kept (c := c.inline) hstyle hq he hmisplaced hroom hbare t (Nat.lt_succ_self b.fresh)
    rw [← hblank] at hkept
    let o : Element :=
      ⟨{ e.head.reopened b.fresh with unknown := e.head.unknown }, e.body.blank, [], misplaced⟩
    have htag' : o.kind.tag? = some name := by
      rw [← htag]
      unfold Element.kind
      dsimp only [o]
      rw [hblank]
      exact congrArg Kind.tag? e.body.alike_unread.kind
    have hend : Follows style limit c.inline _ (q.within o t' n) _ c :=
      follows_endInline hstyle c htag' hq t' n
    refine ⟨o, t', n, ?_, rfl, rfl, hn, ?_⟩
    . rw [hpads'.eq_of_inline hinline, ht, String.ofList_toList]
      dsimp only [o]
      rw [hblank]
      exact Element.bare_closed hbare hbare' hread htext
    . exact hstart.append ((hchars.append hkept).append hend)

/--
An element that is settled with everything in it is read from what it writes.
-/
theorem rereads (hstyle : style.IsWhite) (h : ∀ x ∈ e.all, x.Settled) : Rereads style limit e := by
  induction e using Element.induction with
  | step e hplaced hmisplaced =>
    have hself := h e e.mem_all_self
    have hinside : ∀ c ∈ e.placed ++ e.misplaced, ∀ x ∈ c.all, x.Settled := by
      intro c hc x hx
      exact h x (Element.mem_all.mpr (Or.inr ⟨c, hc, hx⟩))
    have hplaced' : ∀ c ∈ e.placed, Rereads style limit c ∧ c.body.isListed = true := by
      intro c hc
      have hc' := hinside c (List.mem_append_left _ hc)
      exact ⟨hplaced c hc hc', (hc' c c.mem_all_self).listed⟩
    have hmisplaced' : ∀ c ∈ e.misplaced, Rereads style limit c ∧ c.body.isListed = true := by
      intro c hc
      have hc' := hinside c (List.mem_append_right _ hc)
      exact ⟨hmisplaced c hc hc', (hc' c c.mem_all_self).listed⟩
    cases Body.content_of_isListed hself.listed e.head.charData with
    | inl hcomplex =>
      obtain ⟨values, hcontent⟩ := hcomplex
      exact rereads_complex hstyle hself hcontent hplaced' hmisplaced'
    | inr htextual =>
      obtain ⟨text, hcontent⟩ := htextual
      exact rereads_textual hstyle hself hcontent hmisplaced'

end Builder

theorem Writer.Cursor.before_start (style : Style) : Cursor.start.before style = [] := by
  rfl

namespace Element

variable {e : Element} {style : Style}

theorem exists_written_cons (h : e.Settled) (style : Style) :
    ∃ tail, Writer.written style .start e.instructions = '<' :: tail := by
  obtain ⟨name, htag⟩ := exists_tag? h.listed
  have hfirst (i : Writer.Instruction) (is : List Writer.Instruction)
      (h : ∃ tail, Writer.written style .start [i] = '<' :: tail) :
      ∃ tail, Writer.written style .start (i :: is) = '<' :: tail := by
    obtain ⟨tail, htail⟩ := h
    have happend := @Writer.written_append style .start [i] is
    rw [htail] at happend
    exact ⟨_, happend⟩
  have htagText : (Writer.tagText name e.attributes).toList
      = '<' :: (Tag.written name e.attributes).content := Tag.toList_tagText name _
  cases Body.content_of_isListed h.listed e.head.charData with
  | inl hcomplex =>
    obtain ⟨values, hcontent⟩ := hcomplex
    rw [instructions_complex hcontent htag]
    apply hfirst
    rw [Writer.written_startTag, htagText, Writer.Cursor.before_start]
    exact ⟨_, rfl⟩
  | inr htextual =>
    obtain ⟨text, hcontent⟩ := htextual
    rw [instructions_textual hcontent htag]
    split
    . rw [Writer.written_textElement, htagText, Writer.Cursor.before_start]
      split
      . exact ⟨_, rfl⟩
      . exact ⟨_, rfl⟩
    . apply hfirst
      rw [Writer.written_startInline, htagText, Writer.Cursor.before_start]
      exact ⟨_, rfl⟩

/--
A document that an element writes is read as an element with the same bare element.
-/
theorem parse_write {limit : Nat} (h : ∀ x ∈ e.all, x.Settled) (hstyle : style.IsWhite)
    (hlimit : e.nesting ≤ limit) (fresh : Nat) :
    ∃ e' n, parseDocument limit fresh (e.write style) = .ok (e', n) ∧ e'.bare = e.bare := by
  let b : Builder := .start fresh
  have hroom : b.stack.length + e.nesting ≤ limit := by
    simpa [b, Builder.start] using hlimit
  obtain ⟨o, t, n, hbare, _, _, _, hfollows⟩ :=
    Builder.rereads hstyle h .start b rfl hroom (fun _ => rfl)
  have hpush (b : Builder) (u : List Char) (hb : b.stack = []) : b.pushText u = b := by
    unfold Builder.pushText
    rw [hb]
  let b' : Builder := { b with root := some (o.setText (String.ofList t)), fresh := n }
  have hpasses := hfollows.passes
  rw [hpush b _ rfl, Builder.close_within_nil rfl, hpush b' _ rfl] at hpasses
  let s := Writer.written style .start e.instructions
  have hend : Builder.run ([] ++ s ++ []) limit ⟨[], byteLength ([] ++ s), false, b'.openNames⟩ b'
      = .ok (o.setText (String.ofList t), n) := by
    rw [Builder.run_of_ending b' rfl]
    exact Builder.finish_eq_ok.mpr ⟨⟨_, rfl⟩, rfl, rfl, rfl, rfl⟩
  have hrun := hpasses [] [] _ hend
  refine ⟨o.setText (String.ofList t), n, ?_, hbare⟩
  obtain ⟨tail, htail⟩ := exists_written_cons (h e e.mem_all_self) style
  have hs : (e.write style).toList = s := by
    rfl
  have hreader : Reader.start s = ⟨s, 0, false, []⟩ := by
    dsimp only [s]
    rw [htail]
    rfl
  rw [List.nil_append, List.append_nil] at hrun
  rw [Builder.parseDocument_eq_run, hs, hreader]
  exact hrun

end Element

end KmlTree
