import KmlTree.Proofs.Document.Growth

/-!
This module contains the offers that a builder makes: which child a step offers to which open element
(`Builder.offered?`), what the open elements are after it (`Builder.Turn`), and that no child is ever
offered that has a parent already (`Builder.claim_of_offered`).
-/

namespace KmlTree

namespace Element

theorem head_add (owner child : Element) :
    (owner.add child).id = owner.id ∧ (owner.add child).parent? = owner.parent? := by
  unfold add
  split
  . exact ⟨rfl, rfl⟩
  . split
    . unfold appendChild?
      cases child.claim? owner.id <;> exact ⟨rfl, rfl⟩
    . split
      . exact ⟨rfl, rfl⟩
      . unfold keepMisplaced
        split <;> exact ⟨rfl, rfl⟩

end Element

namespace Builder

/--
The open elements of a builder, the innermost one first.
-/
def elements (b : Builder) : List Element := b.stack.map Frame.element

/--
What is offered, and to whom, when the innermost open element closes. Nothing is offered if it is the
root.
-/
def offeredInner? (b : Builder) : Option (Element × Element) :=
  match b.stack with
  | inner :: outer :: _ => some (outer.element, inner.closed)
  | _ => none

/--
The fragment that is offered for the markup from byte `start` to byte `stop`, with the innermost open
element.
-/
def offeredMarkup? (text : List Char) (start stop : Nat) (b : Builder) :
    Option (Element × Element) := do
  let frame ← b.stack.head?
  let markup ← sliceBytes? start stop text
  return (frame.element, .ofMarkup b.fresh markup)

/--
The open element and the child that is offered to it when a builder consumes an event. A child is offered
when it closes, or when the capture of its markup ends.
-/
def offered? (text : List Char) (b : Builder) : Event × Reader → Option (Element × Element)
  | (e, after) =>
    match b.capture, e with
    | none, .close _ => b.offeredInner?
    | none, .empty tag =>
      match tag.open? b.fresh with
      | some e => (b.opened e).offeredInner?
      | none =>
        (lastBracket? text after.position).bind fun start =>
          b.offeredMarkup? text start after.position
    | some c, .close name =>
      if name = c.name ∧ c.depth = 0 then b.offeredMarkup? text c.start after.position else none
    | _, _ => none

/--
What a step may do with the open elements, of which the next one gets the number `fresh`: it drops some
without an offer, it opens one, it offers the innermost one to the one around it, or it offers a new one
to the innermost one.
-/
inductive Turn (fresh : Nat) (es : List Element) :
    Option (Element × Element) → Nat → List Element → Prop where
  | drops {fresh' : Nat} {es' : List Element} (hfresh : fresh ≤ fresh') (hsuffix : es' <:+ es) :
    Turn fresh es none fresh' es'
  | opens (e : Element) (hid : e.id = fresh) (hparent : e.parent? = none) :
    Turn fresh es none (fresh + 1) (e :: es)
  | closes {inner owner child : Element} {outer : List Element} (hes : es = inner :: owner :: outer)
    (hid : child.id = inner.id) (hparent : child.parent? = inner.parent?) :
    Turn fresh es (some (owner, child)) fresh (owner.add child :: outer)
  | makes {owner child : Element} {outer : List Element} (hes : es = owner :: outer)
    (hid : child.id = fresh) (hparent : child.parent? = none) :
    Turn fresh es (some (owner, child)) (fresh + 1) (owner.add child :: outer)

variable {text : List Char} {limit : Nat} {b b' : Builder}

theorem turn_same (fresh : Nat) (es : List Element) : Turn fresh es none fresh es :=
  .drops (Nat.le_refl fresh) (List.suffix_refl es)

theorem turn_opened {e : Element} {tag : Tag} (h : tag.open? b.fresh = some e) :
    Turn b.fresh b.elements none (b.opened e).fresh (b.opened e).elements := by
  obtain ⟨body, a, _, _, _, rfl⟩ := Tag.open?_spec h
  rw [Element.openWith_ofBody]
  exact .opens _ rfl rfl

theorem turn_close (b : Builder) :
    Turn b.fresh b.elements b.offeredInner? b.close.fresh b.close.elements := by
  obtain ⟨stack, root, capture, fresh⟩ := b
  match stack with
  | [] => exact turn_same fresh []
  | [_] => exact .drops (Nat.le_refl fresh) List.nil_suffix
  | _ :: _ :: _ => exact .closes rfl rfl rfl

/--
An empty element is made and offered at once.
-/
theorem turn_opened_close {e : Element} {tag : Tag} (h : tag.open? b.fresh = some e) :
    Turn b.fresh b.elements (b.opened e).offeredInner? (b.opened e).close.fresh
      (b.opened e).close.elements := by
  obtain ⟨body, a, _, _, _, rfl⟩ := Tag.open?_spec h
  rw [Element.openWith_ofBody]
  obtain ⟨stack, root, capture, fresh⟩ := b
  cases stack with
  | nil => exact .drops (Nat.le_succ fresh) (List.suffix_refl [])
  | cons frame frames => exact .makes rfl rfl rfl

theorem turn_offerMarkup {start stop : Nat} (h : b.offerMarkup text start stop = .ok b') :
    Turn b.fresh b.elements (b.offeredMarkup? text start stop) b'.fresh b'.elements := by
  obtain ⟨markup, hmarkup, rfl⟩ := offerMarkup_eq_ok.mp h
  unfold offeredMarkup?
  rw [hmarkup]
  obtain ⟨stack, root, capture, fresh⟩ := b
  cases stack with
  | nil => exact .drops (Nat.le_succ fresh) (List.suffix_refl [])
  | cons frame frames => exact .makes rfl rfl rfl

theorem turn_enter_empty {tag : Tag} {after : Reader} (hcapture : b.capture = none)
    (h : b.enter text limit after.position tag true = .ok b') :
    Turn b.fresh b.elements (b.offered? text (.empty tag, after)) b'.fresh b'.elements := by
  obtain ⟨_, _, h⟩ := enter_eq_ok.mp h
  unfold offered?
  rw [hcapture]
  dsimp only
  split at h
  . obtain ⟨e, hopen, rfl⟩ := h
    rw [hopen]
    exact turn_opened_close hopen
  . next hknown =>
    obtain ⟨_, hbegin⟩ := h
    have hnone : tag.open? b.fresh = none := by
      rw [Option.eq_none_iff_forall_ne_some]
      intro e hopen
      exact hknown (Tag.isKnown_of_open? hopen)
    rw [hnone]
    dsimp only
    unfold beginCapture at hbegin
    split at hbegin
    . cases hbegin
    . next start hstart =>
      rw [hstart]
      exact turn_offerMarkup hbegin

theorem turn_enter_start {tag : Tag} {stop : Nat}
    (h : b.enter text limit stop tag false = .ok b') :
    Turn b.fresh b.elements none b'.fresh b'.elements := by
  obtain ⟨_, _, h⟩ := enter_eq_ok.mp h
  split at h
  . obtain ⟨e, hopen, rfl⟩ := h
    exact turn_opened hopen
  . obtain ⟨_, hbegin⟩ := h
    obtain ⟨start, _, rfl⟩ := beginCapture_start.mp hbegin
    exact turn_same b.fresh b.elements

theorem turn_continueCapture {c : Capture} {e : Event} {after : Reader} (hcapture : b.capture = some c)
    (h : b.continueCapture text after.position c e = .ok b') :
    Turn b.fresh b.elements (b.offered? text (e, after)) b'.fresh b'.elements := by
  unfold offered?
  rw [hcapture]
  unfold continueCapture at h
  cases e with
  | text | cdata | empty | aside =>
    cases h
    exact turn_same b.fresh b.elements
  | start tag =>
    dsimp only at h
    split at h
    . cases h
      exact turn_same b.fresh b.elements
    . cases h
      exact turn_same b.fresh b.elements
  | close name =>
    dsimp only at h ⊢
    split at h
    . next hname =>
      split at h
      . next hdepth =>
        rw [if_pos ⟨hname, hdepth⟩]
        exact turn_offerMarkup (b := { b with capture := none }) h
      . next hdepth =>
        rw [if_neg (fun hboth => hdepth hboth.2)]
        cases h
        exact turn_same b.fresh b.elements
    . next hname =>
      rw [if_neg (fun hboth => hname hboth.1)]
      cases h
      exact turn_same b.fresh b.elements

theorem turn_leaf {l : Leaf} {after : Reader} (hcapture : b.capture = none)
    (h : b.step text limit (l.event, after) = .ok b') :
    Turn b.fresh b.elements (b.offered? text (l.event, after)) b'.fresh b'.elements := by
  have hnone : b.offered? text (l.event, after) = none := by
    unfold offered?
    rw [hcapture]
    cases l <;> rfl
  rw [hnone]
  obtain ⟨content, _, rfl⟩ := (step_leaf hcapture).mp h
  obtain ⟨stack, root, capture, fresh⟩ := b
  cases stack <;> exact turn_same fresh _

/--
What a step offers, and what it does with the open elements. In particular, an element takes in nothing
but what is offered to it.
-/
theorem turn_of_step {event : Event × Reader} (h : b.step text limit event = .ok b') :
    Turn b.fresh b.elements (b.offered? text event) b'.fresh b'.elements := by
  obtain ⟨e, after⟩ := event
  cases hcapture : b.capture with
  | some c =>
    rw [step_capture hcapture] at h
    exact turn_continueCapture hcapture h
  | none =>
    cases e with
    | text raw => exact turn_leaf (l := .text raw) hcapture h
    | cdata content => exact turn_leaf (l := .cdata content) hcapture h
    | aside => exact turn_leaf (l := .aside) hcapture h
    | start tag =>
      rw [step_start hcapture] at h
      unfold offered?
      rw [hcapture]
      exact turn_enter_start h
    | empty tag =>
      rw [step_empty hcapture] at h
      exact turn_enter_empty hcapture h
    | close name =>
      rw [step_close hcapture] at h
      cases h
      unfold offered?
      rw [hcapture]
      exact turn_close b

/--
Whether elements that are open inside of each other have no parents, and their numbers go up inwards to
less than `fresh`.
-/
structure Unclaimed (fresh : Nat) (es : List Element) : Prop where
  parent : ∀ e ∈ es, e.parent? = none
  lt : ∀ e ∈ es, e.id < fresh
  sorted : es.Pairwise fun inner outer => outer.id < inner.id

namespace Unclaimed

variable {fresh fresh' : Nat} {es es' : List Element} {owner child : Element}

theorem of_suffix (h : Unclaimed fresh es) (hfresh : fresh ≤ fresh') (hsuffix : es' <:+ es) :
    Unclaimed fresh' es' := by
  refine ⟨?_, ?_, h.sorted.sublist hsuffix.sublist⟩
  . intro e he
    exact h.parent e (hsuffix.subset he)
  . intro e he
    exact Nat.lt_of_lt_of_le (h.lt e (hsuffix.subset he)) hfresh

theorem cons {e : Element} (h : Unclaimed fresh es) (hid : e.id = fresh) (hparent : e.parent? = none) :
    Unclaimed (fresh + 1) (e :: es) := by
  refine ⟨?_, ?_, ?_⟩
  . rw [List.forall_mem_cons]
    exact ⟨hparent, h.parent⟩
  . rw [List.forall_mem_cons, hid]
    exact ⟨Nat.lt_succ_self fresh, fun e he => Nat.lt_succ_of_lt (h.lt e he)⟩
  . rw [List.pairwise_cons, hid]
    exact ⟨h.lt, h.sorted⟩

theorem add {outer : List Element} (h : Unclaimed fresh (owner :: outer)) (child : Element) :
    Unclaimed fresh (owner.add child :: outer) := by
  obtain ⟨hid, hparent⟩ := Element.head_add owner child
  obtain ⟨hparents, hlt, hsorted⟩ := h
  rw [List.forall_mem_cons] at hparents hlt
  rw [List.pairwise_cons] at hsorted
  refine ⟨?_, ?_, ?_⟩
  . rw [List.forall_mem_cons, hparent]
    exact hparents
  . rw [List.forall_mem_cons, hid]
    exact hlt
  . rw [List.pairwise_cons, hid]
    exact hsorted

/--
The open elements stay without parents, and a child that is offered can be claimed.
-/
theorem turn {o : Option (Element × Element)} (h : Unclaimed fresh es)
    (hturn : Turn fresh es o fresh' es') :
    Unclaimed fresh' es' ∧ ∀ owner child, o = some (owner, child) →
      child.claim? owner.id = some (child.inside owner.id) := by
  cases hturn with
  | drops hfresh hsuffix =>
    refine ⟨h.of_suffix hfresh hsuffix, ?_⟩
    intro owner child hsome
    cases hsome
  | opens e hid hparent =>
    refine ⟨h.cons hid hparent, ?_⟩
    intro owner child hsome
    cases hsome
  | @closes inner owner child outer hes hid hparent =>
    subst hes
    refine ⟨(h.of_suffix (Nat.le_refl _) (List.suffix_cons _ _)).add child, ?_⟩
    rintro _ _ ⟨⟩
    apply Element.claim?_eq_some
    . exact hparent.trans (h.parent inner List.mem_cons_self)
    . have hlt := (List.pairwise_cons.mp h.sorted).1 owner List.mem_cons_self
      have hne : owner.id ≠ child.id := by
        omega
      exact hne
  | @makes owner child outer hes hid hparent =>
    subst hes
    refine ⟨(h.of_suffix (Nat.le_succ _) (List.suffix_refl _)).add child, ?_⟩
    rintro _ _ ⟨⟩
    apply Element.claim?_eq_some hparent
    have hlt := h.lt owner List.mem_cons_self
    have hne : owner.id ≠ child.id := by
      omega
    exact hne

end Unclaimed

theorem unclaimed_run {events : List (Event × Reader)} (hb : Unclaimed b.fresh b.elements)
    (h : events.foldlM (step text limit) b = .ok b') : Unclaimed b'.fresh b'.elements := by
  induction events generalizing b with
  | nil =>
    cases h
    exact hb
  | cons event events ih =>
    rw [List.foldlM_cons] at h
    obtain ⟨middle, hstep, hrun⟩ := bind_eq_ok.mp h
    exact ih (hb.turn (turn_of_step hstep)).1 hrun

/--
At no time in a run is a child offered that has a parent already, or that is the owner itself.
-/
theorem claim_of_offered {fresh : Nat} {events : List (Event × Reader)} {event : Event × Reader}
    {owner child : Element} (hrun : events.foldlM (step text limit) (start fresh) = .ok b)
    (hstep : b.step text limit event = .ok b') (hoffered : b.offered? text event = some (owner, child)) :
    child.claim? owner.id = some (child.inside owner.id) := by
  have hstart : Unclaimed (start fresh).fresh (start fresh).elements := by
    refine ⟨?_, ?_, List.Pairwise.nil⟩
    . intro e he
      cases he
    . intro e he
      cases he
  exact ((unclaimed_run hstart hrun).turn (turn_of_step hstep)).2 owner child hoffered

end Builder

end KmlTree
