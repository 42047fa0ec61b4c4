import KmlTree.Proofs.Document.Run
import KmlTree.Proofs.Element.Shifted

/-!
This module contains the parsing of a text under other numbers. The first number decides nothing but the
numbers of the elements: every state of the builder, the root and the error are the same otherwise
(`parseDocument_shifted`).
-/

namespace KmlTree

namespace Frame

def shifted (k : Nat) (frame : Frame) : Frame :=
  { frame with element := frame.element.shifted k }

end Frame

namespace Builder

/--
A builder with `k` added to all numbers in it.
-/
def shifted (k : Nat) (b : Builder) : Builder :=
  ⟨b.stack.map (Frame.shifted k), b.root.map (Element.shifted k), b.capture, b.fresh + k⟩

variable {k : Nat} {text : List Char} {limit : Nat}

theorem length_shifted (b : Builder) : (b.shifted k).stack.length = b.stack.length :=
  List.length_map _

theorem isEmpty_shifted (b : Builder) : (b.shifted k).stack.isEmpty = b.stack.isEmpty :=
  List.isEmpty_map

theorem pushText_shifted (b : Builder) (content : List Char) :
    (b.shifted k).pushText content = (b.pushText content).shifted k := by
  obtain ⟨stack, root, capture, fresh⟩ := b
  cases stack <;> rfl

theorem offer_shifted (b : Builder) (child : Element) :
    (b.shifted k).offer (child.shifted k) = (b.offer child).shifted k := by
  obtain ⟨stack, root, capture, fresh⟩ := b
  cases stack with
  | nil => rfl
  | cons frame frames => simp [shifted, offer, Frame.shifted, Element.add_shifted]

theorem close_shifted (b : Builder) : (b.shifted k).close = b.close.shifted k := by
  obtain ⟨stack, root, capture, fresh⟩ := b
  cases stack with
  | nil => rfl
  | cons frame frames =>
    cases frames with
    | nil => simp [shifted, close, Frame.shifted, Element.setText_shifted]
    | cons outer frames =>
      simp [shifted, close, offer, Frame.shifted, Element.setText_shifted, Element.add_shifted]

theorem opened_shifted (b : Builder) (e : Element) :
    (b.shifted k).opened (e.shifted k) = (b.opened e).shifted k := by
  simp [opened, shifted, Frame.shifted, Nat.add_right_comm]

theorem offerMarkup_shifted (start stop : Nat) (b : Builder) :
    (b.shifted k).offerMarkup text start stop
      = (b.offerMarkup text start stop).map (Builder.shifted k) := by
  unfold offerMarkup
  cases sliceBytes? start stop text with
  | none => rfl
  | some markup =>
    have hoffer := offer_shifted (k := k) { b with fresh := b.fresh + 1 }
      (.ofBody b.fresh (.fragment (String.ofList markup)))
    rw [Element.shifted_ofBody] at hoffer
    dsimp only [Except.map]
    rw [← hoffer]
    simp [shifted, Nat.add_right_comm]

theorem beginCapture_shifted (stop : Nat) (tag : Tag) (isEmpty : Bool) (b : Builder) :
    (b.shifted k).beginCapture text stop tag isEmpty
      = (b.beginCapture text stop tag isEmpty).map (Builder.shifted k) := by
  unfold beginCapture
  split
  . rfl
  . split
    . exact offerMarkup_shifted _ _ b
    . rfl

theorem enter_shifted (stop : Nat) (tag : Tag) (isEmpty : Bool) (b : Builder) :
    (b.shifted k).enter text limit stop tag isEmpty
      = (b.enter text limit stop tag isEmpty).map (Builder.shifted k) := by
  have hroot : (b.shifted k).root.isSome = b.root.isSome := Option.isSome_map
  have hfresh : (b.shifted k).fresh = b.fresh + k := rfl
  have hcreate : (Kind.ofTag? tag.name).bind (Element.create? (b.fresh + k))
      = ((Kind.ofTag? tag.name).bind (Element.create? b.fresh)).map (Element.shifted k) := by
    rw [Option.map_bind]
    congr 1
    funext kind
    exact Element.create?_shifted b.fresh kind
  unfold enter
  rw [length_shifted, isEmpty_shifted, hroot, hfresh, hcreate]
  split
  . rfl
  . split
    . rfl
    . cases (Kind.ofTag? tag.name).bind (Element.create? b.fresh) with
      | none =>
        dsimp only [Option.map_none]
        split
        . rfl
        . exact beginCapture_shifted stop tag isEmpty b
      | some e =>
        dsimp only [Option.map_some]
        cases tag.attributes with
        | error => rfl
        | ok a =>
          have hpush : (b.shifted k).push (e.shifted k) a = (b.push e a).shifted k := by
            refine Eq.trans ?_ (opened_shifted b (e.openWith a))
            rw [← Element.openWith_shifted]
            rfl
          dsimp only [Except.map]
          rw [hpush, close_shifted]
          cases isEmpty <;> rfl

theorem continueCapture_shifted (stop : Nat) (c : Capture) (b : Builder) (e : Event) :
    (b.shifted k).continueCapture text stop c e
      = (b.continueCapture text stop c e).map (Builder.shifted k) := by
  cases e with
  | text | cdata | empty | aside => rfl
  | start tag =>
    unfold continueCapture
    dsimp only
    split <;> rfl
  | close name =>
    unfold continueCapture
    dsimp only
    split
    . split
      . exact offerMarkup_shifted _ _ { b with capture := none }
      . rfl
    . rfl

theorem step_shifted (b : Builder) (event : Event × Reader) :
    (b.shifted k).step text limit event = (b.step text limit event).map (Builder.shifted k) := by
  obtain ⟨e, after⟩ := event
  have hcapture : (b.shifted k).capture = b.capture := rfl
  unfold step
  rw [hcapture]
  cases b.capture with
  | some c => exact continueCapture_shifted _ c b e
  | none =>
    cases e with
    | text raw =>
      dsimp only
      split
      . rfl
      . exact congrArg Except.ok (pushText_shifted b _)
    | cdata content => exact congrArg Except.ok (pushText_shifted b content)
    | start tag => exact enter_shifted _ tag false b
    | empty tag => exact enter_shifted _ tag true b
    | close name => exact congrArg Except.ok (close_shifted b)
    | aside => rfl

theorem steps_shifted (b : Builder) (events : List (Event × Reader)) :
    events.foldlM (step text limit) (b.shifted k)
      = (events.foldlM (step text limit) b).map (Builder.shifted k) := by
  induction events generalizing b with
  | nil => rfl
  | cons event events ih =>
    rw [List.foldlM_cons, List.foldlM_cons, step_shifted]
    cases b.step text limit event with
    | error => rfl
    | ok b' => exact ih b'

theorem finish_shifted (b : Builder) (e : Ending) :
    (b.shifted k).finish e
      = (b.finish e).map fun result => (result.1.shifted k, result.2 + k) := by
  have hcapture : (b.shifted k).capture = b.capture := rfl
  have hroot : (b.shifted k).root = b.root.map (Element.shifted k) := rfl
  unfold finish
  cases e with
  | failed => rfl
  | finished =>
    dsimp only
    rw [hcapture, hroot, isEmpty_shifted, length_shifted]
    split
    . rfl
    . split
      . cases b.root <;> rfl
      . rfl

end Builder

/--
A text is parsed in the same way from every first number on.
-/
theorem parseDocument_shifted (limit fresh k : Nat) (text : String) :
    parseDocument limit (fresh + k) text
      = (parseDocument limit fresh text).map fun result => (result.1.shifted k, result.2 + k) := by
  rw [Builder.parseDocument_eq_run, Builder.parseDocument_eq_run]
  unfold Builder.run
  have hstart : Builder.start (fresh + k) = (Builder.start fresh).shifted k := rfl
  rw [hstart, Builder.steps_shifted]
  cases (Reader.start text.toList).transcript.events.foldlM (Builder.step text.toList limit)
      (Builder.start fresh) with
  | error => rfl
  | ok b => exact Builder.finish_shifted b _

end KmlTree
