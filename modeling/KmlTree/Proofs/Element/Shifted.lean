import KmlTree.Proofs.Element.Bare
import KmlTree.Proofs.Element.Opening

/-!
This module contains elements under other numbers (`Element.shifted`). What an element does with a child
does not depend on the numbers, as long as all of them are moved by the same amount.
-/

namespace KmlTree

def Head.shifted (k : Nat) (h : Head) : Head :=
  { h with id := h.id + k, parent := h.parent.map (· + k) }

mutual

/--
An element with `k` added to its number and to those of all elements in it.
-/
def Element.shifted (k : Nat) : Element → Element
  | ⟨head, body, placed, misplaced⟩ =>
    ⟨head.shifted k, body, shiftedAll k placed, shiftedAll k misplaced⟩

def shiftedAll (k : Nat) : List Element → List Element
  | [] => []
  | e :: es => e.shifted k :: shiftedAll k es

end

theorem shiftedAll_eq (k : Nat) (es : List Element) : shiftedAll k es = es.map (Element.shifted k) := by
  induction es with
  | nil =>
    rw [shiftedAll]
    rfl
  | cons e es ih => rw [shiftedAll, ih, List.map_cons]

namespace Element

variable {k : Nat}

theorem shifted_eq (k : Nat) (e : Element) :
    e.shifted k = ⟨e.head.shifted k, e.body, e.placed.map (shifted k), e.misplaced.map (shifted k)⟩ := by
  obtain ⟨head, body, placed, misplaced⟩ := e
  rw [shifted, shiftedAll_eq, shiftedAll_eq]

@[simp]
theorem shifted_ofBody (id : Nat) (body : Body) : (ofBody id body).shifted k = ofBody (id + k) body := by
  rw [shifted_eq]
  rfl

theorem shifted_inside (parent : Nat) (e : Element) :
    (e.inside parent).shifted k = (e.shifted k).inside (parent + k) := by
  rw [shifted_eq, shifted_eq]
  rfl

theorem bare_shifted (k : Nat) (e : Element) : (e.shifted k).bare = e.bare := by
  induction e using Element.induction with
  | step e hplaced hmisplaced =>
    have hmap {es : List Element} (h : ∀ c ∈ es, (c.shifted k).bare = c.bare) :
        (es.map (shifted k)).map bare = es.map bare := by
      rw [List.map_map]
      exact List.map_congr_left h
    rw [bare_eq, bare_eq e, shifted_eq]
    dsimp only
    rw [hmap hplaced, hmap hmisplaced]
    rfl

theorem claim?_shifted (parent : Nat) (e : Element) :
    (e.shifted k).claim? (parent + k) = (e.claim? parent).map (shifted k) := by
  have hparent : (e.shifted k).head.parent.isSome = e.head.parent.isSome := by
    rw [shifted_eq]
    exact Option.isSome_map
  have hid : (parent + k == (e.shifted k).head.id) = (parent == e.head.id) := by
    rw [shifted_eq, Bool.eq_iff_iff, beq_iff_eq, beq_iff_eq]
    exact Nat.add_right_cancel_iff
  unfold claim?
  rw [hparent, hid]
  split
  . rfl
  . exact congrArg some (shifted_inside parent e).symm

theorem hasPlaceFor_shifted (owner child : Element) :
    (owner.shifted k).hasPlaceFor (child.shifted k) = owner.hasPlaceFor child := by
  rw [hasPlaceFor_of_bare (bare_shifted k child), shifted_eq]
  unfold hasPlaceFor
  simp

theorem appendChild?_shifted (owner child : Element) :
    (owner.shifted k).appendChild? (child.shifted k) = (owner.appendChild? child).map (shifted k) := by
  have hid : (owner.shifted k).id = owner.id + k := by
    rw [shifted_eq]
    rfl
  unfold appendChild?
  rw [hid, claim?_shifted, Option.map_map, Option.map_map]
  congr 1
  funext child
  simp [shifted_eq]

theorem keepMisplaced_shifted (owner child : Element) :
    (owner.shifted k).keepMisplaced (child.shifted k) = (owner.keepMisplaced child).shifted k := by
  have hid : (owner.shifted k).id = owner.id + k := by
    rw [shifted_eq]
    rfl
  unfold keepMisplaced
  rw [hid, claim?_shifted]
  cases child.claim? owner.id with
  | none => rfl
  | some child => simp [shifted_eq]

theorem add_shifted (owner child : Element) :
    (owner.shifted k).add (child.shifted k) = (owner.add child).shifted k := by
  have hchild : (child.shifted k).body = child.body := by
    rw [shifted_eq]
  have howner : (owner.shifted k).body = owner.body := by
    rw [shifted_eq]
  unfold add
  rw [hchild, howner, hasPlaceFor_shifted, Body.absorb?_of_bare (bare_shifted k child)]
  split
  . rw [shifted_eq, shifted_eq]
    rfl
  . split
    . rw [appendChild?_shifted, Option.getD_map]
    . split
      . simp [shifted_eq]
      . exact keepMisplaced_shifted owner child

theorem setText_shifted (e : Element) (text : String) :
    (e.shifted k).setText text = (e.setText text).shifted k := by
  rw [shifted_eq, shifted_eq]
  rfl

theorem create?_shifted (id : Nat) (kind : Kind) :
    create? (id + k) kind = (create? id kind).map (shifted k) := by
  unfold create?
  split
  case h_8 =>
    split
    . simp
    . rfl
  all_goals
    simp

theorem openWith_shifted (e : Element) (a : Attributes) :
    (e.shifted k).openWith a = (e.openWith a).shifted k := by
  have htake (e : Element) (a : Attributes) :
      (e.shifted k).takeAttributes a = (e.takeAttributes a).shifted k := by
    unfold takeAttributes Head.keepAttributes
    simp only [shifted_eq]
    split
    . rfl
    . dsimp only [Head.shifted]
      split <;> rfl
  unfold openWith
  dsimp only
  cases (a.cut "xmlns").1 with
  | none => exact htake e _
  | some xmlns =>
    have hxmlns : (e.shifted k).setXmlns xmlns = (e.setXmlns xmlns).shifted k := by
      rw [shifted_eq, shifted_eq]
      rfl
    dsimp only
    rw [hxmlns]
    exact htake _ _

end Element

end KmlTree
