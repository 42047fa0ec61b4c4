import KmlTree.Proofs.Element.Family
import Mathlib.Data.List.Flatten
import Mathlib.Data.List.Perm.Subperm

/-!
This module contains what becomes of elements that are moved (`Element.Rearranged`). An operation may
drop an element, claim it and put it into another one. It never makes a second one with the same number,
and never takes an element away from its parent.
-/

namespace KmlTree

namespace Element

/--
Whether an element is the parent of all elements that it holds, and not of itself.
-/
structure Owns (e : Element) : Prop where
  held : ∀ c ∈ e.placed ++ e.misplaced, c.parent? = some e.id
  parent_ne : e.parent? ≠ some e.id

/--
Whether the trees in `after` are made of elements of the trees in `before`: each is there at most as
often as before, those that had a parent still have the same one, and what an element holds is its own.
-/
structure Rearranged (before after : List Element) : Prop where
  ids : ((after.flatMap all).map id).Subperm ((before.flatMap all).map id)
  origin : ∀ x ∈ after.flatMap all, ∃ y ∈ before.flatMap all,
    y.id = x.id ∧ ∀ p, y.parent? = some p → x.parent? = some p
  owns : (∀ y ∈ before.flatMap all, y.Owns) → ∀ x ∈ after.flatMap all, x.Owns

namespace Rearranged

theorem trans {before middle after : List Element} (h : Rearranged before middle)
    (h' : Rearranged middle after) : Rearranged before after := by
  refine ⟨h'.ids.trans h.ids, ?_, fun hbefore => h'.owns (h.owns hbefore)⟩
  intro x hx
  obtain ⟨y, hy, hid, hparent⟩ := h'.origin x hx
  obtain ⟨z, hz, hid', hparent'⟩ := h.origin y hy
  exact ⟨z, hz, hid'.trans hid, fun p hp => hparent p (hparent' p hp)⟩

theorem of_subperm {before after : List Element} (h : after.Subperm before) :
    Rearranged before after := by
  obtain ⟨es, hperm, hsublist⟩ := h
  have hall : (after.flatMap all).Subperm (before.flatMap all) :=
    ⟨es.flatMap all, hperm.flatMap_right all, hsublist.flatMap all⟩
  refine ⟨?_, ?_, ?_⟩
  . obtain ⟨xs, hperm, hsublist⟩ := hall
    exact ⟨xs.map id, hperm.map id, hsublist.map id⟩
  . intro x hx
    exact ⟨x, hall.subset hx, rfl, fun _ hp => hp⟩
  . intro hbefore x hx
    exact hbefore x (hall.subset hx)

theorem append {before after before' after' : List Element} (h : Rearranged before after)
    (h' : Rearranged before' after') : Rearranged (before ++ before') (after ++ after') := by
  refine ⟨?_, ?_, ?_⟩
  . simp only [List.flatMap_append, List.map_append]
    exact h.ids.append h'.ids
  . intro x hx
    simp only [List.flatMap_append, List.mem_append] at hx ⊢
    cases hx with
    | inl hx =>
      obtain ⟨y, hy, hsame⟩ := h.origin x hx
      exact ⟨y, Or.inl hy, hsame⟩
    | inr hx =>
      obtain ⟨y, hy, hsame⟩ := h'.origin x hx
      exact ⟨y, Or.inr hy, hsame⟩
  . intro hbefore x hx
    simp only [List.flatMap_append, List.mem_append] at hbefore hx
    cases hx with
    | inl hx => exact h.owns (fun y hy => hbefore y (Or.inl hy)) x hx
    | inr hx => exact h'.owns (fun y hy => hbefore y (Or.inr hy)) x hx

theorem append_left {before after : List Element} (es : List Element) (h : Rearranged before after) :
    Rearranged (es ++ before) (es ++ after) :=
  append (of_subperm (List.Subperm.refl es)) h

variable {owner e child : Element}

/--
An element that takes in others is made of them and of its former children.
-/
theorem of_children {others : List Element} (hid : e.id = owner.id)
    (hparent : ∀ p, owner.parent? = some p → e.parent? = some p)
    (hchildren : Rearranged (owner.placed ++ owner.misplaced ++ others) (e.placed ++ e.misplaced))
    (howns : owner.Owns → e.Owns) : Rearranged (owner :: others) [e] := by
  have hbefore : (owner :: others).flatMap all
      = owner :: (owner.placed ++ owner.misplaced ++ others).flatMap all := by
    rw [List.flatMap_cons, all_eq]
    simp only [List.flatMap_append, List.cons_append, List.append_assoc]
  have hafter : [e].flatMap all = e :: (e.placed ++ e.misplaced).flatMap all := by
    rw [List.flatMap_singleton, all_eq]
    simp only [List.flatMap_append, List.cons_append]
  refine ⟨?_, ?_, ?_⟩
  . rw [hbefore, hafter, List.map_cons, List.map_cons, hid]
    exact (List.subperm_cons _).mpr hchildren.ids
  . intro x hx
    rw [hafter, List.mem_cons] at hx
    rw [hbefore]
    cases hx with
    | inl hself =>
      subst hself
      exact ⟨owner, List.mem_cons_self, hid.symm, hparent⟩
    | inr hx =>
      obtain ⟨y, hy, hsame⟩ := hchildren.origin x hx
      exact ⟨y, List.mem_cons_of_mem owner hy, hsame⟩
  . rw [hbefore, hafter]
    intro hall x hx
    rw [List.forall_mem_cons] at hall
    cases List.mem_cons.mp hx with
    | inl hself =>
      subst hself
      exact howns hall.1
    | inr hx => exact hchildren.owns hall.2 x hx

/--
An element may lose children and change in all but its number and its parent.
-/
theorem of_subperm_children (hid : e.id = owner.id) (hparent : e.parent? = owner.parent?)
    (hsubperm : (e.placed ++ e.misplaced).Subperm (owner.placed ++ owner.misplaced)) :
    Rearranged [owner] [e] := by
  apply of_children hid
  . intro p hp
    rw [hparent]
    exact hp
  . rw [List.append_nil]
    exact of_subperm hsubperm
  . intro howner
    constructor
    . intro c hc
      rw [hid]
      exact howner.held c (hsubperm.subset hc)
    . rw [hparent, hid]
      exact howner.parent_ne

theorem of_claim {parent : Nat} (h : child.claim? parent = some e) : Rearranged [child] [e] := by
  obtain ⟨hnone, hne, rfl⟩ := claim?_spec h
  apply of_children
  . rfl
  . intro p hp
    rw [hnone] at hp
    cases hp
  . rw [List.append_nil]
    exact of_subperm (List.Subperm.refl _)
  . intro hchild
    refine ⟨hchild.held, ?_⟩
    intro hself
    exact hne (Option.some.inj hself)

/--
An element may take in a child that it claims.
-/
theorem of_claimed {claimed : Element} (hclaim : child.claim? owner.id = some claimed)
    (hid : e.id = owner.id) (hparent : e.parent? = owner.parent?)
    (hsubperm : (e.placed ++ e.misplaced).Subperm (owner.placed ++ owner.misplaced ++ [claimed])) :
    Rearranged [owner, child] [e] := by
  obtain ⟨_, _, hclaimed⟩ := claim?_spec hclaim
  apply of_children hid
  . intro p hp
    rw [hparent]
    exact hp
  . exact (append_left _ (of_claim hclaim)).trans (of_subperm hsubperm)
  . intro howner
    constructor
    . intro c hc
      rw [hid]
      cases List.mem_append.mp (hsubperm.subset hc) with
      | inl hold => exact howner.held c hold
      | inr hnew =>
        rw [List.mem_singleton.mp hnew, hclaimed]
        rfl
    . rw [hparent, hid]
      exact howner.parent_ne

theorem of_appendChild (h : owner.appendChild? child = some e) : Rearranged [owner, child] [e] := by
  unfold appendChild? at h
  obtain ⟨claimed, hclaim, rfl⟩ := Option.map_eq_some_iff.mp h
  refine of_claimed hclaim ?_ ?_ ?_
  . rfl
  . rfl
  . rw [List.append_assoc, List.append_assoc]
    exact (List.perm_append_comm.append_left owner.placed).subperm

theorem of_replaceChild (h : owner.replaceChild? child = some e) : Rearranged [owner, child] [e] := by
  unfold replaceChild? at h
  obtain ⟨claimed, hclaim, rfl⟩ := Option.map_eq_some_iff.mp h
  have hlost : (owner.misplaced ++ [claimed]).Sublist
      (owner.placed ++ owner.misplaced ++ [claimed]) := by
    rw [List.append_assoc]
    exact List.sublist_append_right _ _
  refine of_claimed hclaim ?_ ?_ ?_
  . rfl
  . rfl
  . exact List.perm_append_comm.subperm.trans hlost.subperm

theorem drop_child (owner child : Element) : Rearranged [owner, child] [owner] :=
  of_subperm (List.sublist_append_left [owner] [child]).subperm

theorem keepMisplaced (owner child : Element) :
    Rearranged [owner, child] [owner.keepMisplaced child] := by
  unfold Element.keepMisplaced
  split
  . next claimed hclaim =>
    refine of_claimed hclaim ?_ ?_ ?_
    . rfl
    . rfl
    . rw [List.append_assoc]
  . exact drop_child owner child

theorem of_data (hid : e.id = owner.id) (hparent : e.parent? = owner.parent?)
    (hplaced : e.placed = owner.placed) (hmisplaced : e.misplaced = owner.misplaced) :
    Rearranged [owner] [e] := by
  apply of_subperm_children hid hparent
  rw [hplaced, hmisplaced]

theorem clearPlaced (e : Element) : Rearranged [e] [e.clearPlaced] :=
  of_subperm_children rfl rfl (List.sublist_append_right _ _).subperm

/--
Whatever an element does with a child that is offered to it, the child is in it at most once, and only
if it is the parent.
-/
theorem add (owner child : Element) : Rearranged [owner, child] [owner.add child] := by
  unfold Element.add
  split
  . exact (drop_child owner child).trans (of_data rfl rfl rfl rfl)
  . split
    . cases happend : owner.appendChild? child with
      | some e => exact of_appendChild happend
      | none => exact drop_child owner child
    . split
      . exact (drop_child owner child).trans (of_data rfl rfl rfl rfl)
      . exact keepMisplaced owner child

end Rearranged

end Element

end KmlTree
