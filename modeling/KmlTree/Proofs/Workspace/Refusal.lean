import KmlTree.Proofs.Element.Reading
import KmlTree.Proofs.Workspace.Ownership

/-!
This module contains the children that are refused. An element refuses a child that it has a place for only
if the child has a parent already, and then neither of them changes. A field is read all the same where its
value is lacking, since it is not taken in by that (`Workspace.settles_run`).
-/

namespace KmlTree

open Element (Rearranged)

namespace Element

variable {owner child : Element}

theorem claim?_eq_none {parent : Nat} (h : child.parent?.isSome = true) : child.claim? parent = none := by
  unfold claim?
  apply if_pos
  rw [Bool.or_eq_true]
  exact Or.inl h

/--
A child with a parent is not taken in. At most it is read into a value.
-/
theorem add_of_parent (owner : Element) (hparent : child.parent?.isSome = true)
    (hmarkup : ∀ markup, child.body ≠ .fragment markup) :
    owner.add child
      = ((owner.body.absorb? child).map fun body => { owner with body := body }).getD owner := by
  unfold add
  split
  . next markup hbody => exact absurd hbody (hmarkup markup)
  . split
    . next hplace =>
      unfold appendChild?
      rw [absorb?_of_hasPlaceFor hplace, claim?_eq_none hparent]
      rfl
    . split
      . next body habsorb =>
        rw [habsorb]
        rfl
      . next habsorb =>
        unfold keepMisplaced
        rw [habsorb, claim?_eq_none hparent]
        rfl

/--
Whether an element that a child with a parent is added to ends as it has to. It stays as it was, unless it
reads the child into a value: then this value is set, and nothing else changes.
-/
structure Spares (owner child : Element) (result : Option Element) : Prop where
  unread : (∀ s, ¬ owner.ReadsValue child s) → result = some owner
  read : ∀ s, owner.ReadsValue child s → result = owner.assign? s
  changed : ∀ s, owner.ReadsValue child s → result ≠ some owner

theorem spares_add (hparent : child.parent?.isSome = true)
    (hmarkup : ∀ markup, child.body ≠ .fragment markup) : owner.Spares child (some (owner.add child)) := by
  have hread (s : Setting) (h : owner.ReadsValue child s) :
      some (owner.add child) = owner.assign? s := by
    obtain ⟨new, hassign, _⟩ := h.exists_assign?
    unfold assign?
    rw [add_of_parent owner hparent hmarkup, h.absorb?_eq, hassign]
    rfl
  refine ⟨?_, hread, ?_⟩
  . intro h
    rw [add_of_parent owner hparent hmarkup, absorb?_of_not_readsValue h]
    rfl
  . intro s h
    rw [hread s h]
    exact h.assign?_ne_self

end Element

namespace Workspace

variable {w : Workspace} {slot child : String} {e c : Element}

theorem get?_erase_self (w : Workspace) (slot : String) : (w.erase slot).get? slot = none := by
  unfold get? erase
  rw [List.lookup_eq_none_iff]
  intro entry hentry
  have hne := (List.mem_filter.mp hentry).2
  simpa [bne, Bool.beq_comm] using hne

theorem get?_put_self (w : Workspace) (slot : String) (e : Element) :
    (w.put slot e).get? slot = some e := by
  have herase := get?_erase_self w slot
  unfold get? at herase ⊢
  unfold put
  rw [List.lookup_append, herase, List.lookup_cons]
  simp

theorem get?_put {other : String} (h : other ≠ slot) (w : Workspace) (e : Element) :
    (w.put slot e).get? other = w.get? other := by
  have herase := get?_erase w h
  unfold get? at herase ⊢
  unfold put
  rw [List.lookup_append, herase, List.lookup_cons, beq_false_of_ne h]
  simp

/--
In a tidy workspace the elements of different slots have different numbers.
-/
theorem Tidy.id_ne (h : w.Tidy) (hne : slot ≠ child) (hslot : w.get? slot = some e)
    (hchild : w.get? child = some c) : e.id ≠ c.id := by
  -- both can be taken out, one after the other, so that they are two of the owned elements
  have hleft : (w.erase slot).get? child = some c := (get?_erase w hne.symm).trans hchild
  have htaken : Rearranged ((w.erase slot).owned ++ [e])
      (((w.erase slot).erase child).owned ++ [c, e]) := by
    have happended := Rearranged.append (.of_subperm (owned_take hleft)) (.of_subperm (.refl [e]))
    rw [List.append_assoc] at happended
    exact happended
  have hboth : Rearranged w.owned [c, e] :=
    ((Rearranged.of_subperm (owned_take hslot)).trans htaken).trans
      (.of_subperm (List.sublist_append_right _ [c, e]).subperm)
  obtain ⟨ids, hperm, hsublist⟩ := hboth.ids
  have hnodup := hperm.nodup_iff.mp (h.nodup.sublist hsublist)
  rw [List.flatMap_cons, List.flatMap_singleton, List.map_append, List.nodup_append] at hnodup
  apply Ne.symm
  apply hnodup.2.2
  . exact List.mem_map_of_mem c.mem_all_self
  . exact List.mem_map_of_mem e.mem_all_self

/--
Whether two workspaces have the same elements at the same places.
-/
structure Same (w w' : Workspace) : Prop where
  get? : ∀ slot, w'.get? slot = w.get? slot
  single : w'.single = w.single
  listed : w'.listed = w.listed

/--
Whether the offer of the child in one slot to the owner in another one ends as it has to. A child with a
parent is refused, and nothing changes. Any other child is accepted and leaves its slot, the owner becomes
`owner`, and everything else stays as it was.
-/
structure Settles (w : Workspace) (slot child : String) (c owner : Element)
    (result : Workspace × Answer) : Prop where
  rejected : result.2 = .rejected ↔ c.parent?.isSome = true
  accepted : result.2 = .accepted ↔ c.parent? = none
  unchanged : c.parent?.isSome = true → Same w result.1
  installed : c.parent? = none → result.1.get? slot = some owner
  taken : c.parent? = none → result.1.get? child = none
  others : c.parent? = none → ∀ other, other ≠ slot → other ≠ child →
    result.1.get? other = w.get? other
  apart : result.1.single = w.single ∧ result.1.listed = w.listed

theorem same_put_erase (h : w.get? child = some c) : Same w ((w.erase child).put child c) := by
  refine ⟨?_, rfl, rfl⟩
  intro slot
  by_cases hslot : slot = child
  . rw [hslot, get?_put_self, h]
  . rw [get?_put hslot, get?_erase w hslot]

theorem settles_install {childClass : ChildClass} {applicable : Element → Bool}
    {install? : Element → Element → Option Element} {owner : Element} (hne : slot ≠ child)
    (hslot : w.get? slot = some e) (hchild : w.get? child = some c)
    (hclass : c.body.class? = some childClass) (happlicable : applicable e = true)
    (hrefuse : c.parent?.isSome = true → install? e c = none)
    (haccept : c.parent? = none → install? e c = some owner) :
    w.Settles slot child c owner
      (w.withChild slot child (install slot childClass applicable install?)) := by
  unfold withChild install
  rw [if_neg hne, hslot, hchild]
  dsimp only
  rw [if_pos hclass, if_pos happlicable]
  cases hparent : c.parent? with
  | none =>
    rw [haccept hparent]
    refine ⟨?_, ?_, ?_, ?_, ?_, ?_, ?_⟩
    . rw [hparent]
      exact ⟨nofun, nofun⟩
    . rw [hparent]
      exact ⟨fun _ => rfl, fun _ => rfl⟩
    . rw [hparent]
      nofun
    . intro _
      exact get?_put_self _ slot owner
    . intro _
      exact (get?_put hne.symm _ owner).trans (get?_erase_self w child)
    . intro _ other hother hother'
      exact (get?_put hother _ owner).trans (get?_erase w hother')
    . exact ⟨rfl, rfl⟩
  | some parent =>
    have hsome : c.parent?.isSome = true := by
      rw [hparent]
      rfl
    rw [hrefuse hsome]
    refine ⟨?_, ?_, ?_, ?_, ?_, ?_, ?_⟩
    . exact ⟨fun _ => hsome, fun _ => rfl⟩
    . rw [hparent]
      exact ⟨nofun, nofun⟩
    . intro _
      exact same_put_erase hchild
    . rw [hparent]
      nofun
    . rw [hparent]
      nofun
    . rw [hparent]
      nofun
    . exact ⟨rfl, rfl⟩

theorem get?_exec_add (hne : slot ≠ child) (hslot : w.get? slot = some e)
    (hchild : w.get? child = some c) : (w.exec (.add slot child)).1.get? slot = some (e.add c) := by
  unfold exec withChild
  dsimp only
  rw [if_neg hne, hslot, hchild]
  exact get?_put_self _ slot (e.add c)

/--
Whatever was done to a workspace, a child that is set or appended is refused if and only if it has a parent.
A refused child goes back into its slot, and neither it nor the owner changes. An accepted child has the
number of its owner as parent and takes the place of what was there, or comes last; nothing else of the
owner changes. And an element with a parent that is added leaves the owner as it is, unless it is a field
that the owner reads: then one value of the owner is set that was lacking, and nothing else changes.
-/
theorem settles_run (fresh : Nat) (actions : List Action) (hne : slot ≠ child)
    (hslot : ((empty fresh).run actions).get? slot = some e)
    (hchild : ((empty fresh).run actions).get? child = some c) :
    let w := (empty fresh).run actions
    (∀ childClass, e.body.singleClass? = some childClass → c.body.class? = some childClass →
      w.Settles slot child c { e with placed := [c.inside e.id] }
        (w.exec (.setChild slot childClass (some child))))
    ∧ (e.body.isContainer = true → c.body.class? = some .feature →
      w.Settles slot child c { e with placed := e.placed ++ [c.inside e.id] }
        (w.exec (.addFeature slot child)))
    ∧ (c.parent?.isSome = true → (∀ markup, c.body ≠ .fragment markup) →
      e.Spares c ((w.exec (.add slot child)).1.get? slot)) := by
  intro w
  have hid : e.id ≠ c.id := (tidy_run actions (tidy_empty fresh)).id_ne hne hslot hchild
  have hrefuse (place : Element → Element) (h : c.parent?.isSome = true) :
      (c.claim? e.id).map place = none := by
    rw [Element.claim?_eq_none h]
    rfl
  have haccept (place : Element → Element) (h : c.parent? = none) :
      (c.claim? e.id).map place = some (place (c.inside e.id)) := by
    rw [Element.claim?_eq_some h hid]
    rfl
  refine ⟨?_, ?_, ?_⟩
  . intro childClass hsingle hclass
    apply settles_install hne hslot hchild hclass (decide_eq_true hsingle)
    . exact hrefuse fun c => { e with placed := [c] }
    . exact haccept fun c => { e with placed := [c] }
  . intro hcontainer hclass
    apply settles_install hne hslot hchild hclass hcontainer
    . exact hrefuse fun c => { e with placed := e.placed ++ [c] }
    . exact haccept fun c => { e with placed := e.placed ++ [c] }
  . intro hparent hmarkup
    rw [get?_exec_add hne hslot hchild]
    exact Element.spares_add hparent hmarkup

theorem settles_run_placemark :
    let w := (empty 0).run [.command (.create "kml" .kml), .command (.create "folder" .folder),
      .command (.create "placemark" .placemark), .command (.createField "name" .name "A"),
      .claim "folder" 7, .claim "name" 7]
    let kml := Element.ofBody 0 (.kml none)
    let folder := (Element.ofBody 1 (.feature .folder .empty)).inside 7
    let placemark := Element.ofBody 2 (.feature .placemark .empty)
    let name := (Element.ofText 3 .name "A").inside 7
    w.get? "kml" = some kml ∧ w.get? "folder" = some folder ∧ w.get? "placemark" = some placemark
      ∧ w.get? "name" = some name
      ∧ (w.exec (.setChild "kml" .feature (some "folder"))).2 = .rejected
      ∧ Same w (w.exec (.setChild "kml" .feature (some "folder"))).1
      ∧ (w.exec (.setChild "kml" .feature (some "placemark"))).2 = .accepted
      ∧ (w.exec (.setChild "kml" .feature (some "placemark"))).1.get? "kml"
        = some { kml with placed := [placemark.inside 0] }
      ∧ (w.exec (.add "kml" "folder")).1.get? "kml" = some kml
      ∧ (w.exec (.add "placemark" "folder")).1.get? "placemark" = some placemark
      ∧ placemark.ReadsValue name (.name "A")
      ∧ (w.exec (.add "placemark" "name")).1.get? "placemark"
        = some { placemark with body := .feature .placemark { FeatureFields.empty with name := "A" } } := by
  intro w kml folder placemark name
  have hkml : w.get? "kml" = some kml := by
    rfl
  have hfolder : w.get? "folder" = some folder := by
    rfl
  have hplacemark : w.get? "placemark" = some placemark := by
    rfl
  have hname : w.get? "name" = some name := by
    rfl
  obtain ⟨hset, _, hadd⟩ := settles_run 0 _ (by decide : "kml" ≠ "folder") hkml hfolder
  obtain ⟨hset', _, _⟩ := settles_run 0 _ (by decide : "kml" ≠ "placemark") hkml hplacemark
  obtain ⟨_, _, hadd'⟩ := settles_run 0 _ (by decide : "placemark" ≠ "folder") hplacemark hfolder
  obtain ⟨_, _, hread⟩ := settles_run 0 _ (by decide : "placemark" ≠ "name") hplacemark hname
  have hrefused := hset .feature rfl rfl
  have haccepted := hset' .feature rfl rfl
  have hreads : placemark.ReadsValue name (.name "A") := ⟨rfl, rfl⟩
  refine ⟨hkml, hfolder, hplacemark, hname, ?_, ?_, ?_, ?_, ?_, ?_, hreads, ?_⟩
  . exact hrefused.rejected.mpr rfl
  . exact hrefused.unchanged rfl
  . exact haccepted.accepted.mpr rfl
  . exact haccepted.installed rfl
  . exact (hadd rfl nofun).unread nofun
  . exact (hadd' rfl nofun).unread nofun
  . exact (hread rfl nofun).read _ hreads

/--
A field that has a parent changes the element that it is added to.
-/
theorem claimed_name_read :
    let w := (empty 0).run [.command (.create "placemark" .placemark),
      .command (.createField "name" .name "A"), .command (.create "folder" .folder),
      .command (.claim "name" "folder")]
    let placemark := Element.ofBody 0 (.feature .placemark .empty)
    let name := (Element.ofText 1 .name "A").inside 2
    w.get? "placemark" = some placemark ∧ w.get? "name" = some name ∧ name.parent? = some 2
      ∧ Kind.ofTag? "name" = some name.kind
      ∧ (w.exec (.add "placemark" "name")).1.get? "placemark" ≠ some placemark := by
  intro w placemark name
  refine ⟨rfl, rfl, rfl, rfl, ?_⟩
  intro hsame
  have hbody := congrArg (Option.map Element.body) hsame
  cases hbody

end Workspace

end KmlTree
