import KmlTree.Proofs.Document.Growth
import KmlTree.Proofs.Element.Rearranged
import KmlTree.Workspace.Command

/-!
This module contains the ownership of the elements of a workspace. Whatever is done to it, no two elements
in it have the same number, each one is held by its parent, and a parent that is set once stays the same
(`Workspace.ownership`).
-/

namespace KmlTree

open Element (Rearranged)

theorem Head.id_keepAttributes (h : Head) (a : Attributes) :
    (h.keepAttributes a).id = h.id ∧ (h.keepAttributes a).parent = h.parent := by
  unfold keepAttributes
  split
  . exact ⟨rfl, rfl⟩
  . split <;> exact ⟨rfl, rfl⟩

namespace Element

theorem owns_of_childless {e : Element} (hplaced : e.placed = []) (hmisplaced : e.misplaced = [])
    (hparent : e.parent? = none) : ∀ x ∈ e.all, x.Owns := by
  rw [forall_mem_all, hplaced, hmisplaced]
  refine ⟨⟨?_, ?_⟩, ?_⟩
  . rw [hplaced, hmisplaced]
    intro c hc
    cases hc
  . rw [hparent]
    simp
  . intro c hc
    cases hc

theorem owns_open {fresh : Nat} {tag : Tag} {e : Element} (h : tag.open? fresh = some e) :
    ∀ x ∈ e.all, x.Owns := by
  obtain ⟨body, a, _, _, _, rfl⟩ := Tag.open?_spec h
  rw [openWith_ofBody]
  exact owns_of_childless rfl rfl rfl

theorem owns_setText {e : Element} (h : ∀ x ∈ e.all, x.Owns) (text : String) :
    ∀ x ∈ (e.setText text).all, x.Owns := by
  have hsame : Rearranged [e] [e.setText text] := .of_data rfl rfl rfl rfl
  simpa using hsame.owns (by simpa using h)

theorem owns_add {owner child : Element} (howner : ∀ x ∈ owner.all, x.Owns)
    (hchild : ∀ x ∈ child.all, x.Owns) : ∀ x ∈ (owner.add child).all, x.Owns := by
  have hadd := (Rearranged.add owner child).owns
  simp only [List.flatMap_cons, List.flatMap_nil, List.append_nil, List.mem_append] at hadd
  apply hadd
  rintro x (hx | hx)
  . exact howner x hx
  . exact hchild x hx

end Element

namespace Forest

theorem Feeds.owns {text : List Char} {limit depth position fresh fresh' : Nat} {frame frame' : Frame}
    {f : Forest} (h : Feeds text limit depth position frame fresh f frame' fresh')
    (hframe : ∀ x ∈ frame.element.all, x.Owns) : ∀ x ∈ frame'.element.all, x.Owns := by
  induction h with
  | nil => exact hframe
  | leaf _ _ ih => exact ih hframe
  | known inner fresh' _ _ hopen _ _ ihinside ihnext =>
    have hinner := ihinside (Element.owns_open hopen)
    exact ihnext (Element.owns_add hframe (Element.owns_setText hinner inner.text))
  | @unknown _ _ fresh _ _ _ _ _ _ markup _ _ _ _ _ ih =>
    have hfragment : ∀ x ∈ (Element.ofMarkup fresh markup).all, x.Owns :=
      Element.owns_of_childless rfl rfl rfl
    exact ih (Element.owns_add hframe hfragment)

theorem Yields.owns {text : List Char} {limit fresh position n : Nat} {f : Forest} {root : Element}
    (h : f.Yields text limit fresh position root n) : ∀ x ∈ root.all, x.Owns := by
  induction h with
  | leaf _ _ ih => exact ih
  | root _ _ hopen hinside _ =>
    exact Element.owns_setText (hinside.owns (Element.owns_open hopen)) _

end Forest

namespace Workspace

/--
The elements that are in no other one.
-/
def owned (w : Workspace) : List Element := w.slots.map Prod.snd ++ w.single.toList ++ w.listed

/--
All elements of a workspace, each as often as there are places where it is.
-/
def elements (w : Workspace) : List Element := w.owned.flatMap Element.all

variable {w : Workspace} {slot child : String} {e : Element}

theorem get?_erase (w : Workspace) (h : slot ≠ child) : (w.erase child).get? slot = w.get? slot := by
  unfold get? erase
  dsimp only
  induction w.slots with
  | nil => rfl
  | cons entry entries ih =>
    obtain ⟨name, e⟩ := entry
    rw [List.filter_cons, List.lookup_cons]
    by_cases hname : name = child
    . have hother : (slot == name) = false := by
        rw [hname]
        simpa using h
      rw [if_neg (by simp [hname]), hother, ih]
    . rw [if_pos (by simpa using hname), List.lookup_cons, ih]

theorem owned_erase_sublist (w : Workspace) (slot : String) : (w.erase slot).owned.Sublist w.owned := by
  unfold owned erase
  dsimp only
  apply List.Sublist.append_right
  apply List.Sublist.append_right
  exact List.filter_sublist.map Prod.snd

theorem owned_put_perm (w : Workspace) (slot : String) (e : Element) :
    (w.put slot e).owned.Perm ((w.erase slot).owned ++ [e]) := by
  unfold owned put erase
  simp only [List.map_append, List.map_cons, List.map_nil, List.append_assoc]
  apply List.Perm.append_left
  rw [← List.append_assoc w.single.toList]
  exact List.perm_append_comm

theorem owned_subperm {slots : List (String × Element)} (h : slots.Subperm w.slots) :
    ({ w with slots := slots } : Workspace).owned.Subperm w.owned := by
  obtain ⟨entries, hperm, hsublist⟩ := h
  refine ⟨entries.map Prod.snd ++ w.single.toList ++ w.listed, ?_, ?_⟩
  . apply List.Perm.append_right
    apply List.Perm.append_right
    exact hperm.map Prod.snd
  . apply List.Sublist.append_right
    apply List.Sublist.append_right
    exact hsublist.map Prod.snd

theorem slots_take (h : w.get? slot = some e) :
    ((w.erase slot).slots ++ [(slot, e)]).Subperm w.slots := by
  obtain ⟨before, after, hslots, _⟩ := List.lookup_eq_some_iff.mp h
  have herased : (w.erase slot).slots.Sublist (before ++ after) := by
    unfold erase
    dsimp only
    rw [hslots, List.filter_append, List.filter_cons, if_neg (by simp), ← List.filter_append]
    exact List.filter_sublist
  have hmoved : (before ++ after ++ [(slot, e)]).Perm w.slots := by
    rw [hslots, List.append_assoc]
    exact List.perm_append_comm.append_left before
  exact (herased.append_right _).subperm.trans hmoved.subperm

/--
The element of a slot is there once, so that it can be taken out.
-/
theorem owned_take (h : w.get? slot = some e) : ((w.erase slot).owned ++ [e]).Subperm w.owned :=
  (owned_put_perm w slot e).symm.subperm.trans (owned_subperm (slots_take h))

/--
The element that is claimed takes the place of the single one.
-/
theorem owned_single_subperm (w : Workspace) (c : Element) :
    ({ w with single := some c } : Workspace).owned.Subperm (w.owned ++ [c]) := by
  have hmoved : ({ w with single := some c } : Workspace).owned.Perm
      (w.slots.map Prod.snd ++ w.listed ++ [c]) := by
    unfold owned
    rw [List.append_assoc, List.append_assoc]
    exact List.perm_append_comm.append_left _
  have hlost : (w.slots.map Prod.snd ++ w.listed).Sublist w.owned := by
    unfold owned
    rw [List.append_assoc]
    exact (List.sublist_append_right _ _).append_left _
  exact hmoved.subperm.trans (hlost.append_right [c]).subperm

theorem owned_dropSingle_sublist (w : Workspace) :
    ({ w with single := none } : Workspace).owned.Sublist w.owned := by
  unfold owned
  exact ((List.nil_sublist _).append_left _).append_right _

theorem owned_listed_subperm (w : Workspace) (c : Element) :
    ({ w with listed := w.listed ++ [c] } : Workspace).owned.Subperm (w.owned ++ [c]) := by
  unfold owned
  rw [← List.append_assoc]

theorem rearranged_put (hget : w.get? slot = some e) {others : List Element} {e' : Element}
    (h : Rearranged (e :: others) [e']) : Rearranged (w.owned ++ others) (w.put slot e').owned := by
  have htake : Rearranged (w.owned ++ others) ((w.erase slot).owned ++ e :: others) := by
    have hsame := Rearranged.append (.of_subperm (owned_take hget)) (.of_subperm (.refl others))
    rw [List.append_assoc] at hsame
    exact hsame
  have hput : Rearranged ((w.erase slot).owned ++ [e']) (w.put slot e').owned :=
    .of_subperm (owned_put_perm w slot e').subperm
  exact (htake.trans (h.append_left _)).trans hput

/--
Whether a workspace comes from another one by moving its elements, without making one.
-/
structure Moves (w w' : Workspace) : Prop where
  rearranged : Rearranged w.owned w'.owned
  fresh : w'.fresh = w.fresh

/--
Whether something that is done with a child that is out of its slot leaves the child at one place at
most: in the workspace, or in the hands of the caller.
-/
structure Disposes (w : Workspace) (c : Element) (result : Workspace × Answer × Option Element) :
    Prop where
  rearranged : Rearranged (w.owned ++ [c]) (result.1.owned ++ result.2.2.toList)
  fresh : result.1.fresh = w.fresh

namespace Moves

theorem refl (w : Workspace) : Moves w w :=
  ⟨.of_subperm (.refl _), rfl⟩

theorem erase (w : Workspace) (slot : String) : Moves w (w.erase slot) :=
  ⟨.of_subperm (owned_erase_sublist w slot).subperm, rfl⟩

theorem dropSingle (w : Workspace) : Moves w { w with single := none } :=
  ⟨.of_subperm (owned_dropSingle_sublist w).subperm, rfl⟩

theorem put {e' : Element} (hget : w.get? slot = some e) (h : Rearranged [e] [e']) :
    Moves w (w.put slot e') := by
  refine ⟨?_, rfl⟩
  have hput := rearranged_put hget h
  rw [List.append_nil] at hput
  exact hput

theorem update {f : Element → Element × Answer} (hf : ∀ e, Rearranged [e] [(f e).1]) :
    Moves w (w.update slot f).1 := by
  unfold Workspace.update
  split
  . exact refl w
  . next e hget => exact put hget (hf e)

theorem update? {f : Element → Option Element} {answer : Element → Answer}
    (hf : ∀ e e', f e = some e' → Rearranged [e] [e']) : Moves w (w.update? slot f answer).1 := by
  unfold Workspace.update?
  apply update
  intro e
  split
  . next e' hsome => exact hf e e' hsome
  . exact .of_subperm (.refl _)

theorem withChild {f : Workspace → Element → Element → Workspace × Answer × Option Element}
    (hf : ∀ w e c, w.get? slot = some e → Disposes w c (f w e c)) :
    Moves w (w.withChild slot child f).1 := by
  unfold Workspace.withChild
  split
  . exact refl w
  . next hne =>
    split
    . next e c hget hchild =>
      have hkept : (w.erase child).get? slot = some e := by
        rw [get?_erase w hne]
        exact hget
      have htake : Rearranged w.owned ((w.erase child).owned ++ [c]) :=
        .of_subperm (owned_take hchild)
      obtain ⟨hrearranged, hfresh⟩ := hf (w.erase child) e c hkept
      split
      . next w' answer hresult =>
        rw [hresult] at hrearranged hfresh
        simp only [Option.toList_none, List.append_nil] at hrearranged
        exact ⟨htake.trans hrearranged, hfresh⟩
      . next w' answer c' hresult =>
        rw [hresult] at hrearranged hfresh
        have hback : (w'.put child c').owned.Subperm (w'.owned ++ [c']) :=
          (owned_put_perm w' child c').subperm.trans
            ((owned_erase_sublist w' child).append_right [c']).subperm
        exact ⟨(htake.trans hrearranged).trans (.of_subperm hback), hfresh⟩
    . exact refl w

end Moves

namespace Disposes

variable {c : Element}

theorem refused (w : Workspace) (c : Element) (answer : Answer) : Disposes w c (w, answer, some c) :=
  ⟨.of_subperm (.refl _), rfl⟩

theorem put {owner : Element} {answer : Answer} (hget : w.get? slot = some e)
    (h : Rearranged [e, c] [owner]) : Disposes w c (w.put slot owner, answer, none) := by
  refine ⟨?_, rfl⟩
  simp only [Option.toList_none, List.append_nil]
  exact rearranged_put hget h

theorem install {childClass : ChildClass} {applicable : Element → Bool}
    {install? : Element → Element → Option Element} (hget : w.get? slot = some e)
    (hinstall : ∀ owner, install? e c = some owner → Rearranged [e, c] [owner]) :
    Disposes w c (Workspace.install slot childClass applicable install? w e c) := by
  unfold Workspace.install
  split
  . split
    . split
      . next owner hinstalled => exact put hget (hinstall owner hinstalled)
      . exact refused w c _
    . exact refused w c _
  . exact refused w c _

theorem claimFor {store : Workspace → Element → Workspace}
    (hstore : ∀ w c, (store w c).owned.Subperm (w.owned ++ [c]) ∧ (store w c).fresh = w.fresh) :
    Disposes w c (Workspace.claimFor store w e c) := by
  unfold Workspace.claimFor
  split
  . next claimed hclaim =>
    obtain ⟨hsubperm, hfresh⟩ := hstore w claimed
    refine ⟨?_, hfresh⟩
    simp only [Option.toList_none, List.append_nil]
    exact ((Rearranged.of_claim hclaim).append_left _).trans (.of_subperm hsubperm)
  . exact refused w c _

end Disposes

/--
Whether a workspace comes from another one by moving elements of it and new ones, which have numbers that
were not used before.
-/
structure Follows (w : Workspace) (new : List Element) (w' : Workspace) : Prop where
  rearranged : Rearranged (w.owned ++ new) w'.owned
  fresh_le : w.fresh ≤ w'.fresh
  nodup : ((new.flatMap Element.all).map Element.id).Nodup
  bounds : ∀ x ∈ new.flatMap Element.all, w.fresh ≤ x.id ∧ x.id < w'.fresh
  owns : ∀ x ∈ new.flatMap Element.all, x.Owns

theorem Moves.follows {w' : Workspace} (h : Moves w w') : Follows w [] w' := by
  refine ⟨?_, Nat.le_of_eq h.fresh.symm, ?_, ?_, ?_⟩
  . rw [List.append_nil]
    exact h.rearranged
  . exact List.nodup_nil
  . intro x hx
    cases hx
  . intro x hx
    cases hx

namespace Follows

theorem putNew {fresh : Nat} (slot : String) (hnodup : e.ids.Nodup)
    (hbounds : ∀ x ∈ e.all, w.fresh ≤ x.id ∧ x.id < fresh) (howns : ∀ x ∈ e.all, x.Owns) :
    Follows w [e] (w.putNew slot e fresh) := by
  have hown := hbounds e e.mem_all_self
  have hput : (w.putNew slot e fresh).owned.Subperm (w.owned ++ [e]) :=
    (owned_put_perm w slot e).subperm.trans
      ((owned_erase_sublist w slot).append_right [e]).subperm
  refine ⟨.of_subperm hput, ?_, ?_, ?_, ?_⟩
  . exact Nat.le_of_lt (Nat.lt_of_le_of_lt hown.1 hown.2)
  . rw [List.flatMap_singleton]
    exact hnodup
  . rw [List.flatMap_singleton]
    exact hbounds
  . rw [List.flatMap_singleton]
    exact howns

theorem putNew_childless (slot : String) (hid : e.id = w.fresh) (hparent : e.parent? = none)
    (hplaced : e.placed = []) (hmisplaced : e.misplaced = []) :
    Follows w [e] (w.putNew slot e (w.fresh + 1)) := by
  have hall : e.all = [e] := by
    rw [Element.all_eq, hplaced, hmisplaced]
    rfl
  apply putNew
  . unfold Element.ids
    rw [hall]
    exact List.nodup_singleton _
  . rw [hall]
    intro x hx
    rw [List.mem_singleton.mp hx, hid]
    exact ⟨Nat.le_refl _, Nat.lt_succ_self _⟩
  . exact Element.owns_of_childless hplaced hmisplaced hparent

theorem parse {text : String} {limit fresh : Nat} (slot : String)
    (h : parseDocument limit w.fresh text = .ok (e, fresh)) :
    Follows w [e] (w.putNew slot e fresh) := by
  have hyields := Forest.yields_of_parse h
  obtain ⟨hgrown, hid⟩ := hyields.grown
  apply putNew
  . exact hgrown.nodup
  . intro x hx
    rw [← hid]
    exact hgrown.id_le hx
  . exact hyields.owns

theorem exec (w : Workspace) (c : Command) : ∃ new, Follows w new (w.exec c).1 := by
  have hclear (childClass : ChildClass) (e e' : Element)
      (h : (if e.body.singleClass? = some childClass then some e.clearPlaced else none) = some e') :
      Rearranged [e] [e'] := by
    split at h
    . cases h
      exact .clearPlaced e
    . cases h
  cases c with
  | create slot kind =>
    unfold Workspace.exec
    dsimp only
    split
    . next e hcreate =>
      obtain ⟨body, _, _, rfl⟩ := Element.create?_spec hcreate
      exact ⟨_, putNew_childless slot rfl rfl rfl rfl⟩
    . exact ⟨[], (Moves.refl w).follows⟩
  | createField slot | createFragment slot | createForeign slot =>
    exact ⟨_, putNew_childless slot rfl rfl rfl rfl⟩
  | parse slot text =>
    unfold Workspace.exec
    dsimp only
    split
    . next e fresh hparse => exact ⟨[e], parse slot hparse⟩
    . exact ⟨[], (Moves.refl w).follows⟩
  | drop slot =>
    unfold Workspace.exec
    dsimp only
    split
    . exact ⟨[], (Moves.erase w slot).follows⟩
    . exact ⟨[], (Moves.refl w).follows⟩
  | add slot child =>
    refine ⟨[], (Moves.withChild ?_).follows⟩
    intro w e c hget
    exact .put hget (.add e c)
  | claim slot parent =>
    unfold Workspace.exec
    dsimp only
    split
    . exact ⟨[], (Moves.refl w).follows⟩
    . refine ⟨[], (Moves.update ?_).follows⟩
      intro e
      split
      . next hclaim => exact .of_claim hclaim
      . exact .of_subperm (.refl _)
  | takeAttributes slot attributes =>
    refine ⟨[], (Moves.update ?_).follows⟩
    intro e
    obtain ⟨hid, hparent⟩ := e.head.id_keepAttributes (e.body.takeAttributes attributes).2
    exact .of_data hid hparent rfl rfl
  | setXmlns | setText | storeText | keepMarkup =>
    refine ⟨[], (Moves.update ?_).follows⟩
    intro e
    exact .of_data rfl rfl rfl rfl
  | assign slot setting =>
    refine ⟨[], (Moves.update? ?_).follows⟩
    intro e e' h
    obtain ⟨body, _, rfl⟩ := Option.map_eq_some_iff.mp h
    exact .of_data rfl rfl rfl rfl
  | setAltitudeMode slot id =>
    refine ⟨[], (Moves.update ?_).follows⟩
    intro e
    split
    . exact .of_subperm (.refl _)
    . next e' h =>
      obtain ⟨body, _, rfl⟩ := Option.map_eq_some_iff.mp h
      split
      . exact .of_data rfl rfl rfl rfl
      . exact .of_subperm (.refl _)
  | clearChild slot childClass => exact ⟨[], (Moves.update? (hclear childClass)).follows⟩
  | setChild slot childClass child =>
    cases child with
    | none => exact ⟨[], (Moves.update? (hclear childClass)).follows⟩
    | some child =>
      refine ⟨[], (Moves.withChild ?_).follows⟩
      intro w e c hget
      exact .install hget fun owner => .of_replaceChild
  | addFeature slot child =>
    refine ⟨[], (Moves.withChild ?_).follows⟩
    intro w e c hget
    exact .install hget fun owner => .of_appendChild
  | addPosition | clearPositions =>
    refine ⟨[], (Moves.update? ?_).follows⟩
    intro e e' h
    obtain ⟨body, _, rfl⟩ := Option.map_eq_some_iff.mp h
    exact .of_data rfl rfl rfl rfl
  | claimSingle slot child =>
    cases child with
    | none =>
      unfold Workspace.exec
      dsimp only
      split
      . exact ⟨[], (Moves.dropSingle w).follows⟩
      . exact ⟨[], (Moves.refl w).follows⟩
    | some child =>
      refine ⟨[], (Moves.withChild ?_).follows⟩
      intro w e c _
      exact .claimFor fun w c => ⟨owned_single_subperm w c, rfl⟩
  | claimListed slot child =>
    cases child with
    | none =>
      unfold Workspace.exec
      dsimp only
      split <;> exact ⟨[], (Moves.refl w).follows⟩
    | some child =>
      refine ⟨[], (Moves.withChild ?_).follows⟩
      intro w e c _
      exact .claimFor fun w c => ⟨owned_listed_subperm w c, rfl⟩

end Follows

/--
What may be done to a workspace. Besides the commands, an element may be claimed for the parent with any
number, also one that is not in a slot, and a document may be parsed with any limit.
-/
inductive Action where
  | command (c : Command)
  | claim (slot : String) (parent : Nat)
  | parse (slot text : String) (limit : Nat)

def act (w : Workspace) : Action → Workspace
  | .command c => (w.exec c).1
  | .claim slot parent =>
    (w.update slot fun e =>
      match e.claim? parent with
      | some e => (e, .flag true)
      | none => (e, .flag false)).1
  | .parse slot text limit =>
    match parseDocument limit w.fresh text with
    | .ok (e, fresh) => w.putNew slot e fresh
    | .error _ => w

def run (w : Workspace) (actions : List Action) : Workspace := actions.foldl act w

theorem Follows.act (w : Workspace) (a : Action) : ∃ new, Follows w new (w.act a) := by
  cases a with
  | command c => exact exec w c
  | claim slot parent =>
    refine ⟨[], (Moves.update ?_).follows⟩
    intro e
    split
    . next hclaim => exact .of_claim hclaim
    . exact .of_subperm (.refl _)
  | parse slot text limit =>
    unfold Workspace.act
    dsimp only
    split
    . next e fresh hparse => exact ⟨[e], parse slot hparse⟩
    . exact ⟨[], (Moves.refl w).follows⟩

/--
Whether the elements of a workspace have different numbers, all used before, and own what they hold.
-/
structure Tidy (w : Workspace) : Prop where
  nodup : (w.elements.map Element.id).Nodup
  lt : ∀ e ∈ w.elements, e.id < w.fresh
  owns : ∀ e ∈ w.elements, e.Owns

theorem tidy_empty (fresh : Nat) : (empty fresh).Tidy := by
  refine ⟨List.nodup_nil, ?_, ?_⟩
  . intro e he
    cases he
  . intro e he
    cases he

namespace Follows

variable {w' : Workspace} {new : List Element}

/--
An element after a step is new, or it was there before and still has the parent that it had.
-/
theorem origin (h : Follows w new w') : ∀ x ∈ w'.elements, w.fresh ≤ x.id
    ∨ ∃ y ∈ w.elements, y.id = x.id ∧ ∀ p, y.parent? = some p → x.parent? = some p := by
  intro x hx
  obtain ⟨y, hy, hid, hparent⟩ := h.rearranged.origin x hx
  rw [List.flatMap_append, List.mem_append] at hy
  cases hy with
  | inl hold => exact Or.inr ⟨y, hold, hid, hparent⟩
  | inr hnew =>
    left
    rw [← hid]
    exact (h.bounds y hnew).1

theorem tidy (h : Follows w new w') (hw : w.Tidy) : w'.Tidy := by
  have hnodup : (((w.owned ++ new).flatMap Element.all).map Element.id).Nodup := by
    rw [List.flatMap_append, List.map_append, List.nodup_append]
    refine ⟨hw.nodup, h.nodup, ?_⟩
    intro n hn m hm
    obtain ⟨x, hx, rfl⟩ := List.mem_map.mp hn
    obtain ⟨y, hy, rfl⟩ := List.mem_map.mp hm
    have := hw.lt x hx
    have := h.bounds y hy
    omega
  refine ⟨?_, ?_, ?_⟩
  . obtain ⟨ids, hperm, hsublist⟩ := h.rearranged.ids
    exact hperm.nodup_iff.mp (hnodup.sublist hsublist)
  . intro x hx
    obtain ⟨y, hy, hid, _⟩ := h.rearranged.origin x hx
    rw [List.flatMap_append, List.mem_append] at hy
    rw [← hid]
    cases hy with
    | inl hold => exact Nat.lt_of_lt_of_le (hw.lt y hold) h.fresh_le
    | inr hnew => exact (h.bounds y hnew).2
  . apply h.rearranged.owns
    intro y hy
    rw [List.flatMap_append, List.mem_append] at hy
    cases hy with
    | inl hold => exact hw.owns y hold
    | inr hnew => exact h.owns y hnew

end Follows

theorem tidy_run (actions : List Action) (hw : w.Tidy) : (w.run actions).Tidy := by
  induction actions generalizing w with
  | nil => exact hw
  | cons a actions ih =>
    obtain ⟨new, hfollows⟩ := Follows.act w a
    exact ih (hfollows.tidy hw)

theorem origin_run (actions : List Action) : ∀ x ∈ (w.run actions).elements, w.fresh ≤ x.id
    ∨ ∃ y ∈ w.elements, y.id = x.id ∧ ∀ p, y.parent? = some p → x.parent? = some p := by
  induction actions generalizing w with
  | nil =>
    intro x hx
    exact Or.inr ⟨x, hx, rfl, fun _ hp => hp⟩
  | cons a actions ih =>
    obtain ⟨new, hfollows⟩ := Follows.act w a
    intro x hx
    cases ih x hx with
    | inl hnew => exact Or.inl (Nat.le_trans hfollows.fresh_le hnew)
    | inr hold =>
      obtain ⟨y, hy, hid, hparent⟩ := hold
      cases hfollows.origin y hy with
      | inl hnew =>
        rw [hid] at hnew
        exact Or.inl hnew
      | inr hold =>
        obtain ⟨z, hz, hid', hparent'⟩ := hold
        exact Or.inr ⟨z, hz, hid'.trans hid, fun p hp => hparent p (hparent' p hp)⟩

/--
Whatever is done to an empty workspace, in whatever order: all elements in it have different numbers, so
that each one is at one place. What an element holds has that element as its parent, and no element is its
own parent. Whatever is done later, the parents that are set stay as they are.
-/
theorem ownership (fresh : Nat) (actions later : List Action) :
    (((empty fresh).run actions).elements.map Element.id).Nodup
      ∧ (∀ e ∈ ((empty fresh).run actions).elements,
        (∀ c ∈ e.placed ++ e.misplaced, c.parent? = some e.id) ∧ e.parent? ≠ some e.id)
      ∧ ∀ e ∈ ((empty fresh).run actions).elements,
        ∀ e' ∈ ((empty fresh).run (actions ++ later)).elements, e'.id = e.id →
          ∀ p, e.parent? = some p → e'.parent? = some p := by
  have htidy := tidy_run actions (tidy_empty fresh)
  refine ⟨htidy.nodup, ?_, ?_⟩
  . intro e he
    exact ⟨(htidy.owns e he).held, (htidy.owns e he).parent_ne⟩
  . intro e he e' he' hid p hp
    have hrun : (empty fresh).run (actions ++ later) = ((empty fresh).run actions).run later :=
      List.foldl_append
    rw [hrun] at he'
    cases origin_run later e' he' with
    | inl hnew =>
      have := htidy.lt e he
      omega
    | inr hold =>
      obtain ⟨y, hy, hsame, hparent⟩ := hold
      -- the numbers are different, so that it is the same element
      obtain rfl : y = e := List.inj_on_of_nodup_map htidy.nodup hy he (hsame.trans hid)
      exact hparent p hp

/--
A point that is claimed for another number is refused by a placemark and goes back into its slot.
-/
example : (((empty 0).run [.command (.create "a" .folder), .command (.create "b" .placemark),
    .command (.create "c" .point), .claim "c" 7, .command (.add "a" "b"),
    .command (.setChild "b" .geometry (some "c"))]).elements.map fun e => (e.id, e.parent?))
      = [(2, some 7), (0, none), (1, some 0)] := by
  decide +kernel

end Workspace

end KmlTree
