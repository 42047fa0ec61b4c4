import KmlTree.Proofs.Document.Feed

/-!
This module contains the growth of an element while a forest is read inside of it. The elements get
their numbers in the order in which they begin (`Forest.Feeds.grown`), so that no two in a document have
the same one, and every element stays regular.
-/

namespace KmlTree

namespace Element

/--
The numbers of an element and of the elements in it.
-/
def ids (e : Element) : List Nat := e.all.map id

theorem ids_eq (e : Element) : e.ids = e.id :: (e.placed ++ e.misplaced).flatMap ids := by
  unfold ids
  rw [all_eq]
  simp [List.map_flatMap]

theorem ids_inside (e : Element) (parent : Nat) : (e.inside parent).ids = e.ids := by
  rw [ids_eq, ids_eq e]
  rfl

theorem mem_ids {e : Element} {n : Nat} : n ∈ e.ids ↔ ∃ x ∈ e.all, x.id = n := by
  unfold ids
  exact List.mem_map

/--
Whether an element is not claimed, is regular with everything in it, and has a number that comes before
those in it, which are different and all come before `stop`.
-/
structure Grown (stop : Nat) (e : Element) : Prop where
  parent : e.head.parent = none
  id_lt : e.id < stop
  inner : ∀ c ∈ e.placed ++ e.misplaced, ∀ x ∈ c.all, e.id < x.id ∧ x.id < stop
  nodup : e.ids.Nodup
  regular : ∀ x ∈ e.all, x.Regular

theorem Added.ids {owner child e : Element} (h : Added owner child e) :
    e.ids = owner.ids ∨ e.ids.Perm (owner.ids ++ child.ids) := by
  cases h with
  | markup | absorbed =>
    left
    rw [ids_eq, ids_eq owner]
    rfl
  | placed =>
    right
    rw [ids_eq, ids_eq owner]
    simp only [List.flatMap_append, List.flatMap_cons, List.flatMap_nil, ids_inside, List.cons_append,
      List.append_assoc]
    apply List.Perm.cons
    apply List.Perm.append_left
    exact List.perm_append_comm
  | misplaced =>
    right
    rw [ids_eq, ids_eq owner]
    simp only [List.flatMap_append, List.flatMap_cons, List.flatMap_nil, ids_inside, List.append_nil,
      List.cons_append, List.append_assoc]
    exact List.Perm.refl _

theorem Added.mem_children {owner child e c : Element} (h : Added owner child e)
    (hc : c ∈ e.placed ++ e.misplaced) :
    c ∈ owner.placed ++ owner.misplaced ∨ c = child.inside owner.id := by
  cases h with
  | markup | absorbed => exact Or.inl hc
  | placed | misplaced =>
    simp only [List.mem_append, List.mem_singleton] at hc ⊢
    grind

namespace Grown

variable {stop stop' : Nat} {owner child e : Element}

theorem id_le (h : e.Grown stop) {x : Element} (hx : x ∈ e.all) : e.id ≤ x.id ∧ x.id < stop := by
  cases mem_all.mp hx with
  | inl heq =>
    subst heq
    exact ⟨Nat.le_refl _, h.id_lt⟩
  | inr hin =>
    obtain ⟨c, hc, hx⟩ := hin
    have := h.inner c hc x hx
    omega

theorem self (h : e.Grown stop) : e.Regular := h.regular e e.mem_all_self

theorem of_children (h : e.Grown stop) {e' : Element} (hparent : e'.head.parent = e.head.parent)
    (hid : e'.id = e.id) (hplaced : e'.placed = e.placed) (hmisplaced : e'.misplaced = e.misplaced)
    (hregular : e'.Regular) : e'.Grown stop := by
  refine ⟨hparent.trans h.parent, ?_, ?_, ?_, ?_⟩
  . rw [hid]
    exact h.id_lt
  . rw [hid, hplaced, hmisplaced]
    exact h.inner
  . rw [ids_eq, hid, hplaced, hmisplaced, ← ids_eq]
    exact h.nodup
  . intro x hx
    cases mem_all.mp hx with
    | inl heq =>
      rw [heq]
      exact hregular
    | inr hin =>
      rw [hplaced, hmisplaced] at hin
      exact h.regular x (mem_all.mpr (Or.inr hin))

theorem setText (h : e.Grown stop) (text : String) : (e.setText text).Grown stop :=
  h.of_children rfl rfl rfl rfl (h.self.setText text)

theorem keepMarkup (h : e.Grown stop) (markup : String) : (e.keepMarkup markup).Grown stop :=
  h.of_children rfl rfl rfl rfl ⟨h.self.listed, h.self.placed, h.self.single, h.self.misplaced,
    h.self.unknown⟩

theorem mono (h : e.Grown stop) (hle : stop ≤ stop') : e.Grown stop' := by
  refine ⟨h.parent, Nat.lt_of_lt_of_le h.id_lt hle, ?_, h.nodup, h.regular⟩
  intro c hc x hx
  have := h.inner c hc x hx
  omega

theorem mem_all_inside (hc : child.Grown stop') {parent : Nat} (hparent : parent < child.id)
    {x : Element} (hx : x ∈ (child.inside parent).all) :
    (parent < x.id ∧ x.id < stop') ∧ x.Regular := by
  cases Element.mem_all_inside.mp hx with
  | inl heq =>
    subst heq
    exact ⟨⟨hparent, hc.id_lt⟩, hc.self.inside parent⟩
  | inr hin =>
    have hx := mem_all.mpr (Or.inr hin)
    have := hc.id_le hx
    exact ⟨by omega, hc.regular x hx⟩

theorem disjoint_ids (ho : owner.Grown stop) (hc : child.Grown stop') (hid : stop ≤ child.id) :
    ∀ n ∈ owner.ids, n ∉ child.ids := by
  intro n howner hchild
  obtain ⟨x, hx, rfl⟩ := mem_ids.mp howner
  obtain ⟨y, hy, hsame⟩ := mem_ids.mp hchild
  have := ho.id_le hx
  have := hc.id_le hy
  omega

theorem added (ho : owner.Grown stop) (hc : child.Grown stop') (hid : stop ≤ child.id)
    (hadd : Added owner child e) : e.Grown stop' := by
  have hlt := hc.id_lt
  have hparent : owner.id < child.id := Nat.lt_of_lt_of_le ho.id_lt hid
  have hregular := ho.self.added hadd
  have howner : owner.Grown stop' := ho.mono (by omega)
  have hroot : e.head.parent = none := by
    cases hadd <;> exact ho.parent
  refine ⟨hroot, ?_, ?_, ?_, ?_⟩
  . rw [hadd.id]
    exact howner.id_lt
  . intro c hc' x hx
    rw [hadd.id]
    cases hadd.mem_children hc' with
    | inl hold => exact howner.inner c hold x hx
    | inr hnew =>
      subst hnew
      exact (hc.mem_all_inside hparent hx).1
  . cases hadd.ids with
    | inl hsame =>
      rw [hsame]
      exact ho.nodup
    | inr hmore =>
      rw [hmore.nodup_iff, List.nodup_append]
      refine ⟨ho.nodup, hc.nodup, ?_⟩
      rintro n howner m hchild rfl
      exact ho.disjoint_ids hc hid n howner hchild
  . intro x hx
    cases mem_all.mp hx with
    | inl heq =>
      subst heq
      exact hregular
    | inr hin =>
      obtain ⟨c, hc', hx⟩ := hin
      cases hadd.mem_children hc' with
      | inl hold => exact ho.regular x (mem_all.mpr (Or.inr ⟨c, hold, hx⟩))
      | inr hnew =>
        subst hnew
        exact (hc.mem_all_inside hparent hx).2

theorem added_add (ho : owner.Grown stop) (hc : child.Grown stop') (hid : stop ≤ child.id) :
    Added owner child (owner.add child) := by
  apply Element.added_add hc.parent
  have := ho.id_lt
  omega

theorem add (ho : owner.Grown stop) (hc : child.Grown stop') (hid : stop ≤ child.id) :
    (owner.add child).Grown stop' :=
  ho.added hc hid (ho.added_add hc hid)

end Grown

theorem grown_open {fresh : Nat} {tag : Tag} {e : Element} (h : tag.open? fresh = some e) :
    e.Grown (fresh + 1) ∧ e.id = fresh := by
  obtain ⟨body, a, _, hcreate, _, rfl⟩ := Tag.open?_spec h
  have hregular := regular_openWith hcreate a
  rw [openWith_ofBody] at hregular ⊢
  refine ⟨⟨rfl, Nat.lt_succ_self fresh, ?_, ?_, ?_⟩, rfl⟩
  . intro c hc
    cases hc
  . rw [ids_eq]
    simp
  . rw [forall_mem_all]
    refine ⟨hregular, ?_⟩
    intro c hc
    cases hc

end Element

namespace Forest

/--
How many numbers the reading of a forest uses up. What is captured takes one, whatever is inside of it.
-/
def count : Forest → Nat
  | nil => 0
  | leaf _ _ next => next.count
  | empty _ next => 1 + next.count
  | element tag children _ next => 1 + (if tag.isKnown then children.count else 0) + next.count

theorem count_branch {f next : Forest} {branch : Branch} (h : f.branch? = some (branch, next)) :
    f.count = 1 + (if branch.tag.isKnown then branch.children.count else 0) + next.count := by
  cases f with
  | nil | leaf => cases h
  | empty | element =>
    cases h
    simp [count]

end Forest

theorem Tag.isKnown_of_open? {fresh : Nat} {t : Tag} {e : Element} (h : t.open? fresh = some e) :
    t.isKnown = true := by
  obtain ⟨body, _, hkind, _⟩ := open?_spec h
  unfold isKnown
  rw [hkind]
  rfl

/--
How the element of a frame that closes is taken in by the frame around it. It was opened with the number
`fresh`, and the next element gets the number `fresh'`.
-/
structure Frame.Takes (frame inner : Frame) (fresh fresh' : Nat) : Prop where
  grown : inner.closed.Grown fresh'
  id : inner.closed.id = fresh
  added : Element.Added frame.element inner.closed (frame.offer inner.closed).element
  offered : (frame.offer inner.closed).element.Grown fresh'

theorem Frame.takes_of_grown {frame inner : Frame} {fresh fresh' : Nat}
    (hg : frame.element.Grown fresh) (hinner : inner.element.Grown fresh')
    (hid : inner.element.id = fresh) : frame.Takes inner fresh fresh' := by
  have hclosed : inner.closed.Grown fresh' := hinner.setText inner.text
  have hfresh : fresh ≤ inner.closed.id := Nat.le_of_eq hid.symm
  exact ⟨hclosed, hid, hg.added_add hclosed hfresh, hg.add hclosed hfresh⟩

/--
An element grows while a forest is read inside of it, and the numbers go up by those that the forest
uses.
-/
theorem Forest.Feeds.grown {text : List Char} {limit depth position fresh fresh' : Nat}
    {frame frame' : Frame} {f : Forest}
    (h : Forest.Feeds text limit depth position frame fresh f frame' fresh')
    (hg : frame.element.Grown fresh) :
    fresh' = fresh + f.count ∧ frame'.element.Grown fresh' ∧ frame'.element.id = frame.element.id := by
  induction h with
  | nil => exact ⟨rfl, hg, rfl⟩
  | leaf _ _ ih => exact ih hg
  | known inner fresh' hf _ hopen _ _ ihinside ihnext =>
    obtain ⟨hopened, hid⟩ := Element.grown_open hopen
    obtain ⟨hcount, hinner, hsame⟩ := ihinside hopened
    have htakes := Frame.takes_of_grown hg hinner (hsame.trans hid)
    obtain ⟨hcount', hnext, hsame'⟩ := ihnext htakes.offered
    refine ⟨?_, hnext, ?_⟩
    . rw [Forest.count_branch hf, Tag.isKnown_of_open? hopen, hcount', hcount]
      simp only [if_true]
      omega
    . rw [hsame']
      exact htakes.added.id
  | unknown markup hf _ hknown _ _ ih =>
    obtain ⟨hcount, hnext, hsame⟩ := ih ((hg.keepMarkup _).mono (Nat.le_succ _))
    refine ⟨?_, hnext, hsame⟩
    rw [Forest.count_branch hf, hknown, hcount]
    simp only [Bool.false_eq_true, if_false]
    omega

theorem Forest.Feeds.takes {text : List Char} {limit depth position fresh fresh' : Nat}
    {frame inner : Frame} {f : Forest} {tag : Tag} {child : Element}
    (hopen : tag.open? fresh = some child)
    (hinside : Forest.Feeds text limit depth position ⟨child, ""⟩ (fresh + 1) f inner fresh')
    (hg : frame.element.Grown fresh) :
    frame.Takes inner fresh fresh' ∧ fresh' = fresh + 1 + f.count := by
  obtain ⟨hopened, hid⟩ := Element.grown_open hopen
  obtain ⟨hcount, hinner, hsame⟩ := hinside.grown hopened
  exact ⟨Frame.takes_of_grown hg hinner (hsame.trans hid), hcount⟩

theorem Forest.Yields.grown {text : List Char} {limit fresh position n : Nat} {f : Forest}
    {root : Element} (h : f.Yields text limit fresh position root n) :
    root.Grown n ∧ root.id = fresh := by
  induction h with
  | leaf _ _ ih => exact ih
  | root _ _ hopen hinside _ =>
    obtain ⟨hopened, hid⟩ := Element.grown_open hopen
    obtain ⟨_, hinner, hsame⟩ := hinside.grown hopened
    exact ⟨hinner.setText _, hsame.trans hid⟩

end KmlTree
