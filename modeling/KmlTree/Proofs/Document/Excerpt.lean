import KmlTree.Proofs.Document.Growth
import Mathlib.Data.List.Forall2

/-!
This module contains the comparison of the markup that the elements of a document keep with the elements
in its text that are not of the catalog: every such element is kept once, by the element around it and in
the order of the text (`Forest.Yields.kept`).
-/

namespace KmlTree

namespace Reader

/--
Whether a reader reads a text that stands behind a mark, and has counted what it has read.
-/
def IsIn (mark text : List Char) (r : Reader) : Prop :=
  ∃ before, text = mark ++ before ++ r.rest ∧ r.consumed = byteLength before

theorem ReadsAll.isIn {mark text : List Char} {r after : Reader} {ts : List Token}
    (h : r.ReadsAll ts after) (hr : r.IsIn mark text) : after.IsIn mark text := by
  obtain ⟨before, htext, hconsumed⟩ := hr
  refine ⟨before ++ ts.flatMap Token.source, ?_, ?_⟩
  . rw [htext, h.rest]
    simp
  . rw [h.consumed, hconsumed, byteLength_append]

theorem Reads.readsAll {r after : Reader} {t : Token} (h : r.Reads t after) : r.ReadsAll [t] after :=
  .cons h (.nil after)

end Reader

/--
An element of a text that is not of the catalog: the number of the element around it, its start tag and
its markup.
-/
structure Excerpt where
  holder : Nat
  tag : Tag
  markup : List Char

namespace Forest

/--
The outermost elements of a forest that are not of the catalog, in the order of the text. The forest is
inside of the element with the number `holder`, and the next element gets the number `fresh`.
-/
def excerpts (holder fresh : Nat) : Forest → List Excerpt
  | nil => []
  | leaf _ _ next => next.excerpts holder fresh
  | empty tag next =>
    if tag.isKnown then
      next.excerpts holder (fresh + 1)
    else
      ⟨holder, tag, tag.emptySource⟩ :: next.excerpts holder (fresh + 1)
  | element tag children closing next =>
    if tag.isKnown then
      children.excerpts fresh (fresh + 1) ++ next.excerpts holder (fresh + 1 + children.count)
    else
      ⟨holder, tag, tag.source ++ children.source ++ closing⟩ :: next.excerpts holder (fresh + 1)

variable {f next : Forest} {b : Branch} {holder fresh : Nat}

theorem excerpts_known (h : f.branch? = some (b, next)) (hknown : b.tag.isKnown = true) :
    f.excerpts holder fresh
      = b.children.excerpts fresh (fresh + 1)
        ++ next.excerpts holder (fresh + 1 + b.children.count) := by
  cases f with
  | nil | leaf => cases h
  | empty | element =>
    cases h
    dsimp only at hknown
    simp [excerpts, hknown, count]

theorem excerpts_unknown (h : f.branch? = some (b, next)) (hknown : b.tag.isKnown = false) :
    f.excerpts holder fresh
      = ⟨holder, b.tag, b.source⟩ :: next.excerpts holder (fresh + 1) := by
  cases f with
  | nil | leaf => cases h
  | empty | element =>
    cases h
    dsimp only at hknown ⊢
    rw [excerpts, if_neg (by simp [hknown])]
    simp [Branch.source, Branch.opening]

end Forest

namespace Element

def kept (id : Nat) (e : Element) : List String :=
  e.all.flatMap fun x => if x.id = id then x.head.unknown else []

theorem kept_eq (id : Nat) (e : Element) :
    e.kept id = (if e.id = id then e.head.unknown else [])
      ++ (e.placed ++ e.misplaced).flatMap (kept id) :=
  flatMap_all _ e

theorem kept_eq_nil {id : Nat} {e : Element} (h : ∀ x ∈ e.all, x.id ≠ id) : e.kept id = [] := by
  unfold kept
  rw [List.flatMap_eq_nil_iff]
  intro x hx
  rw [if_neg (h x hx)]

theorem kept_inside (id parent : Nat) (e : Element) : (e.inside parent).kept id = e.kept id := by
  rw [kept_eq, kept_eq id e]
  rfl

theorem Grown.kept_self {stop : Nat} {e : Element} (h : e.Grown stop) : e.kept e.id = e.head.unknown := by
  have hchildren : (e.placed ++ e.misplaced).flatMap (kept e.id) = [] := by
    rw [List.flatMap_eq_nil_iff]
    intro c hc
    apply kept_eq_nil
    intro x hx
    have := h.inner c hc x hx
    omega
  rw [kept_eq, hchildren]
  simp

theorem Grown.kept_field {stop id : Nat} {kind : Kind} {e : Element} (h : e.Grown stop)
    (hplain : e.isPlain = true) (hbody : e.body = .field kind) : e.kept id = [] := by
  obtain ⟨hplaced, hmisplaced, hunknown, _⟩ := h.self.of_isPlain hplain hbody
  rw [kept_eq, hplaced, hmisplaced, hunknown]
  simp

theorem kept_added {stop stop' : Nat} {owner child e : Element} (ho : owner.Grown stop)
    (hc : child.Grown stop') (hid : stop ≤ child.id) (hadd : Added owner child e) (id : Nat) :
    e.kept id = owner.kept id ++ child.kept id := by
  have howner : stop ≤ id → owner.kept id = [] := by
    intro hle
    apply kept_eq_nil
    intro x hx
    have := ho.id_le hx
    omega
  have hchild : id < stop → child.kept id = [] := by
    intro hlt
    apply kept_eq_nil
    intro x hx
    have := hc.id_le hx
    omega
  cases hadd with
  | markup m hbody =>
    have := hc.self.listed
    rw [hbody] at this
    cases this
  | placed hbody hplace =>
    rw [kept_eq id owner] at howner ⊢
    rw [kept_eq]
    simp only [List.flatMap_append, List.flatMap_cons, List.flatMap_nil, kept_inside,
      List.append_nil] at howner ⊢
    -- the numbers in the owner and in the child are different, so one of the two keeps nothing
    by_cases hle : stop ≤ id
    . have hnil := howner hle
      simp only [List.append_eq_nil_iff] at hnil
      obtain ⟨hown, hplaced, hmisplaced⟩ := hnil
      rw [hplaced, hmisplaced, hown]
      simp only [List.append_nil, List.nil_append]
      exact (congrArg (· ++ child.kept id) hown).trans rfl
    . rw [hchild (by omega)]
      simp only [List.append_nil]
      rfl
  | absorbed body hplace habsorb =>
    obtain ⟨_, hplain, kind, hbody⟩ := Body.absorb?_spec habsorb
    rw [hc.kept_field hplain hbody, List.append_nil, kept_eq, kept_eq id owner]
    rfl
  | misplaced hbody hplace habsorb =>
    rw [kept_eq, kept_eq id owner]
    simp only [List.flatMap_append, List.flatMap_cons, List.flatMap_nil, kept_inside, List.append_nil,
      List.append_assoc]
    rfl

theorem kept_keepMarkup {stop : Nat} {owner : Element} (ho : owner.Grown stop) (markup : String)
    (id : Nat) :
    (owner.keepMarkup markup).kept id
      = owner.kept id ++ if owner.id = id then [markup] else [] := by
  by_cases hid : owner.id = id
  . subst hid
    have hnew := (ho.keepMarkup markup).kept_self
    have hsame : (owner.keepMarkup markup).id = owner.id := by
      rfl
    rw [hsame] at hnew
    rw [hnew, ho.kept_self, if_pos rfl]
    rfl
  . rw [kept_eq, kept_eq id owner]
    simp [keepMarkup, Element.id] at *
    simp [hid]

theorem kept_setText (e : Element) (text : String) (id : Nat) : (e.setText text).kept id = e.kept id := by
  rw [kept_eq, kept_eq id e]
  rfl

theorem kept_open {fresh : Nat} {tag : Tag} {e : Element} (h : tag.open? fresh = some e) (id : Nat) :
    e.kept id = [] := by
  obtain ⟨body, a, _, _, _, rfl⟩ := Tag.open?_spec h
  rw [openWith_ofBody, kept_eq]
  simp

end Element

/--
Whether the markup that is captured of an element of a text is related to the element. The text stands
behind a mark.
-/
def Relates (mark text : List Char) (R : String → Excerpt → Prop) : Prop :=
  ∀ (r mid : Reader) (f next : Forest) (b : Branch) (markup : List Char) (holder : Nat),
    f.branch? = some (b, next) → b.tag.isKnown = false → r.ReadsAll b.tokens mid → mid.rest ≠ [] →
      r.IsIn mark text → excerpt? text (r.consumed + byteLength b.opening) (r.consumed + byteLength b.source)
          = some markup →
        R (String.ofList markup) ⟨holder, b.tag, b.source⟩

theorem Reader.ReadsAll.rest_ne_nil {r after : Reader} {ts : List Token} (h : r.ReadsAll ts after)
    (hafter : after.rest ≠ []) : r.rest ≠ [] := by
  rw [h.rest]
  simp [hafter]

theorem Frame.Takes.kept_offer {frame inner : Frame} {fresh fresh' : Nat}
    (h : frame.Takes inner fresh fresh') (hg : frame.element.Grown fresh) (id : Nat) :
    (frame.offer inner.closed).element.kept id
      = frame.element.kept id ++ inner.element.kept id := by
  have hfresh : fresh ≤ inner.closed.id := Nat.le_of_eq h.id.symm
  have hclosed : inner.closed.kept id = inner.element.kept id := Element.kept_setText _ _ _
  rw [Element.kept_added hg h.grown hfresh h.added, hclosed]

theorem Frame.kept_offerMarkup {frame : Frame} {fresh : Nat} (hg : frame.element.Grown fresh)
    (markup : List Char) (id : Nat) :
    (frame.offer (.ofMarkup fresh markup)).element.kept id
      = frame.element.kept id ++ if frame.element.id = id then [String.ofList markup] else [] :=
  Element.kept_keepMarkup hg (String.ofList markup) id

-- The excerpts of a forest go to the element around it and to the elements in it, so that the induction
-- is for the element with any number, and what it has kept before is generalized.
theorem Forest.Feeds.kept {mark text : List Char} {R : String → Excerpt → Prop}
    {limit depth position fresh fresh' : Nat} {frame frame' : Frame} {f : Forest}
    (hR : Relates mark text R)
    (h : Forest.Feeds text limit depth position frame fresh f frame' fresh') {r after : Reader}
    (hr : r.ReadsAll f.tokens after) (hafter : after.rest ≠ []) (hin : r.IsIn mark text)
    (hposition : r.consumed = position) (hg : frame.element.Grown fresh) (id : Nat)
    {previous : List Excerpt} (hprevious : List.Forall₂ R (frame.element.kept id) previous) :
    List.Forall₂ R (frame'.element.kept id)
      (previous ++ (f.excerpts frame.element.id fresh).filter fun e => e.holder = id) := by
  induction h generalizing r after previous with
  | nil =>
    simp only [Forest.excerpts, List.filter_nil, List.append_nil]
    exact hprevious
  | leaf _ _ ih =>
    obtain ⟨mid, hread, hnext⟩ := Reader.readsAll_cons.mp hr
    exact ih hnext hafter (hread.readsAll.isIn hin) (by rw [hread.consumed, hposition]) hg hprevious
  | @known depth position fresh fresh'' frame frame' f next branch child inner fresh' hf _ hopen
      hinside _ ihinside ihnext =>
    obtain ⟨first, inside, mid, hfirst, hchildren, hclosing, hbranch, hnext⟩ :=
      Forest.readsAll_branch hf hr
    obtain ⟨hopened, hid⟩ := Element.grown_open hopen
    obtain ⟨htakes, hcount⟩ := hinside.takes hopen hg
    have hmid := hnext.rest_ne_nil hafter
    have hchild : List.Forall₂ R (child.kept id) [] := by
      rw [Element.kept_open hopen]
      exact .nil
    have hinnerkept := ihinside hchildren (hclosing.rest_ne_nil hmid) (hfirst.readsAll.isIn hin)
      (by rw [hfirst.consumed, hposition]) hopened hchild
    have hoffered : List.Forall₂ R ((frame.offer inner.closed).element.kept id)
        (previous ++ (branch.children.excerpts fresh (fresh + 1)).filter fun e => e.holder = id) := by
      rw [htakes.kept_offer hg]
      rw [hid] at hinnerkept
      exact List.rel_append hprevious hinnerkept
    have hframe := htakes.added.id
    have hrest := ihnext hnext hafter (hbranch.isIn hin)
      (by rw [hbranch.consumed, (Forest.tokens_branch hf).2, hposition]) htakes.offered hoffered
    rw [Forest.excerpts_known hf (Tag.isKnown_of_open? hopen), List.filter_append,
      ← List.append_assoc]
    rw [hframe, hcount] at hrest
    exact hrest
  | @unknown depth position fresh fresh' frame frame' f next branch markup hf _ hknown hmarkup _ ih =>
    obtain ⟨first, inside, mid, _, _, _, hbranch, hnext⟩ := Forest.readsAll_branch hf hr
    have hmid := hnext.rest_ne_nil hafter
    rw [← hposition] at hmarkup
    have hrelated := hR r mid f next branch markup frame.element.id hf hknown hbranch hmid hin
      hmarkup
    have hoffered : List.Forall₂ R ((frame.offer (.ofMarkup fresh markup)).element.kept id)
        (previous ++ if frame.element.id = id then [⟨frame.element.id, branch.tag, branch.source⟩]
          else []) := by
      rw [Frame.kept_offerMarkup hg]
      apply List.rel_append hprevious
      split
      . exact .cons hrelated .nil
      . exact .nil
    have hrest := ih hnext hafter (hbranch.isIn hin)
      (by rw [hbranch.consumed, (Forest.tokens_branch hf).2, hposition])
      ((hg.keepMarkup _).mono (Nat.le_succ _)) hoffered
    have hframe : (frame.offer (.ofMarkup fresh markup)).element.id = frame.element.id := by
      rfl
    rw [hframe] at hrest
    rw [Forest.excerpts_unknown hf hknown, List.filter_cons]
    simp only [decide_eq_true_eq]
    split
    . next heq =>
      rw [if_pos heq] at hrest
      simpa using hrest
    . next hne =>
      rw [if_neg hne] at hrest
      simpa using hrest

theorem Forest.excerpts_isQuiet {f : Forest} (h : f.isQuiet = true) (holder fresh : Nat) :
    f.excerpts holder fresh = [] := by
  apply Forest.quietInduction h
  . rfl
  . intro l source next ih
    exact ih

/--
The elements of a document that are not of the catalog are all kept, each once and by the element around
it, in the order of the text.
-/
theorem Forest.Yields.kept {mark text : List Char} {R : String → Excerpt → Prop}
    {limit fresh position n : Nat} {f : Forest} {root : Element} (hR : Relates mark text R)
    (h : f.Yields text limit fresh position root n) {r last : Reader} (hr : r.ReadsAll f.tokens last)
    (hin : r.IsIn mark text) (hposition : r.consumed = position) (holder id : Nat) :
    List.Forall₂ R (root.kept id) ((f.excerpts holder fresh).filter fun e => e.holder = id) := by
  induction h generalizing r with
  | leaf _ _ ih =>
    obtain ⟨mid, hread, hnext⟩ := Reader.readsAll_cons.mp hr
    exact ih hnext (hread.readsAll.isIn hin) (by rw [hread.consumed, hposition])
  | @root position n f next branch child inner hf _ hopen hinside hnext =>
    obtain ⟨first, inside, mid, hfirst, hchildren, hclosing, hbranch, _⟩ :=
      Forest.readsAll_branch hf hr
    obtain ⟨hopened, hid⟩ := Element.grown_open hopen
    have hchild : List.Forall₂ R (child.kept id) [] := by
      rw [Element.kept_open hopen]
      exact .nil
    rw [Forest.excerpts_known hf (Tag.isKnown_of_open? hopen), Forest.excerpts_isQuiet hnext,
      List.append_nil]
    unfold Frame.closed
    rw [Element.kept_setText]
    cases hempty : branch.isEmpty with
    | true =>
      rw [Forest.children_of_isEmpty hf hempty] at hinside ⊢
      cases hinside with
      | nil => exact hchild
      | known _ _ hf => cases hf
      | unknown _ hf => cases hf
    | false =>
      rw [hempty] at hclosing
      obtain ⟨_, hclose, _⟩ := Reader.readsAll_cons.mp hclosing
      have hrest : inside.rest ≠ [] := by
        rw [hclose.rest]
        simp [hclose.wellFormed.nonempty]
      have hkept := hinside.kept hR hchildren hrest (hfirst.readsAll.isIn hin)
        (by rw [hfirst.consumed, hposition]) hopened id hchild
      rw [hid] at hkept
      exact hkept

end KmlTree
