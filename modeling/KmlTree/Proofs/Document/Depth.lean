import KmlTree.Proofs.Document.Growth
import KmlTree.Proofs.Element.Bare

/-!
This module contains the depth of the elements of a document. The nesting of the root is how deep the
deepest element of its forest is (`Forest.Yields.nesting_le_iff`), although an element may keep a simple one
inside of it as a value only, and markup as it is.
-/

namespace KmlTree

theorem FeatureFields.emissions_absorb? {f f' : FeatureFields} {e : Element} (h : f.absorb? e = some f') :
    f'.emissions ≠ [] := by
  unfold absorb? at h
  split at h
  case h_7 => cases h
  all_goals
    obtain ⟨_, value, _, rfl⟩ := fill?_eq_some h
    simp [emissions]

theorem GeometryFields.emissions_absorb? {g g' : GeometryFields} {e : Element} (special : List Emission)
    (h : g.absorb? e = some g') : g'.emissions special ≠ [] := by
  have hmode (mode : AltitudeMode) :
      (Emission.ofEnumerant? .altitudeMode mode.toInt).toList ≠ [] := by
    cases mode <;> decide
  unfold absorb? at h
  split at h
  case h_3 => cases h
  all_goals
    obtain ⟨_, value, _, rfl⟩ := fill?_eq_some h
    simp [emissions, hmode]

/--
An element that has read a field into one of its values has something to write for it.
-/
theorem Body.values_absorb? {body new : Body} {e : Element} (h : body.absorb? e = some new) :
    new.values ≠ [] := by
  unfold absorb? at h
  split at h
  . split at h
    . obtain ⟨fields, habsorb, rfl⟩ := Option.map_eq_some_iff.mp h
      exact FeatureFields.emissions_absorb? habsorb
    . obtain ⟨fields, habsorb, rfl⟩ := Option.map_eq_some_iff.mp h
      exact GeometryFields.emissions_absorb? [] habsorb
    . split at h
      . obtain ⟨_, flag, _, rfl⟩ := fill?_eq_some h
        simp [values, content, GeometryFields.emissions]
      . obtain ⟨fields, habsorb, rfl⟩ := Option.map_eq_some_iff.mp h
        exact GeometryFields.emissions_absorb? _ habsorb
    . cases h
  . cases h

namespace Element

theorem nesting_inside (e : Element) (parent : Nat) : (e.inside parent).nesting = e.nesting := by
  obtain ⟨head, body, placed, misplaced⟩ := e
  unfold inside
  rw [nesting, nesting]

theorem nesting_setText (e : Element) (text : String) : (e.setText text).nesting = e.nesting := by
  obtain ⟨head, body, placed, misplaced⟩ := e
  unfold setText storeText
  rw [nesting, nesting, Body.values_readText]

theorem one_le_nesting (e : Element) : 1 ≤ e.nesting :=
  (nesting_le.mp (Nat.le_refl e.nesting)).1

theorem nesting_eq_one {e : Element} (hvalues : e.body.values = []) (hunknown : e.head.unknown = [])
    (hplaced : e.placed = []) (hmisplaced : e.misplaced = []) : e.nesting = 1 := by
  obtain ⟨head, body, placed, misplaced⟩ := e
  dsimp only at hvalues hunknown hplaced hmisplaced
  rw [nesting, hvalues, hunknown, hplaced, hmisplaced, nestingOfAll]
  rfl

theorem nesting_open {fresh : Nat} {tag : Tag} {e : Element} (h : tag.open? fresh = some e) :
    e.nesting = 1 := by
  obtain ⟨body, a, _, hcreate, _, rfl⟩ := Tag.open?_spec h
  have hvalues := values_create hcreate (a.erase "xmlns")
  rw [openWith_ofBody]
  exact nesting_eq_one hvalues rfl rfl rfl

theorem nesting_keepMarkup {e : Element} {n : Nat} (markup : String) :
    (e.keepMarkup markup).nesting ≤ n ↔ e.nesting ≤ n ∧ 2 ≤ n := by
  rw [nesting_le, nesting_le]
  constructor
  . rintro ⟨hone, hvalues, hunknown, hchildren⟩
    have htwo : 2 ≤ n := by
      apply hunknown
      exact List.append_ne_nil_of_right_ne_nil _ (List.cons_ne_nil markup [])
    exact ⟨⟨hone, hvalues, fun _ => htwo, hchildren⟩, htwo⟩
  . rintro ⟨⟨hone, hvalues, _, hchildren⟩, htwo⟩
    exact ⟨hone, hvalues, fun _ => htwo, hchildren⟩

/--
What a child adds to the nesting of its owner does not depend on the way in which it is taken in.
-/
theorem nesting_added {owner child e : Element} (hc : child.Regular) (h : Added owner child e) {n : Nat} :
    e.nesting ≤ n ↔ owner.nesting ≤ n ∧ child.nesting + 1 ≤ n := by
  have hchild := child.one_le_nesting
  have hin : (child.inside owner.id).nesting + 1 ≤ n ↔ child.nesting + 1 ≤ n := by
    rw [nesting_inside]
  cases h with
  | markup m hbody =>
    have hlisted := hc.listed
    rw [hbody] at hlisted
    cases hlisted
  | placed | misplaced =>
    rw [nesting_le, nesting_le]
    simp only [List.mem_append, List.mem_singleton]
    constructor
    . rintro ⟨hone, hvalues, hunknown, hchildren⟩
      exact ⟨⟨hone, hvalues, hunknown, by grind⟩, hin.mp (hchildren _ (by simp))⟩
    . rintro ⟨⟨hone, hvalues, hunknown, hchildren⟩, hle⟩
      refine ⟨hone, hvalues, hunknown, ?_⟩
      have hle' := hin.mpr hle
      grind
  | absorbed body hplace habsorb =>
    obtain ⟨_, hplain, kind, hbody⟩ := Body.absorb?_spec habsorb
    obtain ⟨hplaced, hmisplaced, hunknown, _⟩ := hc.of_isPlain hplain hbody
    have hvalues : child.body.values = [] := by
      rw [hbody]
      rfl
    -- Nothing is inside of a field that is read into a value, so that it is a single level.
    rw [nesting_eq_one hvalues hunknown hplaced hmisplaced, nesting_le, nesting_le]
    constructor
    . rintro ⟨hone, hfilled, hunknown, hchildren⟩
      have htwo := hfilled (Body.values_absorb? habsorb)
      exact ⟨⟨hone, fun _ => htwo, hunknown, hchildren⟩, htwo⟩
    . rintro ⟨⟨hone, _, hunknown, hchildren⟩, htwo⟩
      exact ⟨hone, fun _ => htwo, hunknown, hchildren⟩

end Element

namespace Forest

/--
How deep the elements of a forest are if those that are around no others are at a given depth. An element
that is captured counts as one, whatever is inside of it.
-/
def depths (depth : Nat) : Forest → List Nat
  | nil => []
  | leaf _ _ next => next.depths depth
  | empty _ next => depth :: next.depths depth
  | element tag children _ next =>
    depth :: (if tag.isKnown then children.depths (depth + 1) else []) ++ next.depths depth

variable {f next : Forest} {branch : Branch} {n : Nat}

theorem depths_branch (h : f.branch? = some (branch, next)) (depth : Nat) :
    f.depths depth
      = depth :: (if branch.tag.isKnown then branch.children.depths (depth + 1) else [])
        ++ next.depths depth := by
  cases f with
  | nil | leaf => cases h
  | empty | element =>
    cases h
    simp [depths]

theorem depths_isQuiet (h : f.isQuiet = true) (depth : Nat) : f.depths depth = [] := by
  apply quietInduction h
  . rfl
  . intro l source next ih
    exact ih

/--
Whether no element of a forest is deeper than `n`.
-/
def IsWithin (n depth : Nat) (f : Forest) : Prop :=
  ∀ d ∈ f.depths depth, d ≤ n

theorem isWithin_known (h : f.branch? = some (branch, next)) (hknown : branch.tag.isKnown = true)
    {depth : Nat} :
    f.IsWithin n depth
      ↔ depth ≤ n ∧ branch.children.IsWithin n (depth + 1) ∧ next.IsWithin n depth := by
  unfold IsWithin
  rw [depths_branch h, if_pos hknown]
  simp [or_imp, forall_and]

theorem isWithin_unknown (h : f.branch? = some (branch, next)) (hknown : branch.tag.isKnown = false)
    {depth : Nat} : f.IsWithin n depth ↔ depth ≤ n ∧ next.IsWithin n depth := by
  unfold IsWithin
  rw [depths_branch h, hknown]
  simp

theorem isWithin_succ {depth : Nat} : f.IsWithin (n + 1) (depth + 1) ↔ f.IsWithin n depth := by
  induction f using branchInduction generalizing depth n with
  | nil => simp [IsWithin, depths]
  | leaf l source next ih => exact ih
  | branch f branch next hf ihchildren ihnext =>
    cases hknown : branch.tag.isKnown with
    | true =>
      rw [isWithin_known hf hknown, isWithin_known hf hknown, ihchildren, ihnext,
        Nat.add_le_add_iff_right]
    | false =>
      rw [isWithin_unknown hf hknown, isWithin_unknown hf hknown, ihnext, Nat.add_le_add_iff_right]

variable {text : List Char} {limit depth position fresh fresh' : Nat} {frame frame' : Frame}

/--
The nesting of an open element after a forest has been read inside of it.
-/
theorem Feeds.nesting_le (h : Feeds text limit depth position frame fresh f frame' fresh')
    (hg : frame.element.Grown fresh) :
    frame'.element.nesting ≤ n ↔ frame.element.nesting ≤ n ∧ f.IsWithin n 2 := by
  induction h generalizing n with
  | nil => simp [IsWithin, depths]
  | leaf _ _ ih => exact ih hg
  | known inner fresh' hf _ hopen hinside _ ihinside ihnext =>
    obtain ⟨hopened, _⟩ := Element.grown_open hopen
    obtain ⟨htakes, _⟩ := hinside.takes hopen hg
    have hinner : inner.closed.nesting = inner.element.nesting :=
      Element.nesting_setText inner.element inner.text
    rw [ihnext htakes.offered, Element.nesting_added htakes.grown.self htakes.added, hinner,
      isWithin_known hf (Tag.isKnown_of_open? hopen)]
    cases n with
    | zero => simp
    | succ n =>
      have htwo : 2 ≤ n + 1 ↔ 1 ≤ n := Nat.succ_le_succ_iff
      have hchildren (f : Forest) : f.IsWithin (n + 1) (2 + 1) ↔ f.IsWithin n 2 := isWithin_succ
      rw [Nat.add_le_add_iff_right, ihinside hopened, Element.nesting_open hopen, hchildren, htwo,
        and_assoc, and_assoc]
  | unknown markup hf _ hknown _ _ ih =>
    have hsame (frame : Frame) (fresh : Nat) : (frame.offer (.ofMarkup fresh markup)).element
        = frame.element.keepMarkup (String.ofList markup) := by
      rfl
    rw [ih ((hg.keepMarkup _).mono (Nat.le_succ _)), hsame, Element.nesting_keepMarkup,
      isWithin_unknown hf hknown, and_assoc]

theorem Feeds.isWithin (h : Feeds text limit depth position frame fresh f frame' fresh') :
    f.IsWithin limit (depth + 1) := by
  induction h with
  | nil => simp [IsWithin, depths]
  | leaf _ _ ih => exact ih
  | known _ _ hf hdepth hopen _ _ ihinside ihnext =>
    exact (isWithin_known hf (Tag.isKnown_of_open? hopen)).mpr ⟨hdepth, ihinside, ihnext⟩
  | unknown _ hf hdepth hknown _ _ ih => exact (isWithin_unknown hf hknown).mpr ⟨hdepth, ih⟩

theorem isWithin_isQuiet (h : f.isQuiet = true) : f.IsWithin n depth := by
  unfold IsWithin
  rw [depths_isQuiet h]
  simp

theorem Yields.isWithin {root : Element} (h : f.Yields text limit fresh position root n) :
    f.IsWithin limit 1 := by
  induction h with
  | leaf _ _ ih => exact ih
  | root hf hlimit hopen hinside hnext =>
    apply (isWithin_known hf (Tag.isKnown_of_open? hopen)).mpr
    exact ⟨hlimit, hinside.isWithin, isWithin_isQuiet hnext⟩

/--
The nesting of a root is how deep the deepest element of its forest is.
-/
theorem Yields.nesting_le_iff {root : Element} (h : f.Yields text limit fresh position root n) {m : Nat} :
    root.nesting ≤ m ↔ f.IsWithin m 1 := by
  induction h with
  | leaf _ _ ih => exact ih
  | @root position n f next branch child inner hf hlimit hopen hinside hnext =>
    obtain ⟨hopened, _⟩ := Element.grown_open hopen
    have hinner : inner.closed.nesting = inner.element.nesting :=
      Element.nesting_setText inner.element inner.text
    rw [isWithin_known hf (Tag.isKnown_of_open? hopen), hinner, hinside.nesting_le hopened,
      Element.nesting_open hopen]
    simp [isWithin_isQuiet hnext]

theorem Yields.nesting_le {root : Element} (h : f.Yields text limit fresh position root n) :
    root.nesting ≤ limit :=
  h.nesting_le_iff.mpr h.isWithin

end Forest

end KmlTree
