import KmlTree.Proofs.Element.Built
import KmlTree.Proofs.Workspace.Ownership

/-!
This module contains the invariants of the elements of a workspace. What all operations on elements
preserve holds of every element that is in no other one, whatever is done to the workspace
(`Workspace.all_run`). What is said of each element by itself holds of all elements
(`Workspace.elements_run`).
-/

namespace KmlTree

namespace Element

/--
Whether something holds of the elements that are made by the operations of their kinds, without reading
any markup.
-/
structure TypedInvariant (P : Element → Prop) : Prop where
  create {id : Nat} {kind : Kind} {e : Element} :
    kind.isComplex = true → create? id kind = some e → P e
  assign {e e' : Element} {s : Setting} : P e → e.assign? s = some e' → P e'
  setXmlns {e : Element} (xmlns : String) : P e → P (e.setXmlns xmlns)
  replaceChild {owner child e : Element} {c : ChildClass} : P owner → P child →
    owner.body.singleClass? = some c → child.body.class? = some c →
      owner.replaceChild? child = some e → P e
  clearChild {e : Element} {c : ChildClass} : P e → e.body.singleClass? = some c → P e.clearPlaced
  appendChild {owner child e : Element} : P owner → P child → owner.body.isContainer = true →
    child.body.class? = some .feature → owner.appendChild? child = some e → P e
  addPosition {e e' : Element} {p : Position} : P e → e.addPosition? p = some e' → P e'
  clearPositions {e e' : Element} : P e → e.clearPositions? = some e' → P e'

/--
Whether something holds of all elements that can come about.
-/
structure Invariant (P : Element → Prop) : Prop extends TypedInvariant P where
  field (id : Nat) (kind : Kind) (text : String) : P (ofText id kind text)
  fragment (id : Nat) (markup : String) : P (ofBody id (.fragment markup))
  foreign (id : Nat) (kind : Kind) (others : List Kind) : P (ofBody id (.foreign kind others))
  parse {limit fresh n : Nat} {text : String} {e : Element} :
    parseDocument limit fresh text = .ok (e, n) → P e
  claim {e e' : Element} {parent : Nat} : P e → e.claim? parent = some e' → P e'
  add {owner child : Element} : P owner → P child → P (owner.add child)
  takeAttributes {e : Element} (a : Attributes) : P e → P (e.takeAttributes a)
  setText {e : Element} (text : String) : P e → P (e.setText text)
  storeText {e : Element} (text : String) : P e → P (e.storeText text)
  keepMarkup {e : Element} (markup : String) : P e → P (e.keepMarkup markup)

/--
Whether something that is said of an element alone, whatever is true of the elements in it, stays true. It
may depend on the unknown attributes, on the class of the element and of its children and on whether
there are some in their places.
-/
structure LocalInvariant (Q : Element → Prop) : Prop where
  new {head : Head} (body : Body) : head.unknownAttributes = none → Q ⟨head, body, [], []⟩
  data {e : Element} {head : Head} {body : Body} : Q e →
    head.unknownAttributes = e.head.unknownAttributes → body.class? = e.body.class? →
      body.place? = e.body.place? → Q { e with head := head, body := body }
  placed {e : Element} (placed : List Element) : Q e → e.body.place?.isSome = true →
    Q { e with placed := placed }
  misplaced {e : Element} (misplaced : List Element) : Q e → Q { e with misplaced := misplaced }
  takeAttributes {e : Element} (a : Attributes) : Q e → Q (e.takeAttributes a)
  regular {e : Element} : e.Regular → Q e

namespace LocalInvariant

variable {Q : Element → Prop} {e owner child : Element}

theorem all_new (hQ : LocalInvariant Q) {head : Head} (h : head.unknownAttributes = none) (body : Body) :
    ∀ x ∈ (⟨head, body, [], []⟩ : Element).all, Q x := by
  rw [forall_mem_all]
  refine ⟨hQ.new body h, ?_⟩
  intro c hc
  cases hc

theorem all_data (hQ : LocalInvariant Q) {head : Head} {body : Body} (h : ∀ x ∈ e.all, Q x)
    (hunknown : head.unknownAttributes = e.head.unknownAttributes)
    (hclass : body.class? = e.body.class?) (hplace : body.place? = e.body.place?) :
    ∀ x ∈ ({ e with head := head, body := body } : Element).all, Q x := by
  apply forall_mem_all_of h
  . intro hself
    exact hQ.data hself hunknown hclass hplace
  . intro c hc
    exact Or.inl hc

theorem all_positions (hQ : LocalInvariant Q) {body : Body}
    {f : List Position × List String → List Position × List String} (h : ∀ x ∈ e.all, Q x)
    (hbody : e.body.updatePositions? f = some body) :
    ∀ x ∈ ({ e with body := body } : Element).all, Q x := by
  obtain ⟨positions, skipped, hold, rfl⟩ := Body.updatePositions?_spec hbody
  apply hQ.all_data h rfl
  . rw [hold]
    rfl
  . rw [hold]
    rfl

theorem all_placed (hQ : LocalInvariant Q) {placed : List Element} (h : ∀ x ∈ e.all, Q x)
    (hplace : e.body.place?.isSome = true)
    (hplaced : ∀ c ∈ placed, c ∈ e.placed ∨ ∀ x ∈ c.all, Q x) :
    ∀ x ∈ ({ e with placed := placed } : Element).all, Q x := by
  apply forall_mem_all_of h
  . intro hself
    exact hQ.placed placed hself hplace
  . intro c hc
    rw [List.mem_append] at hc ⊢
    cases hc with
    | inl hc => exact (hplaced c hc).imp_left Or.inl
    | inr hc => exact Or.inl (Or.inr hc)

theorem all_misplaced (hQ : LocalInvariant Q) {misplaced : List Element} (h : ∀ x ∈ e.all, Q x)
    (hmisplaced : ∀ c ∈ misplaced, c ∈ e.misplaced ∨ ∀ x ∈ c.all, Q x) :
    ∀ x ∈ ({ e with misplaced := misplaced } : Element).all, Q x := by
  apply forall_mem_all_of h
  . intro hself
    exact hQ.misplaced misplaced hself
  . intro c hc
    rw [List.mem_append] at hc ⊢
    cases hc with
    | inl hc => exact Or.inl (Or.inl hc)
    | inr hc => exact (hmisplaced c hc).imp_left Or.inr

theorem all_append {es : List Element} (hchild : ∀ x ∈ child.all, Q x) :
    ∀ c ∈ es ++ [child], c ∈ es ∨ ∀ x ∈ c.all, Q x := by
  intro c hc
  cases List.mem_append.mp hc with
  | inl hold => exact Or.inl hold
  | inr hnew =>
    rw [List.mem_singleton.mp hnew]
    exact Or.inr hchild

theorem all_claim (hQ : LocalInvariant Q) {parent : Nat} (h : ∀ x ∈ child.all, Q x)
    (hclaim : child.claim? parent = some e) : ∀ x ∈ e.all, Q x := by
  rw [(claim?_spec hclaim).2.2]
  exact hQ.all_data h rfl rfl rfl

theorem all_appendChild (hQ : LocalInvariant Q) (howner : ∀ x ∈ owner.all, Q x)
    (hchild : ∀ x ∈ child.all, Q x) (hplace : owner.body.place?.isSome = true)
    (h : owner.appendChild? child = some e) : ∀ x ∈ e.all, Q x := by
  obtain ⟨claimed, hclaim, rfl⟩ := Option.map_eq_some_iff.mp h
  apply hQ.all_placed howner hplace
  exact all_append (hQ.all_claim hchild hclaim)

theorem isSome_place?_of_hasPlaceFor (h : owner.hasPlaceFor child = true) :
    owner.body.place?.isSome = true := by
  unfold hasPlaceFor at h
  simp only [Bool.and_eq_true, beq_iff_eq] at h
  rw [h.1.2]
  exact h.1.1

theorem all_add (hQ : LocalInvariant Q) (howner : ∀ x ∈ owner.all, Q x)
    (hchild : ∀ x ∈ child.all, Q x) : ∀ x ∈ (owner.add child).all, Q x := by
  unfold Element.add
  split
  . exact hQ.all_data howner rfl rfl rfl
  . split
    . next hplace =>
      cases happend : owner.appendChild? child with
      | none => exact howner
      | some e =>
        exact hQ.all_appendChild howner hchild (isSome_place?_of_hasPlaceFor hplace) happend
    . split
      . next body habsorb =>
        have halike := (Body.absorb?_spec habsorb).1
        exact hQ.all_data howner rfl halike.class? halike.place?
      . unfold keepMisplaced
        split
        . next claimed hclaim =>
          apply hQ.all_misplaced howner
          exact all_append (hQ.all_claim hchild hclaim)
        . exact howner

theorem invariant (hQ : LocalInvariant Q) : Invariant fun e => ∀ x ∈ e.all, Q x where
  create hkind h := by
    obtain ⟨body, _, _, rfl⟩ := create?_spec h
    exact hQ.all_new rfl body
  assign he h := by
    obtain ⟨body, hbody, rfl⟩ := Option.map_eq_some_iff.mp h
    obtain ⟨hplaces, _⟩ := Body.assign?_spec hbody
    exact hQ.all_data he rfl hplaces.class? hplaces.place?
  setXmlns xmlns he := hQ.all_data he rfl rfl rfl
  replaceChild howner hchild hsingle _ h := by
    obtain ⟨claimed, hclaim, rfl⟩ := Option.map_eq_some_iff.mp h
    apply hQ.all_placed howner (Option.isSome_of_eq_some (Body.place?_of_singleClass? hsingle))
    intro c hc
    rw [List.mem_singleton.mp hc]
    exact Or.inr (hQ.all_claim hchild hclaim)
  clearChild he hsingle := by
    apply hQ.all_placed he (Option.isSome_of_eq_some (Body.place?_of_singleClass? hsingle))
    intro c hc
    cases hc
  appendChild howner hchild hcontainer _ h :=
    hQ.all_appendChild howner hchild
      (Option.isSome_of_eq_some (Body.place?_of_isContainer hcontainer)) h
  addPosition he h := by
    obtain ⟨body, hbody, rfl⟩ := Option.map_eq_some_iff.mp h
    exact hQ.all_positions he hbody
  clearPositions he h := by
    obtain ⟨body, hbody, rfl⟩ := Option.map_eq_some_iff.mp h
    exact hQ.all_positions he hbody
  field id kind text := hQ.all_new rfl _
  fragment id markup := hQ.all_new rfl _
  foreign id kind others := hQ.all_new rfl _
  parse h := by
    intro x hx
    exact hQ.regular ((Forest.yields_of_parse h).grown.1.regular x hx)
  claim he h := hQ.all_claim he h
  add howner hchild := hQ.all_add howner hchild
  takeAttributes a he := by
    apply forall_mem_all_of he
    . exact hQ.takeAttributes a
    . intro c hc
      exact Or.inl hc
  setText {e} text he := by
    have halike := e.body.alike_readText text
    have hstored : ∀ x ∈ (e.storeText text).all, Q x := hQ.all_data he rfl rfl rfl
    exact hQ.all_data hstored rfl halike.class? halike.place?
  storeText text he := hQ.all_data he rfl rfl rfl
  keepMarkup markup he := hQ.all_data he rfl rfl rfl

end LocalInvariant

end Element

open Element (TypedInvariant Invariant LocalInvariant)

namespace Command

/--
Whether a command uses only the operations of the kinds of elements.
-/
def isTyped : Command → Bool
  | .create _ kind => kind.isComplex
  | .drop _ | .setXmlns _ _ | .assign _ _ | .setAltitudeMode _ _ | .clearChild _ _ | .setChild _ _ _
  | .addFeature _ _ | .addPosition _ _ | .clearPositions _ => true
  | _ => false

end Command

namespace Workspace

/--
Whether something holds of all elements that are in no other one.
-/
def All (P : Element → Prop) (w : Workspace) : Prop := ∀ e ∈ w.owned, P e

namespace All

variable {P : Element → Prop} {w : Workspace} {slot child : String} {e : Element}

theorem get? (h : w.All P) (hget : w.get? slot = some e) : P e :=
  h e ((owned_take hget).subset (by simp))

theorem erase (h : w.All P) (slot : String) : (w.erase slot).All P := by
  intro e he
  exact h e ((owned_erase_sublist w slot).subset he)

theorem put (h : w.All P) (slot : String) (he : P e) : (w.put slot e).All P := by
  intro e' he'
  cases List.mem_append.mp ((owned_put_perm w slot e).subset he') with
  | inl hold => exact h.erase slot e' hold
  | inr hnew =>
    rw [List.mem_singleton.mp hnew]
    exact he

theorem update {f : Element → Element × Answer} (h : w.All P) (hf : ∀ e, P e → P (f e).1) :
    (w.update slot f).1.All P := by
  unfold Workspace.update
  split
  . exact h
  . next e hget =>
    apply h.put
    apply hf
    exact h.get? hget

theorem update? {f : Element → Option Element} {answer : Element → Answer} (h : w.All P)
    (hf : ∀ e e', P e → f e = some e' → P e') : (w.update? slot f answer).1.All P := by
  unfold Workspace.update?
  apply h.update
  intro e he
  split
  . next e' hsome => exact hf e e' he hsome
  . exact he

theorem withChild {f : Workspace → Element → Element → Workspace × Answer × Option Element}
    (h : w.All P)
    (hf : ∀ w e c, w.All P → P e → P c → (f w e c).1.All P ∧ ∀ c' ∈ (f w e c).2.2, P c') :
    (w.withChild slot child f).1.All P := by
  unfold Workspace.withChild
  split
  . exact h
  . split
    . next e c hget hgetChild =>
      obtain ⟨hworkspace, hrefused⟩ := hf _ e c (h.erase child) (h.get? hget) (h.get? hgetChild)
      split
      . next w' answer hanswer =>
        rw [hanswer] at hworkspace
        exact hworkspace
      . next w' answer c' hanswer =>
        rw [hanswer] at hworkspace hrefused
        apply hworkspace.put
        exact hrefused c' rfl
    . exact h

theorem refused {c : Element} (h : w.All P) (hc : P c) (answer : Answer) :
    (w, answer, some c).1.All P ∧ ∀ c' ∈ (w, answer, some c).2.2, P c' := by
  refine ⟨h, ?_⟩
  intro c' hc'
  rw [← Option.mem_some.mp hc']
  exact hc

theorem install {childClass : ChildClass} {applicable : Element → Bool}
    {install? : Element → Element → Option Element} {c : Element} (h : w.All P) (hc : P c)
    (hinstall : ∀ owner, c.body.class? = some childClass → applicable e = true →
      install? e c = some owner → P owner) :
    (Workspace.install slot childClass applicable install? w e c).1.All P
      ∧ ∀ c' ∈ (Workspace.install slot childClass applicable install? w e c).2.2, P c' := by
  unfold Workspace.install
  split
  . next hclass =>
    split
    . next happlicable =>
      split
      . next owner hinstalled =>
        constructor
        . exact h.put slot (hinstall owner hclass happlicable hinstalled)
        . intro c' hc'
          cases hc'
      . exact h.refused hc _
    . exact h.refused hc _
  . exact h.refused hc _

theorem claimFor {store : Workspace → Element → Workspace} {c : Element} (h : w.All P) (hc : P c)
    (hclaim : ∀ c', c.claim? e.id = some c' → P c')
    (hstore : ∀ w c', (store w c').owned.Subperm (w.owned ++ [c'])) :
    (Workspace.claimFor store w e c).1.All P
      ∧ ∀ c' ∈ (Workspace.claimFor store w e c).2.2, P c' := by
  unfold Workspace.claimFor
  split
  . next claimed hclaimed =>
    constructor
    . intro x hx
      cases List.mem_append.mp ((hstore w claimed).subset hx) with
      | inl hold => exact h x hold
      | inr hnew =>
        rw [List.mem_singleton.mp hnew]
        exact hclaim claimed hclaimed
    . intro c' hc'
      cases hc'
  . exact h.refused hc _

theorem clear (hP : TypedInvariant P) (h : w.All P) (slot : String) (childClass : ChildClass) :
    (w.update? slot
      (fun e => if e.body.singleClass? = some childClass then some e.clearPlaced else none)
      fun _ => .accepted).1.All P := by
  apply h.update?
  intro e e' he hclear
  split at hclear
  . next hsingle =>
    cases hclear
    exact hP.clearChild he hsingle
  . cases hclear

/--
The commands that use only the operations of the kinds of elements.
-/
theorem exec_typed (hP : TypedInvariant P) {c : Command} (h : w.All P) (hc : c.isTyped = true) :
    (w.exec c).1.All P := by
  cases c with
  | create slot kind =>
    unfold Workspace.exec
    dsimp only
    split
    . next e hcreate => exact h.put slot (hP.create hc hcreate)
    . exact h
  | drop slot =>
    unfold Workspace.exec
    dsimp only
    split
    . exact h.erase slot
    . exact h
  | setXmlns slot xmlns =>
    apply h.update
    intro e he
    exact hP.setXmlns xmlns he
  | assign slot setting =>
    apply h.update?
    intro e e' he hassign
    exact hP.assign he hassign
  | setAltitudeMode slot id =>
    apply h.update
    intro e he
    split
    . exact he
    . next e' hassign =>
      split
      . exact hP.assign he hassign
      . exact he
  | clearChild slot childClass => exact h.clear hP slot childClass
  | setChild slot childClass child =>
    cases child with
    | none => exact h.clear hP slot childClass
    | some child =>
      apply h.withChild
      intro w owner c hw howner hc
      apply hw.install hc
      intro e hclass hsingle hreplace
      exact hP.replaceChild howner hc (of_decide_eq_true hsingle) hclass hreplace
  | addFeature slot child =>
    apply h.withChild
    intro w owner c hw howner hc
    apply hw.install hc
    intro e hclass hcontainer happend
    exact hP.appendChild howner hc hcontainer hclass happend
  | addPosition slot position =>
    apply h.update?
    intro e e' he hadd
    exact hP.addPosition he hadd
  | clearPositions slot =>
    apply h.update?
    intro e e' he hclear
    exact hP.clearPositions he hclear
  | _ => cases hc

theorem create {id : Nat} {kind : Kind} (hP : Invariant P) (h : Element.create? id kind = some e) :
    P e := by
  have hfield (kind : Kind) : P (.ofBody id (.field kind)) := hP.field id kind ""
  cases kind with
  | unknown | object | feature | container | geometry =>
    simp [Element.create?, Kind.isSimple, Kind.contentModel?, Kind.entry?, Kind.catalog] at h
  | kml | document | folder | placemark | point | lineString | coordinates => exact hP.create rfl h
  | _ =>
    cases h
    exact hfield _

theorem claim (hP : Invariant P) (h : w.All P) (slot : String) (parent : Nat) :
    (w.update slot fun e =>
      match e.claim? parent with
      | some e => (e, .flag true)
      | none => (e, .flag false)).1.All P := by
  apply h.update
  intro e he
  split
  . next hclaim => exact hP.claim he hclaim
  . exact he

theorem exec (hP : Invariant P) (h : w.All P) (c : Command) : (w.exec c).1.All P := by
  cases c with
  | create slot kind =>
    unfold Workspace.exec
    dsimp only
    split
    . next e hcreate => exact h.put slot (create hP hcreate)
    . exact h
  | createField slot kind text => exact h.put slot (hP.field _ kind text)
  | createFragment slot markup => exact h.put slot (hP.fragment _ markup)
  | createForeign slot kind others => exact h.put slot (hP.foreign _ kind others)
  | parse slot text =>
    unfold Workspace.exec
    dsimp only
    split
    . next e fresh hparse => exact h.put slot (hP.parse hparse)
    . exact h
  | add slot child =>
    apply h.withChild
    intro w owner c hw howner hc
    refine ⟨hw.put slot (hP.add howner hc), ?_⟩
    intro c' hc'
    cases hc'
  | claim slot parent =>
    unfold Workspace.exec
    dsimp only
    split
    . exact h
    . next p _ => exact h.claim hP slot p.id
  | takeAttributes slot a =>
    apply h.update
    intro e he
    exact hP.takeAttributes a he
  | setText slot text =>
    apply h.update
    intro e he
    exact hP.setText text he
  | storeText slot text =>
    apply h.update
    intro e he
    exact hP.storeText text he
  | keepMarkup slot markup =>
    apply h.update
    intro e he
    exact hP.keepMarkup markup he
  | claimSingle slot child =>
    cases child with
    | none =>
      unfold Workspace.exec
      dsimp only
      split
      . intro e he
        exact h e ((owned_dropSingle_sublist w).subset he)
      . exact h
    | some child =>
      apply h.withChild
      intro w owner c hw howner hc
      apply hw.claimFor hc
      . intro c' hclaim
        exact hP.claim hc hclaim
      . intro w c
        exact owned_single_subperm w c
  | claimListed slot child =>
    cases child with
    | none =>
      unfold Workspace.exec
      dsimp only
      split <;> exact h
    | some child =>
      apply h.withChild
      intro w owner c hw howner hc
      apply hw.claimFor hc
      . intro c' hclaim
        exact hP.claim hc hclaim
      . intro w c
        exact owned_listed_subperm w c
  | drop | setXmlns | assign | setAltitudeMode | clearChild | setChild | addFeature | addPosition
    | clearPositions => exact h.exec_typed hP.toTypedInvariant rfl

theorem act (hP : Invariant P) (h : w.All P) (a : Action) : (w.act a).All P := by
  cases a with
  | command c => exact h.exec hP c
  | claim slot parent => exact h.claim hP slot parent
  | parse slot text limit =>
    unfold Workspace.act
    dsimp only
    split
    . next e fresh hparse => exact h.put slot (hP.parse hparse)
    . exact h

end All

/--
Whatever is done to an empty workspace, in whatever order, an invariant holds of all elements in it.
-/
theorem all_run {P : Element → Prop} (hP : Invariant P) (fresh : Nat) (actions : List Action) :
    ((empty fresh).run actions).All P := by
  have hrun (w : Workspace) (h : w.All P) : (w.run actions).All P := by
    induction actions generalizing w with
    | nil => exact h
    | cons a actions ih => exact ih _ (h.act hP a)
  apply hrun
  intro e he
  cases he

/--
Whatever is done to an empty workspace, a local invariant holds of all elements in it and in each other.
-/
theorem elements_run {Q : Element → Prop} (hQ : LocalInvariant Q) (fresh : Nat)
    (actions : List Action) : ∀ e ∈ ((empty fresh).run actions).elements, Q e := by
  intro e he
  obtain ⟨root, hroot, hmem⟩ := List.mem_flatMap.mp he
  exact all_run hQ.invariant fresh actions root hroot e hmem

end Workspace

end KmlTree
