import KmlTree.Proofs.Document.Depth
import KmlTree.Proofs.Document.Shifted

/-!
This module contains what the limit on the nesting of elements does to the parsing of a text. A larger
limit changes nothing unless the smaller one is exceeded, and the smaller one is exceeded if and only if an
element of the document is deeper.
-/

namespace KmlTree

namespace Builder

variable {text : List Char} {limit : Nat}

theorem enter_limit {larger : Nat} (hle : limit ≤ larger) (stop : Nat) (tag : Tag) (isEmpty : Bool)
    (b : Builder) :
    b.enter text limit stop tag isEmpty = .error (.nestingTooDeep limit)
      ∨ b.enter text larger stop tag isEmpty = b.enter text limit stop tag isEmpty := by
  by_cases hdeep : b.stack.length + 1 > limit
  . left
    unfold enter
    rw [if_pos hdeep]
  . right
    have hwithin : ¬ b.stack.length + 1 > larger := by
      omega
    unfold enter
    rw [if_neg hdeep, if_neg hwithin]

theorem step_limit {larger : Nat} (hle : limit ≤ larger) (b : Builder) (event : Event × Reader) :
    b.step text limit event = .error (.nestingTooDeep limit)
      ∨ b.step text larger event = b.step text limit event := by
  obtain ⟨e, after⟩ := event
  cases hcapture : b.capture with
  | some c =>
    right
    rw [step_capture hcapture, step_capture hcapture]
  | none =>
    cases e with
    | start tag =>
      rw [step_start hcapture, step_start hcapture]
      apply enter_limit hle
    | empty tag =>
      rw [step_empty hcapture, step_empty hcapture]
      apply enter_limit hle
    | text | cdata | close | aside =>
      right
      unfold step
      rw [hcapture]

/--
A run under a larger limit is the same, up to where the smaller one is exceeded.
-/
theorem steps_limit {larger : Nat} (hle : limit ≤ larger) (b : Builder) (events : List (Event × Reader)) :
    events.foldlM (step text limit) b = .error (.nestingTooDeep limit)
      ∨ events.foldlM (step text larger) b = events.foldlM (step text limit) b := by
  induction events generalizing b with
  | nil =>
    right
    rfl
  | cons event events ih =>
    rw [List.foldlM_cons, List.foldlM_cons]
    cases @step_limit text limit larger hle b event with
    | inl hdeep =>
      left
      rw [hdeep]
      rfl
    | inr hsame =>
      rw [hsame]
      cases b.step text limit event with
      | error e =>
        right
        rfl
      | ok b' => apply ih

theorem length_stack_close (b : Builder) : b.close.stack.length = b.stack.length - 1 := by
  have hlength := congrArg List.length (openTags_close b)
  rw [List.length_tail] at hlength
  simpa [openTags] using hlength

theorem length_stack_offer (b : Builder) (child : Element) :
    (b.offer child).stack.length = b.stack.length := by
  have hlength := congrArg List.length (openTags_offer b child)
  simpa [openTags] using hlength

theorem length_stack_pushText (b : Builder) (content : List Char) :
    (b.pushText content).stack.length = b.stack.length := by
  have hlength := congrArg List.length (openTags_pushText b content)
  simpa [openTags] using hlength

/--
Whether a run that comes to a result behind a forest does so as well under a smaller limit, if it does from
there on.
-/
def Within (text : List Char) (limit larger : Nat) (result : Element × Nat) (r mid : Reader)
    (b : Builder) : Prop :=
  ∃ b', b'.capture = none ∧ b'.stack.length = b.stack.length ∧ run text larger mid b' = .ok result
    ∧ (run text limit mid b' = .ok result → run text limit r b = .ok result)

theorem within_branch {larger : Nat} {f next : Forest} {branch : Branch} {r mid : Reader} {b : Builder}
    {result : Element × Nat} (hf : f.branch? = some (branch, next)) (hr : r.ReadsAll branch.tokens mid)
    (hcapture : b.capture = none) (hdepth : b.stack.length + 1 ≤ limit)
    (hchildren : branch.tag.isKnown = true → ∀ (first inside : Reader) (b' : Builder),
      first.ReadsAll branch.children.tokens inside → b'.capture = none →
        b'.stack.length = b.stack.length + 1 → run text larger first b' = .ok result →
          Within text limit larger result first inside b')
    (h : run text larger r b = .ok result) : Within text limit larger result r mid b := by
  have hall := hr
  obtain ⟨inside, hopening, hclosing⟩ := Reader.readsAll_append.mp hr
  obtain ⟨first, hread, hinside⟩ := Reader.readsAll_cons.mp hopening
  obtain ⟨b₁, hstep, hrun⟩ := bind_eq_ok.mp ((run_of_reads b hread).symm.trans h)
  rw [step_opening hcapture, enter_eq_ok] at hstep
  obtain ⟨_, hroot, hstep⟩ := hstep
  cases hknown : branch.tag.isKnown with
  | false =>
    rw [hknown, if_neg Bool.false_ne_true] at hstep
    obtain ⟨_, markup, hmarkup, hrun⟩ := (run_unknown hf hall hknown hcapture hstep.1).mp h
    refine ⟨_, ?_, ?_, hrun, ?_⟩
    . rw [capture_offer]
      exact hcapture
    . rw [length_stack_offer]
    . intro hlast
      exact (run_unknown hf hall hknown hcapture hstep.1).mpr ⟨hdepth, markup, hmarkup, hlast⟩
  | true =>
    rw [hknown, if_pos rfl] at hstep
    obtain ⟨child, hopen, rfl⟩ := hstep
    have hback : run text limit first (if branch.isEmpty then (b.opened child).close else b.opened child)
        = .ok result → run text limit r b = .ok result := by
      intro hlast
      rw [run_of_reads b hread, bind_eq_ok]
      refine ⟨_, ?_, hlast⟩
      rw [step_opening hcapture, enter_eq_ok, if_pos hknown]
      exact ⟨hdepth, hroot, child, hopen, rfl⟩
    cases hempty : branch.isEmpty with
    | true =>
      rw [Forest.children_of_isEmpty hf hempty] at hinside
      rw [hempty, if_pos rfl] at hclosing hrun hback
      obtain rfl := Reader.readsAll_nil.mp hinside
      obtain rfl := Reader.readsAll_nil.mp hclosing
      exact ⟨(b.opened child).close, (capture_close _).trans hcapture,
        length_stack_close (b.opened child), hrun, hback⟩
    | false =>
      rw [hempty, if_neg Bool.false_ne_true] at hclosing hrun hback
      obtain ⟨b₂, hcapture₂, hlength₂, hrun₂, hback₂⟩ :=
        hchildren hknown first inside (b.opened child) hinside hcapture rfl hrun
      obtain ⟨_, b₃, hclose, hnil, hstep₃, hrun₃⟩ := run_readsAll_cons hclosing hrun₂
      obtain rfl := Reader.readsAll_nil.mp hnil
      rw [step_close hcapture₂, Except.ok.injEq] at hstep₃
      subst hstep₃
      refine ⟨_, (capture_close _).trans hcapture₂, ?_, hrun₃, ?_⟩
      . rw [length_stack_close, hlength₂]
        rfl
      . intro hlast
        apply hback
        apply hback₂
        rw [run_of_reads b₂ hclose, step_close hcapture₂]
        exact hlast

/--
A smaller limit that no element of a forest exceeds is as good as a larger one.
-/
theorem within_forest {larger : Nat} {f : Forest} {r mid : Reader} {b : Builder} {result : Element × Nat}
    (hr : r.ReadsAll f.tokens mid) (hcapture : b.capture = none)
    (hwithin : f.IsWithin limit (b.stack.length + 1)) (h : run text larger r b = .ok result) :
    Within text limit larger result r mid b := by
  induction f using Forest.branchInduction generalizing r mid b with
  | nil =>
    unfold Forest.tokens at hr
    obtain rfl := Reader.readsAll_nil.mp hr
    exact ⟨b, hcapture, rfl, h, id⟩
  | leaf l source next ih =>
    obtain ⟨after, b', hread, hrest, hstep, hrun⟩ := run_readsAll_cons hr h
    obtain ⟨content, hcontent, rfl⟩ := (step_leaf hcapture).mp hstep
    have hlength := length_stack_pushText b content
    rw [← hlength] at hwithin
    obtain ⟨b'', hcapture'', hlength'', hrun'', hback⟩ :=
      ih hrest ((capture_pushText b content).trans hcapture) hwithin hrun
    refine ⟨b'', hcapture'', hlength''.trans hlength, hrun'', ?_⟩
    intro hlast
    rw [run_of_reads b hread, bind_eq_ok]
    exact ⟨_, (step_leaf hcapture).mpr ⟨content, hcontent, rfl⟩, hback hlast⟩
  | branch f branch next hf ihchildren ihnext =>
    obtain ⟨_, _, after, _, _, _, hbranch, hnext⟩ := Forest.readsAll_branch hf hr
    have hparts : b.stack.length + 1 ≤ limit
        ∧ (branch.tag.isKnown = true → branch.children.IsWithin limit (b.stack.length + 2))
        ∧ next.IsWithin limit (b.stack.length + 1) := by
      cases hknown : branch.tag.isKnown with
      | true =>
        obtain ⟨hdepth, hinside, hbehind⟩ := (Forest.isWithin_known hf hknown).mp hwithin
        exact ⟨hdepth, fun _ => hinside, hbehind⟩
      | false =>
        obtain ⟨hdepth, hbehind⟩ := (Forest.isWithin_unknown hf hknown).mp hwithin
        exact ⟨hdepth, by simp, hbehind⟩
    obtain ⟨hdepth, hinside, hbehind⟩ := hparts
    obtain ⟨b', hcapture', hlength', hrun', hback'⟩ := within_branch hf hbranch hcapture hdepth
      (fun hknown first inside b' hall hcapture' hlength' hrun =>
        ihchildren hall hcapture' (by rw [hlength']; exact hinside hknown) hrun) h
    rw [← hlength'] at hbehind
    obtain ⟨b'', hcapture'', hlength'', hrun'', hback''⟩ := ihnext hnext hcapture' hbehind hrun'
    exact ⟨b'', hcapture'', hlength''.trans hlength', hrun'', fun hlast => hback' (hback'' hlast)⟩

end Builder

theorem parseDocument_limit {limit larger : Nat} (hle : limit ≤ larger) (fresh : Nat) (text : String) :
    parseDocument limit fresh text = .error (.nestingTooDeep limit)
      ∨ parseDocument larger fresh text = parseDocument limit fresh text := by
  rw [Builder.parseDocument_eq_run, Builder.parseDocument_eq_run]
  unfold Builder.run
  cases Builder.steps_limit hle (Builder.start fresh)
      (Reader.start text.toList).transcript.events with
  | inl hdeep =>
    left
    rw [hdeep]
    rfl
  | inr hsame =>
    right
    rw [hsame]

theorem parseDocument_of_isWithin {limit larger fresh n : Nat} {text : String} {root : Element}
    (h : parseDocument larger fresh text = .ok (root, n))
    (hwithin : (documentForest text.toList).IsWithin limit 1) :
    parseDocument limit fresh text = .ok (root, n) := by
  obtain ⟨last, position, hall, hlast⟩ := readsAll_documentForest h
  rw [Builder.parseDocument_eq_run] at h ⊢
  obtain ⟨b, _, _, hrun, hback⟩ := Builder.within_forest hall rfl hwithin h
  apply hback
  rw [Builder.run_of_ending b hlast] at hrun ⊢
  exact hrun

/--
Whether two texts have been parsed with the same error, or with the same root up to the numbers of its
elements.
-/
def SameUpToNumbers (x y : Except ParseError (Element × Nat)) : Prop :=
  ∃ (origin : Except ParseError (Element × Nat)) (k k' : Nat),
    x = origin.map (fun result => (result.1.shifted k, result.2 + k))
      ∧ y = origin.map fun result => (result.1.shifted k', result.2 + k')

theorem sameUpToNumbers_parseDocument (limit fresh fresh' : Nat) (text : String) :
    SameUpToNumbers (parseDocument limit fresh text) (parseDocument limit fresh' text) := by
  refine ⟨parseDocument limit 0 text, fresh, fresh', ?_, ?_⟩
  . rw [← parseDocument_shifted, Nat.zero_add]
  . rw [← parseDocument_shifted, Nat.zero_add]

/--
The limit only cuts. A larger one gives the same result unless the smaller one is exceeded; no root is
nested deeper than the limit, where its nesting is the depth of the deepest element that is known or
captured; and of a text that can be parsed with the larger limit, the smaller one is exceeded if and only if
there is an element that is deeper than it.
-/
theorem nesting_limit_only_cuts {limit larger : Nat} (hle : limit ≤ larger) (fresh fresh' : Nat)
    (text : String) :
    ((∀ n, parseDocument limit fresh text ≠ .error (.nestingTooDeep n)) →
        SameUpToNumbers (parseDocument limit fresh text) (parseDocument larger fresh' text))
      ∧ (∀ root n, parseDocument limit fresh text = .ok (root, n) →
        root.nesting ≤ limit
          ∧ ∀ m, root.nesting ≤ m ↔ ∀ depth ∈ (documentForest text.toList).depths 1, depth ≤ m)
      ∧ ∀ root n, parseDocument larger fresh' text = .ok (root, n) →
        ((∃ depth ∈ (documentForest text.toList).depths 1, limit < depth)
          ↔ parseDocument limit fresh text = .error (.nestingTooDeep limit)) := by
  refine ⟨?_, ?_, ?_⟩
  . intro hwithin
    have hsame := (parseDocument_limit hle fresh text).resolve_left (hwithin limit)
    rw [← hsame]
    apply sameUpToNumbers_parseDocument
  . intro root n h
    have hyields := Forest.yields_of_parse h
    exact ⟨hyields.nesting_le, fun m => hyields.nesting_le_iff⟩
  . intro root n h
    obtain ⟨result, hresult⟩ : ∃ result, parseDocument larger fresh text = .ok result := by
      obtain ⟨origin, k, k', hfresh, hfresh'⟩ := sameUpToNumbers_parseDocument larger fresh fresh' text
      rw [h] at hfresh'
      cases origin with
      | error e => cases hfresh'
      | ok result => exact ⟨_, hfresh⟩
    constructor
    . rintro ⟨depth, hmem, hdeep⟩
      apply (parseDocument_limit hle fresh text).resolve_right
      intro hsame
      -- The smaller limit would give a root as well, with an element deeper than it.
      rw [hsame] at hresult
      have hdepth := (Forest.yields_of_parse hresult).isWithin depth hmem
      omega
    . intro hcut
      by_contra hnone
      have hwithin : (documentForest text.toList).IsWithin limit 1 := by
        intro depth hmem
        apply Nat.le_of_not_lt
        intro hdeep
        exact hnone ⟨depth, hmem, hdeep⟩
      rw [parseDocument_of_isWithin hresult hwithin] at hcut
      cases hcut

theorem nesting_limit_only_cuts_fields :
    ∃ text root n,
      text = "<Folder><x><y><z/></y></x><Placemark><name>A</name></Placemark></Folder>"
        ∧ parseDocument 3 0 text = .ok (root, n) ∧ root.nesting = 3
        ∧ SameUpToNumbers (parseDocument 3 0 text) (parseDocument 5 7 text)
        ∧ parseDocument 2 4 text = .error (.nestingTooDeep 2) := by
  let text := "<Folder><x><y><z/></y></x><Placemark><name>A</name></Placemark></Folder>"
  have hroot : (parseDocument 3 0 text).toOption.map (fun result => result.1.nesting) = some 3 := by
    decide +kernel
  obtain ⟨⟨root, n⟩, h, hnesting⟩ := exists_of_toOption_map hroot
  have hcut : parseDocument 2 4 text = .error (.nestingTooDeep 2) := by
    apply ((nesting_limit_only_cuts (by decide : 2 ≤ 3) 4 0 text).2.2 root n h).mp
    exact ⟨3, by decide +kernel, by decide⟩
  refine ⟨text, root, n, rfl, h, hnesting, ?_, hcut⟩
  apply (nesting_limit_only_cuts (by decide : 3 ≤ 5) 0 7 text).1
  intro m hdeep
  rw [h] at hdeep
  cases hdeep

end KmlTree
