import KmlTree.Proofs.Document.Cut
import KmlTree.Proofs.Document.Scene

/-!
This module contains the agreement of the builder with what is asked of a text: it gives a root for exactly
those texts that are documents, and for every other text the first error in the order of the events
(`parseDocument_exact`).
-/

namespace KmlTree

/--
Whether an outcome is the first of some faults, or satisfies `Q` if there are none.
-/
def Answers {α : Type} (faults : List ParseError) (Q : α → Prop) (outcome : Except ParseError α) : Prop :=
  match faults with
  | [] => ∃ a, outcome = .ok a ∧ Q a
  | e :: _ => outcome = .error e

namespace Answers

variable {α β : Type} {fs gs : List ParseError} {Q R : α → Prop} {outcome : Except ParseError α}

theorem mp (h : Answers fs Q outcome) (hR : ∀ a, outcome = .ok a → R a) : Answers fs R outcome := by
  cases fs with
  | nil =>
    obtain ⟨a, ha, _⟩ := h
    exact ⟨a, ha, hR a ha⟩
  | cons e fs => exact h

theorem bind {P : β → Prop} {f : α → Except ParseError β} (h : Answers fs Q outcome)
    (hf : ∀ a, Q a → Answers gs P (f a)) : Answers (fs ++ gs) P (outcome >>= f) := by
  cases fs with
  | nil =>
    obtain ⟨a, rfl, ha⟩ := h
    exact hf a ha
  | cons e fs =>
    have herror : outcome = .error e := h
    rw [herror]
    rfl

theorem error_iff (h : Answers fs Q outcome) {e : ParseError} :
    outcome = .error e ↔ fs.head? = some e := by
  cases fs with
  | nil =>
    obtain ⟨a, rfl, _⟩ := h
    simp
  | cons e' fs =>
    have herror : outcome = .error e' := h
    rw [herror]
    simp

theorem ok_iff (h : Answers fs Q outcome) : (∃ a, outcome = .ok a) ↔ fs = [] := by
  cases fs with
  | nil =>
    obtain ⟨a, rfl, _⟩ := h
    simp
  | cons e fs =>
    have herror : outcome = .error e := h
    rw [herror]
    simp

end Answers

namespace Builder

/--
Whether there has been an element at the top.
-/
def hasBegun (b : Builder) : Bool := !b.stack.isEmpty || b.root.isSome

/--
Whether a builder is where a reader is: its open elements are those of the open tags, it captures from an
opening bracket on what is not of the catalog and below the top, and it knows of an element at the top if one
has begun.
-/
structure Meets (text : List Char) (r : Reader) (begun : Bool) (b : Builder) : Prop where
  inStep : b.InStep r
  tracks : b.Tracks text r
  capture : ∀ c, b.capture = some c → Kind.ofTag? c.name = none ∧ b.stack ≠ []
  begun : b.hasBegun = begun

variable {text : List Char} {limit : Nat} {r after : Reader} {begun : Bool} {b b' : Builder} {t : Token}

theorem hasBegun_offer (b : Builder) (child : Element) : (b.offer child).hasBegun = b.hasBegun := by
  unfold offer
  cases hstack : b.stack with
  | nil => rfl
  | cons => simp [hasBegun, hstack]

theorem hasBegun_pushText (b : Builder) (content : List Char) :
    (b.pushText content).hasBegun = b.hasBegun := by
  unfold pushText
  cases hstack : b.stack with
  | nil => rfl
  | cons => simp [hasBegun, hstack]

theorem hasBegun_close (b : Builder) : b.close.hasBegun = b.hasBegun := by
  unfold close
  cases hstack : b.stack with
  | nil => rfl
  | cons frame frames =>
    cases frames with
    | nil => simp [hasBegun, hstack]
    | cons outer frames =>
      dsimp only
      rw [hasBegun_offer]
      simp [hasBegun, hstack]

theorem hasBegun_offerMarkup {start stop : Nat} (h : b.offerMarkup text start stop = .ok b') :
    b'.hasBegun = b.hasBegun := by
  obtain ⟨markup, _, rfl⟩ := offerMarkup_eq_ok.mp h
  rw [hasBegun_offer]
  rfl

theorem isKnown_of_openTags {names : List String} (h : b.openTags = names.map some) {name : String}
    (hname : name ∈ names) : (Kind.ofTag? name).isNone = false := by
  have hmem : some name ∈ b.openTags := by
    rw [h]
    exact List.mem_map_of_mem hname
  obtain ⟨frame, _, hframe⟩ := List.mem_map.mp hmem
  rw [Kind.ofTag?_of_tag? hframe]
  rfl

/--
What is captured is the outermost of the open elements that is not of the catalog.
-/
theorem Meets.outermostUnknown?_eq (h : Meets text r begun b) :
    outermostUnknown? r.openNames = b.capture.map Capture.name := by
  have hinStep := h.inStep
  unfold outermostUnknown?
  cases hcapture : b.capture with
  | none =>
    have htags := hinStep.openTags hcapture
    apply List.find?_eq_none.mpr
    intro name hname
    rw [isKnown_of_openTags htags ((List.dropLast_sublist _).subset (List.mem_reverse.mp hname))]
    simp
  | some c =>
    unfold InStep at hinStep
    rw [hcapture] at hinStep
    obtain ⟨inner, outer, hnames, _, htags⟩ := hinStep
    obtain ⟨hunknown, hstack⟩ := h.capture c hcapture
    have houter : outer ≠ [] := by
      rintro rfl
      simp [openTags, hstack] at htags
    have hfront : ∀ name ∈ outer.dropLast.reverse, ¬(Kind.ofTag? name).isNone = true := by
      intro name hname
      rw [isKnown_of_openTags htags ((List.dropLast_sublist _).subset (List.mem_reverse.mp hname))]
      simp
    rw [hnames, List.dropLast_append_of_ne_nil (List.cons_ne_nil _ _),
      List.dropLast_cons_of_ne_nil houter, List.reverse_append, List.reverse_cons, List.append_assoc,
      List.find?_append, List.find?_eq_none.mpr hfront]
    simp [hunknown]

theorem Meets.length_stack (h : Meets text r begun b) (hcapture : b.capture = none) :
    b.stack.length = r.openNames.length := by
  have hlength := congrArg List.length (h.inStep.openTags hcapture)
  simpa [openTags] using hlength

theorem answers_enter (limit : Nat) {tag : Tag} (isEmpty : Bool) (h : Meets text r begun b)
    (hcapture : b.capture = none) (hr : r.Reads t after)
    (htag : t.event = .start tag ∨ t.event = .empty tag) :
    Answers (Scene.tagFaults limit ⟨r, begun, t.event, after⟩ tag) (fun _ => True)
      (b.enter text limit after.position tag isEmpty) := by
  have hlength := h.length_stack hcapture
  have hdepth : Scene.depth ⟨r, begun, t.event, after⟩ = b.stack.length + 1 := by
    rw [hlength]
    rfl
  have htop : Scene.isTop ⟨r, begun, t.event, after⟩ = b.stack.isEmpty := by
    unfold Scene.isTop
    rw [Bool.eq_iff_iff, List.isEmpty_iff_length_eq_zero, List.isEmpty_iff_length_eq_zero, hlength]
  have hbegun : (b.stack.isEmpty && begun) = (b.stack.isEmpty && b.root.isSome) := by
    rw [← h.begun]
    unfold hasBegun
    cases b.stack.isEmpty <;> simp
  unfold Scene.tagFaults enter
  rw [hdepth, htop, hbegun]
  by_cases hdeep : b.stack.length + 1 > limit
  . rw [if_pos hdeep, if_pos hdeep]
    rfl
  . rw [if_neg hdeep, if_neg hdeep]
    by_cases hmany : (b.stack.isEmpty && b.root.isSome) = true
    . rw [if_pos hmany, if_pos hmany]
      rfl
    . rw [if_neg hmany, if_neg hmany]
      unfold Tag.isKnown
      cases hkind : Kind.ofTag? tag.name with
      | none =>
        rw [Option.bind_none]
        cases b.stack.isEmpty with
        | true => rfl
        | false =>
          obtain ⟨b', hb', _⟩ := exists_beginCapture isEmpty hr h.tracks.isIn htag hcapture
          exact ⟨b', hb', trivial⟩
      | some kind =>
        obtain ⟨e, he⟩ := Kind.exists_create? b.fresh hkind
        rw [Option.bind_some, he, Option.isSome_some, Bool.not_true, Bool.and_false]
        cases tag.attributes with
        | error e => rfl
        | ok a => exact ⟨_, rfl, trivial⟩

/--
The outcome of a step is the first fault of its scene.
-/
theorem answers_step (limit : Nat) (h : Meets text r begun b) (hr : r.Reads t after) :
    Answers (Scene.faults limit ⟨r, begun, t.event, after⟩) (fun _ => True)
      (b.step text limit (t.event, after)) := by
  have hskipped : Scene.isSkipped ⟨r, begun, t.event, after⟩ = b.capture.isSome := by
    unfold Scene.isSkipped
    rw [h.outermostUnknown?_eq, Option.isSome_map]
  unfold Scene.faults
  rw [hskipped]
  cases hcapture : b.capture with
  | some c =>
    rw [step_capture hcapture]
    obtain ⟨b', hb', _⟩ := h.tracks.exists_continueCapture hr hcapture
    exact ⟨b', hb', trivial⟩
  | none =>
    dsimp only
    rw [Option.isSome_none, if_neg Bool.false_ne_true]
    cases he : t.event with
    | start tag =>
      have hanswers := answers_enter limit false h hcapture hr (Or.inl he)
      rw [he] at hanswers
      rw [step_start hcapture]
      exact hanswers
    | empty tag =>
      have hanswers := answers_enter limit true h hcapture hr (Or.inr he)
      rw [he] at hanswers
      rw [step_empty hcapture]
      exact hanswers
    | text raw =>
      unfold step
      rw [hcapture]
      dsimp only
      cases unescape raw with
      | error e => rfl
      | ok content => exact ⟨_, rfl, trivial⟩
    | cdata | close | aside =>
      unfold step
      rw [hcapture]
      exact ⟨_, rfl, trivial⟩

theorem continueCapture_spec {c : Capture} {stop : Nat} {e : Event} (hcapture : b.capture = some c)
    (h : b.continueCapture text stop c e = .ok b') :
    b'.hasBegun = b.hasBegun
      ∧ ∀ c', b'.capture = some c' → c'.name = c.name ∧ b'.stack = b.stack := by
  have hsame : ∀ c', b.capture = some c' → c'.name = c.name ∧ b.stack = b.stack := by
    intro c' hc'
    rw [hcapture] at hc'
    cases hc'
    exact ⟨rfl, rfl⟩
  unfold continueCapture at h
  cases e with
  | text | cdata | empty | aside =>
    cases h
    exact ⟨rfl, hsame⟩
  | start tag =>
    dsimp only at h
    split at h
    . cases h
      refine ⟨rfl, ?_⟩
      rintro c' ⟨⟩
      exact ⟨rfl, rfl⟩
    . cases h
      exact ⟨rfl, hsame⟩
  | close name =>
    dsimp only at h
    split at h
    . split at h
      . refine ⟨hasBegun_offerMarkup (b := { b with capture := none }) h, ?_⟩
        obtain ⟨markup, _, rfl⟩ := offerMarkup_eq_ok.mp h
        intro c' hc'
        rw [capture_offer] at hc'
        cases hc'
      . cases h
        refine ⟨rfl, ?_⟩
        rintro c' ⟨⟩
        exact ⟨rfl, rfl⟩
    . cases h
      exact ⟨rfl, hsame⟩

theorem enter_spec {tag : Tag} {stop : Nat} {isEmpty : Bool} (hcapture : b.capture = none)
    (h : b.enter text limit stop tag isEmpty = .ok b') :
    b'.hasBegun = true ∧ ∀ c, b'.capture = some c → Kind.ofTag? c.name = none ∧ b'.stack ≠ [] := by
  obtain ⟨_, _, h⟩ := enter_eq_ok.mp h
  cases hknown : tag.isKnown with
  | true =>
    rw [hknown, if_pos rfl] at h
    obtain ⟨e, _, rfl⟩ := h
    have hopened : (b.opened e).capture = none := hcapture
    cases isEmpty with
    | true =>
      rw [if_pos rfl, hasBegun_close, capture_close, hopened]
      exact ⟨rfl, by simp⟩
    | false =>
      rw [if_neg Bool.false_ne_true, hopened]
      exact ⟨rfl, by simp⟩
  | false =>
    rw [hknown, if_neg Bool.false_ne_true] at h
    obtain ⟨hstack, h⟩ := h
    have hbegun : b.hasBegun = true := by
      simp [hasBegun, hstack]
    cases isEmpty with
    | true =>
      obtain ⟨markup, _, rfl⟩ := beginCapture_empty.mp h
      rw [hasBegun_offer, capture_offer]
      refine ⟨hbegun, ?_⟩
      intro c hc
      rw [hcapture] at hc
      cases hc
    | false =>
      obtain ⟨start, _, rfl⟩ := beginCapture_start.mp h
      refine ⟨hbegun, ?_⟩
      rintro c ⟨⟩
      unfold Tag.isKnown at hknown
      exact ⟨by simpa using hknown, hstack⟩

theorem Meets.topTag?_of_capture (h : Meets text r begun b) {c : Capture} (hcapture : b.capture = some c)
    (e : Event) : Scene.topTag? ⟨r, begun, e, after⟩ = none := by
  have hsome := h.outermostUnknown?_eq
  rw [hcapture] at hsome
  unfold Scene.topTag? Scene.isTop
  cases hnames : r.openNames with
  | nil =>
    rw [hnames] at hsome
    cases hsome
  | cons => rfl

theorem Meets.begun_of_tag (h : Meets text r begun b) (hcapture : b.capture = none) {e : Event} {tag : Tag}
    (htag : e.tag? = some tag) : (begun || (Scene.topTag? ⟨r, begun, e, after⟩).isSome) = true := by
  have hlength := h.length_stack hcapture
  rw [← h.begun]
  unfold hasBegun Scene.topTag? Scene.isTop
  rw [htag]
  cases hstack : b.stack with
  | nil =>
    rw [hstack] at hlength
    rw [List.eq_nil_of_length_eq_zero hlength.symm]
    simp
  | cons => simp

theorem Meets.step (h : Meets text r begun b) (hr : r.Reads t after)
    (hstep : b.step text limit (t.event, after) = .ok b') :
    Meets text after (begun || (Scene.topTag? ⟨r, begun, t.event, after⟩).isSome) b' := by
  have hinStep := inStep_step hr h.inStep hstep
  have htracks := (h.tracks.step hr).1 b' hstep
  cases hcapture : b.capture with
  | some c =>
    rw [step_capture hcapture] at hstep
    obtain ⟨hbegun, hspec⟩ := continueCapture_spec hcapture hstep
    obtain ⟨hunknown, hstack⟩ := h.capture c hcapture
    refine ⟨hinStep, htracks, ?_, ?_⟩
    . intro c' hc'
      obtain ⟨hname, hsame⟩ := hspec c' hc'
      rw [hname, hsame]
      exact ⟨hunknown, hstack⟩
    . rw [h.topTag?_of_capture hcapture, hbegun, h.begun, Option.isSome_none, Bool.or_false]
  | none =>
    -- Nothing but a tag begins an element or a capture.
    have hquiet (hcapture' : b'.capture = none) (hbegun : b'.hasBegun = b.hasBegun)
        (htag : t.event.tag? = none) :
        Meets text after (begun || (Scene.topTag? ⟨r, begun, t.event, after⟩).isSome) b' := by
      refine ⟨hinStep, htracks, ?_, ?_⟩
      . intro c hc
        rw [hcapture'] at hc
        cases hc
      . unfold Scene.topTag?
        rw [htag, hbegun, h.begun]
        simp
    have hleaf (l : Leaf) (hl : t.event = l.event) :
        Meets text after (begun || (Scene.topTag? ⟨r, begun, t.event, after⟩).isSome) b' := by
      rw [hl, step_leaf hcapture] at hstep
      obtain ⟨content, _, rfl⟩ := hstep
      apply hquiet
      . rw [capture_pushText]
        exact hcapture
      . apply hasBegun_pushText
      . rw [hl]
        cases l <;> rfl
    cases he : t.event with
    | text raw =>
      rw [← he]
      exact hleaf (.text raw) he
    | cdata content =>
      rw [← he]
      exact hleaf (.cdata content) he
    | aside =>
      rw [← he]
      exact hleaf .aside he
    | close name =>
      rw [← he]
      rw [he, step_close hcapture, Except.ok.injEq] at hstep
      subst hstep
      apply hquiet
      . rw [capture_close]
        exact hcapture
      . apply hasBegun_close
      . rw [he]
        rfl
    | start tag =>
      rw [h.begun_of_tag hcapture rfl]
      rw [he, step_start hcapture] at hstep
      obtain ⟨hbegun, hspec⟩ := enter_spec hcapture hstep
      exact ⟨hinStep, htracks, hspec, hbegun⟩
    | empty tag =>
      rw [h.begun_of_tag hcapture rfl]
      rw [he, step_empty hcapture] at hstep
      obtain ⟨hbegun, hspec⟩ := enter_spec hcapture hstep
      exact ⟨hinStep, htracks, hspec, hbegun⟩

theorem answers_steps (limit : Nat) {events rest : List (Event × Reader)} (h : Meets text r begun b)
    (hevents : r.transcript.events = events ++ rest) :
    Answers ((scenesFrom r begun events).flatMap (Scene.faults limit))
      (Meets text (r.past events) (begun || !(topTags (scenesFrom r begun events)).isEmpty))
      (events.foldlM (Builder.step text limit) b) := by
  induction events generalizing r begun b with
  | nil =>
    refine ⟨b, rfl, ?_⟩
    simpa [scenesFrom, topTags, Reader.past] using h
  | cons event events ih =>
    obtain ⟨e, after⟩ := event
    obtain ⟨t, rfl, hreads, hrest⟩ := Reader.reads_of_events hevents
    have hanswers := (answers_step limit h hreads).mp fun b' hstep => h.step hreads hstep
    have hbegun (s : Scene) (ss : List Scene) : (begun || !(topTags (s :: ss)).isEmpty)
        = ((begun || s.topTag?.isSome) || !(topTags ss).isEmpty) := by
      unfold topTags
      rw [List.filterMap_cons]
      cases s.topTag? <;> simp
    rw [List.foldlM_cons]
    unfold scenesFrom
    dsimp only
    rw [List.flatMap_cons, hbegun]
    apply hanswers.bind
    intro b' hb'
    exact ih hb' hrest

theorem answers_finish (h : Meets text r begun b) (e : Ending) :
    Answers (endFaults r begun e) (fun _ => True) (b.finish e) := by
  unfold endFaults finish
  cases e with
  | failed => rfl
  | finished position =>
    dsimp only
    rw [h.outermostUnknown?_eq]
    cases hcapture : b.capture with
    | some c => rfl
    | none =>
      have hlength := h.length_stack hcapture
      have hempty : r.openNames.isEmpty = b.stack.isEmpty := by
        rw [Bool.eq_iff_iff, List.isEmpty_iff_length_eq_zero, List.isEmpty_iff_length_eq_zero, hlength]
      rw [hempty, ← hlength, ← h.begun]
      unfold hasBegun
      cases b.stack.isEmpty with
      | false => rfl
      | true =>
        cases b.root with
        | none => rfl
        | some root => exact ⟨_, rfl, trivial⟩

theorem meets_start (hmark : byteOrderMark text = []) (fresh : Nat) :
    Meets text (Reader.start text) false (start fresh) := by
  refine ⟨inStep_start text fresh, tracks_start hmark fresh, ?_, rfl⟩
  intro c hc
  cases hc

end Builder

theorem answers_parseDocument {text : String} (hmark : byteOrderMark text.toList = [])
    (limit fresh : Nat) :
    Answers (documentFaults limit text.toList) (fun _ => True) (parseDocument limit fresh text) := by
  have hsteps := Builder.answers_steps limit (Builder.meets_start hmark fresh) (List.append_nil _).symm
  rw [Bool.false_or] at hsteps
  rw [Builder.parseDocument_eq_run]
  apply hsteps.bind
  intro b hb
  exact Builder.answers_finish hb _

/--
A text that does not begin with a byte order mark is accepted if and only if it is a document. Otherwise the
error is the first of what is wrong with it, in the order of the events.
-/
theorem parseDocument_exact {text : String} (hmark : byteOrderMark text.toList = []) (limit fresh : Nat) :
    ((∃ root n, parseDocument limit fresh text = .ok (root, n)) ↔ IsDocument limit text.toList)
      ∧ ∀ e, parseDocument limit fresh text = .error e
        ↔ (documentFaults limit text.toList).head? = some e := by
  have hanswers := answers_parseDocument hmark limit fresh
  constructor
  . rw [← documentFaults_eq_nil, ← hanswers.ok_iff, Prod.exists]
  . intro e
    exact hanswers.error_iff

/--
There is a fault in a skipped element, which does not count, and then there are two that do.
-/
theorem parseDocument_exact_skipped :
    byteOrderMark "<Folder><x a='1' a='2'>&no;</x></Folder>".toList = []
      ∧ IsDocument 2 "<Folder><x a='1' a='2'>&no;</x></Folder>".toList
      ∧ parseDocument 2 0 "<Folder><x>&no;</x><name a='1' a='2'/></Folder><Point/>"
        = .error (.markup 38 (.attributes (.duplicated 11 5))) := by
  have hmark : byteOrderMark "<Folder><x a='1' a='2'>&no;</x></Folder>".toList = [] := by
    decide
  have hmark' : byteOrderMark "<Folder><x>&no;</x><name a='1' a='2'/></Folder><Point/>".toList = [] := by
    decide
  refine ⟨hmark, ?_, ?_⟩
  . obtain ⟨⟨root, n⟩, h⟩ := exists_eq_ok
      (by decide +kernel : (parseDocument 2 0 "<Folder><x a='1' a='2'>&no;</x></Folder>").toOption.isSome
        = true)
    exact (parseDocument_exact hmark 2 0).1.mp ⟨root, n, h⟩
  . apply ((parseDocument_exact hmark' 2 0).2 _).mpr
    decide +kernel

end KmlTree
