import KmlTree.Document.Parse
import KmlTree.Proofs.Element.Opening
import KmlTree.Proofs.Markup.Forest

/-!
This module contains the run of a builder along a reader. The elements that are open in the builder are
those whose tags are open in the reader (`Builder.InStep`), so that a run that gives a root has read a
text in which every tag is closed.
-/

namespace KmlTree

theorem bind_eq_ok {ε α β : Type} {x : Except ε α} {f : α → Except ε β} {b : β} :
    x >>= f = .ok b ↔ ∃ a, x = .ok a ∧ f a = .ok b := by
  cases x with
  | error e => simp [bind, Except.bind]
  | ok a => simp [bind, Except.bind]

theorem exists_eq_ok {ε α : Type} {x : Except ε α} (h : x.toOption.isSome = true) :
    ∃ a, x = .ok a := by
  cases x with
  | error e => cases h
  | ok a => exact ⟨a, rfl⟩

theorem exists_of_toOption_map {ε α β : Type} {x : Except ε α} {f : α → β} {value : β}
    (h : x.toOption.map f = some value) : ∃ a, x = .ok a ∧ f a = value := by
  cases x with
  | error e => cases h
  | ok a => exact ⟨a, rfl, Option.some.inj h⟩

/--
Whether an error can be found before the end of a text: the limit that it is about is the one of the run.
-/
def ParseError.IsEarly (limit : Nat) : ParseError → Prop
  | .nestingTooDeep limit' => limit' = limit
  | .unclosedElements _ => False
  | .noRoot => False
  | _ => True

namespace Builder

def opened (b : Builder) (e : Element) : Builder :=
  { b with stack := ⟨e, ""⟩ :: b.stack, fresh := b.fresh + 1 }

theorem enter_eq_ok {text : List Char} {limit stop : Nat} {tag : Tag} {isEmpty : Bool}
    {b b' : Builder} :
    b.enter text limit stop tag isEmpty = .ok b'
      ↔ b.stack.length + 1 ≤ limit ∧ (b.stack = [] → b.root = none)
        ∧ if tag.isKnown then
            ∃ e, tag.open? b.fresh = some e
              ∧ b' = if isEmpty then (b.opened e).close else b.opened e
          else
            b.stack ≠ [] ∧ b.beginCapture text stop tag isEmpty = .ok b' := by
  have hroot : (b.stack.isEmpty && b.root.isSome) = true ↔ ¬(b.stack = [] → b.root = none) := by
    cases b.root <;> simp
  unfold enter
  by_cases hlimit : b.stack.length + 1 > limit
  . rw [if_pos hlimit]
    simp only [reduceCtorEq, false_iff, not_and]
    intro hle
    omega
  . rw [if_neg hlimit]
    by_cases hmany : b.stack = [] → b.root = none
    . rw [if_neg (by rw [hroot]; exact not_not_intro hmany)]
      unfold Tag.isKnown Tag.open?
      cases hkind : Kind.ofTag? tag.name with
      | none =>
        simp only [Option.bind_none, Option.isSome_none, Bool.false_eq_true, if_false,
          List.isEmpty_iff]
        split
        . next hnil => simp [hnil]
        . next hcons =>
          constructor
          . intro h
            exact ⟨by omega, hmany, hcons, h⟩
          . rintro ⟨_, _, _, h⟩
            exact h
      | some kind =>
        obtain ⟨e, he⟩ := Kind.exists_create? b.fresh hkind
        simp only [Option.bind_some, he, Option.isSome_some, if_true, Option.bind_eq_bind]
        cases ha : tag.attributes with
        | error _ => simp [Except.toOption]
        | ok a =>
          simp only [Except.toOption, Option.bind_some, Option.pure_def, Option.some.injEq,
            exists_eq_left', Except.ok.injEq]
          constructor
          . intro h
            exact ⟨by omega, hmany, h.symm⟩
          . rintro ⟨_, _, h⟩
            exact h.symm
    . rw [if_pos (by rw [hroot]; exact hmany)]
      simp only [reduceCtorEq, false_iff, not_and]
      intro _ h
      exact absurd h hmany

/--
The rest of a parse: what a builder makes of everything that a reader reads.
-/
def run (text : List Char) (limit : Nat) (r : Reader) (b : Builder) :
    Except ParseError (Element × Nat) := do
  let b ← r.transcript.events.foldlM (step text limit) b
  b.finish r.transcript.ending

theorem parseDocument_eq_run (limit fresh : Nat) (text : String) :
    parseDocument limit fresh text
      = run text.toList limit (Reader.start text.toList) (.start fresh) := by
  rfl

theorem parseDocument_of_steps {limit fresh : Nat} {text : String} {b : Builder}
    (h : (Reader.start text.toList).transcript.events.foldlM (step text.toList limit) (.start fresh)
      = .ok b) :
    parseDocument limit fresh text = b.finish (Reader.start text.toList).transcript.ending := by
  rw [parseDocument_eq_run]
  unfold run
  rw [h]
  rfl

theorem parseDocument_of_error {limit fresh : Nat} {text : String} {e : ParseError}
    (h : (Reader.start text.toList).transcript.events.foldlM (step text.toList limit) (.start fresh)
      = .error e) : parseDocument limit fresh text = .error e := by
  rw [parseDocument_eq_run]
  unfold run
  rw [h]
  rfl

variable {text : List Char} {limit : Nat}

theorem run_of_reads {r after : Reader} {t : Token} (b : Builder) (h : r.Reads t after) :
    run text limit r b = b.step text limit (t.event, after) >>= run text limit after := by
  unfold run
  rw [Reader.transcript_of_reads h]
  simp only [List.foldlM_cons, bind_assoc]

theorem run_of_ending {r : Reader} {e : Ending} (b : Builder) (h : r.next = .ending e) :
    run text limit r b = b.finish e := by
  unfold run
  rw [Reader.transcript_of_ending h]
  rfl

def openTags (b : Builder) : List (Option String) :=
  b.stack.map fun frame => frame.element.kind.tag?

/--
Whether the open elements of a builder are those whose tags are open in a reader. Inside of captured
markup the reader has opened more.
-/
def InStep (b : Builder) (r : Reader) : Prop :=
  match b.capture with
  | none => b.openTags = r.openNames.map some
  | some c =>
    ∃ inner outer, r.openNames = inner ++ c.name :: outer ∧ inner.count c.name = c.depth
      ∧ b.openTags = outer.map some

section Listed

variable {α : Type} {g : Element → α}

/--
Nothing of an open element changes when it takes in a child, where children have no part in it.
-/
theorem map_stack_offer (hg : ∀ owner child, g (owner.add child) = g owner) (b : Builder)
    (child : Element) :
    (b.offer child).stack.map (fun frame => g frame.element)
      = b.stack.map fun frame => g frame.element := by
  unfold offer
  split
  . rfl
  . next hstack => simp [hstack, hg]

theorem map_stack_pushText (b : Builder) (s : List Char) :
    (b.pushText s).stack.map (fun frame => g frame.element)
      = b.stack.map fun frame => g frame.element := by
  unfold pushText
  split
  . rfl
  . next hstack => simp [hstack]

theorem map_stack_close (hg : ∀ owner child, g (owner.add child) = g owner) (b : Builder) :
    b.close.stack.map (fun frame => g frame.element)
      = (b.stack.map fun frame => g frame.element).tail := by
  unfold close
  split
  . next hstack => simp [hstack]
  . next frame frames hstack =>
    cases frames with
    | nil => simp [hstack]
    | cons outer frames =>
      dsimp only
      rw [map_stack_offer hg]
      simp [hstack]

end Listed

theorem openTags_offer (b : Builder) (child : Element) : (b.offer child).openTags = b.openTags :=
  map_stack_offer (g := fun e => e.kind.tag?) (fun owner child => by rw [Element.kind_add]) b child

theorem openTags_pushText (b : Builder) (s : List Char) : (b.pushText s).openTags = b.openTags :=
  map_stack_pushText (g := fun e => e.kind.tag?) b s

theorem openTags_close (b : Builder) : b.close.openTags = b.openTags.tail :=
  map_stack_close (g := fun e => e.kind.tag?) (fun owner child => by rw [Element.kind_add]) b

theorem openTags_opened {b : Builder} {e : Element} {name : String} (h : e.kind.tag? = some name) :
    (b.opened e).openTags = some name :: b.openTags := by
  simp [opened, openTags, h]

theorem capture_offer (b : Builder) (child : Element) : (b.offer child).capture = b.capture := by
  unfold offer
  split <;> rfl

theorem capture_pushText (b : Builder) (s : List Char) : (b.pushText s).capture = b.capture := by
  unfold pushText
  split <;> rfl

theorem capture_close (b : Builder) : b.close.capture = b.capture := by
  unfold close
  split
  . rfl
  . split
    . rfl
    . rw [capture_offer]

theorem offerMarkup_eq_ok {start stop : Nat} {b b' : Builder} :
    b.offerMarkup text start stop = .ok b'
      ↔ ∃ markup, sliceBytes? start stop text = some markup
        ∧ b' = { b with fresh := b.fresh + 1 }.offer
            (.ofBody b.fresh (.fragment (String.ofList markup))) := by
  unfold offerMarkup
  split
  . next hslice => simp [hslice]
  . next markup hslice => simp [hslice, eq_comm]

theorem inStep_of_openTags {b : Builder} {r : Reader} (hcapture : b.capture = none)
    (h : b.openTags = r.openNames.map some) : b.InStep r := by
  unfold InStep
  rw [hcapture]
  exact h

theorem InStep.openTags {b : Builder} {r : Reader} (h : b.InStep r) (hcapture : b.capture = none) :
    b.openTags = r.openNames.map some := by
  unfold InStep at h
  rw [hcapture] at h
  exact h

theorem inStep_offerMarkup {r : Reader} {start stop : Nat} {b b' : Builder}
    (hcapture : b.capture = none) (h : b.openTags = r.openNames.map some)
    (hb : b.offerMarkup text start stop = .ok b') : b'.InStep r := by
  obtain ⟨markup, _, rfl⟩ := offerMarkup_eq_ok.mp hb
  apply inStep_of_openTags
  . rw [capture_offer]
    exact hcapture
  . rw [openTags_offer]
    exact h

section Step

variable {b b' : Builder} {after : Reader}

theorem step_leaf {l : Leaf} (hcapture : b.capture = none) :
    b.step text limit (l.event, after) = .ok b'
      ↔ ∃ content, l.content? = some content ∧ b' = b.pushText content := by
  unfold step
  rw [hcapture]
  cases l with
  | text raw =>
    dsimp only [Leaf.event, Leaf.content?]
    split
    . next hraw => simp [hraw, Except.toOption]
    . next content hraw => simp [hraw, Except.toOption, eq_comm]
  | cdata content => simp [Leaf.event, Leaf.content?, eq_comm]
  | aside =>
    have hpush : b.pushText [] = b := by
      unfold pushText
      split
      . rfl
      . next hstack => simp [← hstack]
    simp [Leaf.event, Leaf.content?, hpush, eq_comm]

theorem step_start {tag : Tag} (hcapture : b.capture = none) :
    b.step text limit (.start tag, after) = b.enter text limit after.position tag false := by
  unfold step
  rw [hcapture]

theorem step_empty {tag : Tag} (hcapture : b.capture = none) :
    b.step text limit (.empty tag, after) = b.enter text limit after.position tag true := by
  unfold step
  rw [hcapture]

theorem step_close {name : String} (hcapture : b.capture = none) :
    b.step text limit (.close name, after) = .ok b.close := by
  unfold step
  rw [hcapture]

theorem step_capture {c : Capture} {e : Event} (hcapture : b.capture = some c) :
    b.step text limit (e, after) = b.continueCapture text after.position c e := by
  unfold step
  rw [hcapture]

end Step

theorem isEarly_offerMarkup {start stop : Nat} {b : Builder} {e : ParseError}
    (h : b.offerMarkup text start stop = .error e) : e.IsEarly limit := by
  unfold offerMarkup at h
  split at h
  . cases h
    exact trivial
  . cases h

theorem isEarly_enter {stop : Nat} {tag : Tag} {isEmpty : Bool} {b : Builder} {e : ParseError}
    (h : b.enter text limit stop tag isEmpty = .error e) : e.IsEarly limit := by
  unfold enter at h
  split at h
  . cases h
    rfl
  . split at h
    . cases h
      exact trivial
    . split at h
      . split at h
        . cases h
          exact trivial
        . unfold beginCapture at h
          split at h
          . cases h
            exact trivial
          . split at h
            . exact isEarly_offerMarkup h
            . cases h
      . split at h
        . cases h
          exact trivial
        . cases h

theorem isEarly_continueCapture {stop : Nat} {c : Capture} {event : Event} {b : Builder}
    {e : ParseError} (h : b.continueCapture text stop c event = .error e) : e.IsEarly limit := by
  unfold continueCapture at h
  cases event with
  | text | cdata | empty | aside => cases h
  | start tag =>
    dsimp only at h
    split at h <;> cases h
  | close name =>
    dsimp only at h
    split at h
    . split at h
      . exact isEarly_offerMarkup h
      . cases h
    . cases h

theorem isEarly_step {b : Builder} {event : Event × Reader} {e : ParseError}
    (h : b.step text limit event = .error e) : e.IsEarly limit := by
  obtain ⟨event, after⟩ := event
  cases hcapture : b.capture with
  | some c =>
    rw [step_capture hcapture] at h
    exact isEarly_continueCapture h
  | none =>
    cases event with
    | start tag =>
      rw [step_start hcapture] at h
      exact isEarly_enter h
    | empty tag =>
      rw [step_empty hcapture] at h
      exact isEarly_enter h
    | text raw =>
      unfold step at h
      rw [hcapture] at h
      dsimp only at h
      split at h
      . cases h
        exact trivial
      . cases h
    | cdata | close | aside =>
      unfold step at h
      rw [hcapture] at h
      cases h

theorem isEarly_steps {b : Builder} {events : List (Event × Reader)} {e : ParseError}
    (h : events.foldlM (step text limit) b = .error e) : e.IsEarly limit := by
  induction events generalizing b with
  | nil => cases h
  | cons event events ih =>
    rw [List.foldlM_cons] at h
    cases hstep : b.step text limit event with
    | error e' =>
      rw [hstep] at h
      cases h
      exact isEarly_step hstep
    | ok b' =>
      rw [hstep] at h
      exact ih h

theorem inStep_of_enter {r after : Reader} {tag : Tag} {stop : Nat} {isEmpty : Bool} {b b' : Builder}
    (hcapture : b.capture = none) (hb : b.openTags = r.openNames.map some)
    (hafter : after.openNames = if isEmpty then r.openNames else tag.name :: r.openNames)
    (h : b.enter text limit stop tag isEmpty = .ok b') : b'.InStep after := by
  obtain ⟨_, _, h⟩ := enter_eq_ok.mp h
  split at h
  . obtain ⟨e, he, rfl⟩ := h
    have hopened := openTags_opened (b := b) (Tag.tag?_of_open? he)
    cases isEmpty with
    | true =>
      apply inStep_of_openTags
      . simp only [if_true, capture_close]
        exact hcapture
      . simp only [if_true, openTags_close, hopened, List.tail_cons]
        rw [hb, hafter]
        rfl
    | false =>
      apply inStep_of_openTags
      . exact hcapture
      . simp only [Bool.false_eq_true, if_false, hopened, hafter, hb, List.map_cons]
  . obtain ⟨_, h⟩ := h
    unfold beginCapture at h
    split at h
    . simp at h
    . cases isEmpty with
      | true =>
        simp only [if_true] at h
        apply inStep_offerMarkup hcapture _ h
        rw [hb, hafter]
        rfl
      | false =>
        simp only [Bool.false_eq_true, if_false, Except.ok.injEq] at h
        subst h
        exact ⟨[], r.openNames, hafter, rfl, hb⟩

theorem inStep_of_continueCapture {r after : Reader} {stop : Nat} {e : Event} {c : Capture}
    {b b' : Builder} (hcapture : b.capture = some c)
    (hnames : e.openNames? r.openNames = some after.openNames) (hb : b.InStep r)
    (h : b.continueCapture text stop c e = .ok b') : b'.InStep after := by
  have hbefore := hb
  unfold InStep at hb
  rw [hcapture] at hb
  obtain ⟨inner, outer, hopen, hcount, htags⟩ := hb
  -- `inner` are the tags that are open in the captured element. Those of its own name are counted, so
  -- that the count is zero exactly at its own end tag.
  have hsame (he : e.openNames? r.openNames = some r.openNames) : b.InStep after := by
    rw [he, Option.some.injEq] at hnames
    unfold InStep at hbefore ⊢
    rw [hnames] at hbefore
    exact hbefore
  cases e with
  | text | cdata | empty | aside =>
    simp only [continueCapture, Except.ok.injEq] at h
    subst h
    exact hsame rfl
  | start tag =>
    simp only [Event.openNames?, Option.some.injEq, hopen] at hnames
    unfold continueCapture at h
    dsimp only at h
    split at h
    . next hname =>
      simp only [Except.ok.injEq] at h
      subst h
      exact ⟨tag.name :: inner, outer, hnames.symm, by simp [hname, hcount], htags⟩
    . next hname =>
      simp only [Except.ok.injEq] at h
      subst h
      unfold InStep
      rw [hcapture]
      exact ⟨tag.name :: inner, outer, hnames.symm, by simp [hname, hcount], htags⟩
  | close name =>
    rw [Event.openNames?_close, hopen] at hnames
    unfold continueCapture at h
    dsimp only at h
    cases inner with
    | nil =>
      -- the end tag of the captured element itself
      simp only [List.nil_append, List.cons.injEq] at hnames
      obtain ⟨rfl, rfl⟩ := hnames
      simp only [List.count_nil] at hcount
      rw [if_pos rfl, if_pos hcount.symm] at h
      apply inStep_offerMarkup _ _ h
      . rfl
      . exact htags
    | cons first inner =>
      simp only [List.cons_append, List.cons.injEq] at hnames
      obtain ⟨rfl, hnames⟩ := hnames
      split at h
      . next hname =>
        subst hname
        simp only [List.count_cons_self] at hcount
        rw [if_neg (by omega), Except.ok.injEq] at h
        subst h
        exact ⟨inner, outer, hnames.symm, by simp only; omega, htags⟩
      . next hname =>
        simp only [Except.ok.injEq] at h
        subst h
        unfold InStep
        rw [hcapture]
        refine ⟨inner, outer, hnames.symm, ?_, htags⟩
        rw [← hcount]
        simp [hname]

theorem inStep_step {r after : Reader} {t : Token} {b b' : Builder} (hr : r.Reads t after)
    (hb : b.InStep r) (h : b.step text limit (t.event, after) = .ok b') : b'.InStep after := by
  have hnames := hr.openNames
  cases hcapture : b.capture with
  | some c =>
    rw [step_capture hcapture] at h
    exact inStep_of_continueCapture hcapture hnames hb h
  | none =>
    have htags := hb.openTags hcapture
    have hleaf (l : Leaf) (hl : t.event = l.event) : b'.InStep after := by
      have hsame : r.openNames = after.openNames := by
        rw [hl] at hnames
        cases l <;> simpa [Leaf.event, Event.openNames?] using hnames
      rw [hl, step_leaf hcapture] at h
      obtain ⟨content, _, rfl⟩ := h
      apply inStep_of_openTags
      . rw [capture_pushText]
        exact hcapture
      . rw [openTags_pushText, htags, hsame]
    cases he : t.event with
    | text raw => exact hleaf (.text raw) he
    | cdata content => exact hleaf (.cdata content) he
    | aside => exact hleaf .aside he
    | start tag =>
      rw [he, step_start hcapture] at h
      rw [he] at hnames
      simp only [Event.openNames?, Option.some.injEq] at hnames
      have hafter : after.openNames = if false then r.openNames else tag.name :: r.openNames :=
        hnames.symm
      exact inStep_of_enter hcapture htags hafter h
    | empty tag =>
      rw [he, step_empty hcapture] at h
      rw [he] at hnames
      simp only [Event.openNames?, Option.some.injEq] at hnames
      have hafter : after.openNames = if true then r.openNames else tag.name :: r.openNames :=
        hnames.symm
      exact inStep_of_enter hcapture htags hafter h
    | close name =>
      rw [he, step_close hcapture, Except.ok.injEq] at h
      subst h
      apply inStep_of_openTags
      . rw [capture_close]
        exact hcapture
      . rw [openTags_close, htags]
        rw [he, Event.openNames?_close] at hnames
        rw [hnames]
        rfl

theorem finish_eq_unclosed {b : Builder} {e : Ending} {n : Nat} :
    b.finish e = .error (.unclosedElements n)
      ↔ (∃ position, e = .finished position) ∧ b.capture = none ∧ b.stack ≠ [] ∧ b.stack.length = n := by
  unfold finish
  cases e with
  | failed => simp
  | finished position =>
    cases hcapture : b.capture with
    | some c => simp
    | none =>
      cases hstack : b.stack with
      | cons frame frames => simp
      | nil =>
        cases hroot : b.root with
        | none => simp
        | some root => simp

theorem finish_eq_ok {b : Builder} {e : Ending} {root : Element} {n : Nat} :
    b.finish e = .ok (root, n)
      ↔ (∃ position, e = .finished position) ∧ b.capture = none ∧ b.stack = []
        ∧ b.root = some root ∧ b.fresh = n := by
  unfold finish
  cases e with
  | failed => simp
  | finished position =>
    cases hcapture : b.capture with
    | some c => simp
    | none =>
      cases hstack : b.stack with
      | cons => simp
      | nil =>
        cases hroot : b.root with
        | none => simp
        | some root' => simp

theorem openNames_of_run {r last : Reader} {ts : List Token} {e : Ending} {b : Builder}
    {root : Element} {n : Nat} (hr : r.ReadsAll ts last) (hlast : last.next = .ending e)
    (hb : b.InStep r) (h : run text limit r b = .ok (root, n)) : last.openNames = [] := by
  induction hr generalizing b with
  | nil r =>
    rw [run_of_ending b hlast] at h
    obtain ⟨_, hcapture, hstack, _⟩ := finish_eq_ok.mp h
    have htags := hb.openTags hcapture
    simpa [openTags, hstack] using htags.symm
  | cons hread _ ih =>
    rw [run_of_reads b hread] at h
    obtain ⟨b', hstep, hrest⟩ := bind_eq_ok.mp h
    exact ih hlast (inStep_step hread hb hstep) hrest

end Builder

def documentForest (text : List Char) : Forest := (Reader.start text).forest

theorem openNames_start (text : List Char) : (Reader.start text).openNames = [] := by
  unfold Reader.start
  split <;> rfl

theorem Builder.inStep_start (text : List Char) (fresh : Nat) :
    (Builder.start fresh).InStep (Reader.start text) := by
  apply inStep_of_openTags rfl
  rw [openNames_start]
  rfl

/--
A text that is a document is read as the tokens of its forest.
-/
theorem readsAll_documentForest {limit fresh : Nat} {text : String} {root : Element} {n : Nat}
    (h : parseDocument limit fresh text = .ok (root, n)) :
    ∃ last position, (Reader.start text.toList).ReadsAll (documentForest text.toList).tokens last
      ∧ last.next = .ending (.finished position) := by
  rw [Builder.parseDocument_eq_run] at h
  obtain ⟨last, hall, hending⟩ := Reader.exists_readsAll (Reader.start text.toList)
  have hclosed := Builder.openNames_of_run hall hending (Builder.inStep_start text.toList fresh) h
  have htokens := Reader.tokens_forest hall (openNames_start _) hclosed
  have hfinished : ∃ position, (Reader.start text.toList).transcript.ending = .finished position := by
    unfold Builder.run at h
    obtain ⟨b, _, hfinish⟩ := bind_eq_ok.mp h
    exact (Builder.finish_eq_ok.mp hfinish).1
  obtain ⟨position, hposition⟩ := hfinished
  refine ⟨last, position, ?_, ?_⟩
  . unfold documentForest
    rw [htokens]
    exact hall
  . rw [← hposition]
    exact hending

end KmlTree
