import KmlTree.Proofs.Document.Run

/-!
This module contains the meaning of a forest as a relation that follows its nesting: what an open
element is after a forest has been read inside of it (`Forest.Feeds`), and which root a forest is read
as (`Forest.Yields`). The builder does what the relations say (`Forest.yields_of_parse`).
-/

namespace KmlTree

/--
An element of a forest. An empty element has no children and no end tag.
-/
structure Branch where
  tag : Tag
  isEmpty : Bool
  children : Forest
  closing : List Char

namespace Branch

/--
The markup of the start tag, or of the whole element if it is empty.
-/
def opening (b : Branch) : List Char :=
  if b.isEmpty then b.tag.emptySource else b.tag.source

def source (b : Branch) : List Char := b.opening ++ b.children.source ++ b.closing

/--
The event of the start tag, or of the whole element if it is empty.
-/
def event (b : Branch) : Event :=
  if b.isEmpty then .empty b.tag else .start b.tag

def tokens (b : Branch) : List Token :=
  ⟨b.event, b.opening⟩ :: b.children.tokens
    ++ if b.isEmpty then [] else [⟨.close b.tag.name, b.closing⟩]

end Branch

/--
The element that a forest begins with, and what stands behind it.
-/
def Forest.branch? : Forest → Option (Branch × Forest)
  | .empty tag next => some (⟨tag, true, .nil, []⟩, next)
  | .element tag children closing next => some (⟨tag, false, children, closing⟩, next)
  | _ => none

namespace Forest

theorem branchInduction {P : Forest → Prop} (nil : P .nil)
    (leaf : ∀ l source next, P next → P (.leaf l source next))
    (branch : ∀ f b next, f.branch? = some (b, next) → P b.children → P next → P f) (f : Forest) :
    P f := by
  induction f with
  | nil => exact nil
  | leaf l source next ih => exact leaf l source next ih
  | empty tag next ih => exact branch _ ⟨tag, true, .nil, []⟩ next rfl nil ih
  | element tag children closing next ihchildren ihnext =>
    exact branch _ ⟨tag, false, children, closing⟩ next rfl ihchildren ihnext

theorem source_branch {f next : Forest} {b : Branch} (h : f.branch? = some (b, next)) :
    f.source = b.source ++ next.source := by
  cases f with
  | nil | leaf => cases h
  | empty | element =>
    cases h
    simp [Branch.source, Branch.opening]

theorem tokens_branch {f next : Forest} {b : Branch} (h : f.branch? = some (b, next)) :
    f.tokens = b.tokens ++ next.tokens ∧ b.tokens.flatMap Token.source = b.source := by
  cases f with
  | nil | leaf => cases h
  | empty | element =>
    cases h
    simp [tokens, Branch.tokens, Branch.event, Branch.opening, Branch.source, source]

theorem children_of_isEmpty {f next : Forest} {b : Branch} (hf : f.branch? = some (b, next))
    (h : b.isEmpty = true) : b.children = .nil := by
  cases f with
  | nil | leaf => cases hf
  | empty =>
    cases hf
    rfl
  | element =>
    cases hf
    cases h

theorem readsAll_branch {f next : Forest} {b : Branch} {r after : Reader}
    (hf : f.branch? = some (b, next)) (h : r.ReadsAll f.tokens after) :
    ∃ first inside mid, r.Reads ⟨b.event, b.opening⟩ first
      ∧ first.ReadsAll b.children.tokens inside
      ∧ inside.ReadsAll (if b.isEmpty then [] else [⟨.close b.tag.name, b.closing⟩]) mid
      ∧ r.ReadsAll b.tokens mid ∧ mid.ReadsAll next.tokens after := by
  rw [(tokens_branch hf).1] at h
  obtain ⟨mid, hbranch, hnext⟩ := Reader.readsAll_append.mp h
  have hall := hbranch
  unfold Branch.tokens at hbranch
  obtain ⟨inside, hopening, hclosing⟩ := Reader.readsAll_append.mp hbranch
  obtain ⟨first, hfirst, hchildren⟩ := Reader.readsAll_cons.mp hopening
  exact ⟨first, inside, mid, hfirst, hchildren, hclosing, hall, hnext⟩

/--
Whether there are no elements in a forest and every reference in it has a meaning.
-/
def isQuiet : Forest → Bool
  | nil => true
  | leaf content _ next => content.content?.isSome && next.isQuiet
  | _ => false

theorem quietInduction {P : Forest → Prop} {f : Forest} (h : f.isQuiet = true) (nil : P .nil)
    (leaf : ∀ l source next, P next → P (.leaf l source next)) : P f := by
  induction f with
  | nil => exact nil
  | leaf l source next ih =>
    unfold isQuiet at h
    simp only [Bool.and_eq_true] at h
    exact leaf l source next (ih h.2)
  | empty | element => cases h

end Forest

namespace Frame

def pushText (frame : Frame) (content : List Char) : Frame :=
  { frame with text := frame.text ++ String.ofList content }

def offer (frame : Frame) (child : Element) : Frame :=
  { frame with element := frame.element.add child }

def closed (frame : Frame) : Element := frame.element.setText frame.text

end Frame

/--
The markup that is captured of an element whose start tag ends at byte `inside` and that ends at byte
`stop`.
-/
def excerpt? (text : List Char) (inside stop : Nat) : Option (List Char) := do
  let start ← Builder.lastBracket? text inside
  sliceBytes? start stop text

def Element.ofMarkup (fresh : Nat) (markup : List Char) : Element :=
  .ofBody fresh (.fragment (String.ofList markup))

namespace Forest

/--
What becomes of an open element when a forest is read inside of it. There are `depth` open elements, the
forest begins at byte `position`, and the next element gets the number `fresh`.
-/
inductive Feeds (text : List Char) (limit : Nat) :
    Nat → Nat → Frame → Nat → Forest → Frame → Nat → Prop where
  | nil (depth position : Nat) (frame : Frame) (fresh : Nat) :
    Feeds text limit depth position frame fresh .nil frame fresh
  | leaf {depth position fresh fresh' : Nat} {frame frame' : Frame} {l : Leaf}
    {source content : List Char} {next : Forest} (hcontent : l.content? = some content)
    (hnext : Feeds text limit depth (position + byteLength source) (frame.pushText content) fresh
      next frame' fresh') :
    Feeds text limit depth position frame fresh (.leaf l source next) frame' fresh'
  | known {depth position fresh fresh'' : Nat} {frame frame' : Frame} {f next : Forest}
    {branch : Branch} {child : Element} (inner : Frame) (fresh' : Nat)
    (hf : f.branch? = some (branch, next)) (hdepth : depth < limit)
    (hopen : branch.tag.open? fresh = some child)
    (hinside : Feeds text limit (depth + 1) (position + byteLength branch.opening) ⟨child, ""⟩
      (fresh + 1) branch.children inner fresh')
    (hnext : Feeds text limit depth (position + byteLength branch.source) (frame.offer inner.closed)
      fresh' next frame' fresh'') :
    Feeds text limit depth position frame fresh f frame' fresh''
  | unknown {depth position fresh fresh' : Nat} {frame frame' : Frame} {f next : Forest}
    {branch : Branch} (markup : List Char) (hf : f.branch? = some (branch, next))
    (hdepth : depth < limit) (hknown : branch.tag.isKnown = false)
    (hmarkup : excerpt? text (position + byteLength branch.opening)
      (position + byteLength branch.source) = some markup)
    (hnext : Feeds text limit depth (position + byteLength branch.source)
      (frame.offer (.ofMarkup fresh markup)) (fresh + 1) next frame' fresh') :
    Feeds text limit depth position frame fresh f frame' fresh'

/--
The root that a forest is read as, and the number that is fresh after it. The forest begins at byte
`position`.
-/
inductive Yields (text : List Char) (limit fresh : Nat) : Nat → Forest → Element → Nat → Prop where
  | leaf {position n : Nat} {l : Leaf} {source content : List Char} {next : Forest} {root : Element}
    (hcontent : l.content? = some content)
    (hnext : Yields text limit fresh (position + byteLength source) next root n) :
    Yields text limit fresh position (.leaf l source next) root n
  | root {position n : Nat} {f next : Forest} {branch : Branch} {child : Element} {inner : Frame}
    (hf : f.branch? = some (branch, next)) (hlimit : 0 < limit)
    (hopen : branch.tag.open? fresh = some child)
    (hinside : Feeds text limit 1 (position + byteLength branch.opening) ⟨child, ""⟩ (fresh + 1)
      branch.children inner n)
    (hnext : next.isQuiet = true) :
    Yields text limit fresh position f inner.closed n

end Forest

namespace Builder

variable {text : List Char} {limit : Nat}

theorem beginCapture_empty {b b' : Builder} {stop : Nat} {tag : Tag} :
    b.beginCapture text stop tag true = .ok b'
      ↔ ∃ markup, excerpt? text stop stop = some markup
        ∧ b' = { b with fresh := b.fresh + 1 }.offer (.ofMarkup b.fresh markup) := by
  unfold beginCapture excerpt?
  cases hstart : lastBracket? text stop with
  | none => simp
  | some start =>
    simp only [if_true, Option.bind_eq_bind, Option.bind_some]
    exact offerMarkup_eq_ok

theorem beginCapture_start {b b' : Builder} {stop : Nat} {tag : Tag} :
    b.beginCapture text stop tag false = .ok b'
      ↔ ∃ start, lastBracket? text stop = some start
        ∧ b' = { b with capture := some ⟨tag.name, 0, start⟩ } := by
  unfold beginCapture
  cases hstart : lastBracket? text stop with
  | none => simp
  | some start => simp [eq_comm]

theorem run_readsAll_cons {r after : Reader} {t : Token} {ts : List Token} {b : Builder}
    {result : Element × Nat} (hr : r.ReadsAll (t :: ts) after)
    (h : run text limit r b = .ok result) :
    ∃ mid b', r.Reads t mid ∧ mid.ReadsAll ts after
      ∧ b.step text limit (t.event, mid) = .ok b' ∧ run text limit mid b' = .ok result := by
  obtain ⟨mid, hread, hrest⟩ := Reader.readsAll_cons.mp hr
  rw [run_of_reads b hread] at h
  obtain ⟨b', hstep, hrun⟩ := bind_eq_ok.mp h
  exact ⟨mid, b', hread, hrest, hstep, hrun⟩

theorem run_captured {f : Forest} {r after : Reader} {b : Builder} {c : Capture}
    (hr : r.ReadsAll f.tokens after) (hcapture : b.capture = some c) :
    run text limit r b = run text limit after b := by
  -- An element of the same name counts up and down again, so that the builder is the same behind it.
  induction f generalizing r after b c with
  | nil =>
    unfold Forest.tokens at hr
    rw [Reader.readsAll_nil.mp hr]
  | leaf l source next ih =>
    obtain ⟨mid, hread, hrest⟩ := Reader.readsAll_cons.mp hr
    rw [run_of_reads b hread, step_capture hcapture]
    cases l <;> exact ih hrest hcapture
  | empty tag next ih =>
    obtain ⟨mid, hread, hrest⟩ := Reader.readsAll_cons.mp hr
    rw [run_of_reads b hread, step_capture hcapture]
    exact ih hrest hcapture
  | element tag children closing next ihchildren ihnext =>
    obtain ⟨mid, hread, hrest⟩ := Reader.readsAll_cons.mp hr
    obtain ⟨inside, hchildren, hclose⟩ := Reader.readsAll_append.mp hrest
    obtain ⟨mid', hreadclose, hnext⟩ := Reader.readsAll_cons.mp hclose
    rw [run_of_reads b hread, step_capture hcapture]
    unfold continueCapture
    dsimp only
    by_cases hname : tag.name = c.name
    . rw [if_pos hname]
      let b' : Builder := { b with capture := some { c with depth := c.depth + 1 } }
      have hinside : run text limit mid b' = run text limit inside b' := ihchildren hchildren rfl
      refine Eq.trans hinside ?_
      rw [run_of_reads b' hreadclose, step_capture rfl]
      unfold continueCapture
      dsimp only
      rw [if_pos hname, if_neg (by omega)]
      have hsame : { b' with capture := some { c with depth := c.depth + 1 - 1 } } = b := by
        simp [b', ← hcapture]
      rw [hsame]
      exact ihnext hnext hcapture
    . rw [if_neg hname]
      refine Eq.trans (ihchildren hchildren hcapture) ?_
      rw [run_of_reads b hreadclose, step_capture hcapture]
      unfold continueCapture
      dsimp only
      rw [if_neg hname]
      exact ihnext hnext hcapture

theorem step_opening {branch : Branch} {b : Builder} {after : Reader} (hcapture : b.capture = none) :
    b.step text limit (branch.event, after)
      = b.enter text limit after.position branch.tag branch.isEmpty := by
  unfold Branch.event
  cases branch.isEmpty with
  | false => exact step_start hcapture
  | true => exact step_empty hcapture

theorem run_capturing {children : Forest} {name : String} {closing : List Char} {start : Nat}
    {first inside mid : Reader} {b : Builder} {result : Element × Nat}
    (hchildren : first.ReadsAll children.tokens inside)
    (hclosing : inside.Reads ⟨.close name, closing⟩ mid) (hcapture : b.capture = none) :
    run text limit first { b with capture := some ⟨name, 0, start⟩ } = .ok result
      ↔ ∃ markup, sliceBytes? start mid.position text = some markup
        ∧ run text limit mid ({ b with fresh := b.fresh + 1 }.offer (.ofMarkup b.fresh markup))
          = .ok result := by
  -- Nothing inside of the element ends the capture, only its own end tag does.
  rw [run_captured hchildren rfl, run_of_reads _ hclosing, bind_eq_ok, step_capture rfl]
  simp only [continueCapture, if_true, offerMarkup_eq_ok]
  rw [← hcapture]
  constructor
  . rintro ⟨b', ⟨markup, hmarkup, rfl⟩, hrun⟩
    exact ⟨markup, hmarkup, hrun⟩
  . rintro ⟨markup, hmarkup, hrun⟩
    exact ⟨_, ⟨markup, hmarkup, rfl⟩, hrun⟩

/--
What a builder does with an element that is not of the catalog: it captures the markup of it.
-/
theorem run_unknown {f next : Forest} {branch : Branch} {r mid : Reader} {b : Builder}
    {result : Element × Nat} (hf : f.branch? = some (branch, next)) (hr : r.ReadsAll branch.tokens mid)
    (hknown : branch.tag.isKnown = false) (hcapture : b.capture = none) (hstack : b.stack ≠ []) :
    run text limit r b = .ok result
      ↔ b.stack.length + 1 ≤ limit
        ∧ ∃ markup, excerpt? text (r.consumed + byteLength branch.opening)
            (r.consumed + byteLength branch.source) = some markup
          ∧ run text limit mid ({ b with fresh := b.fresh + 1 }.offer (.ofMarkup b.fresh markup))
            = .ok result := by
  have hconsumed : mid.consumed = r.consumed + byteLength branch.source := by
    rw [hr.consumed, (Forest.tokens_branch hf).2]
  obtain ⟨inside, hinside, hclosing⟩ := Reader.readsAll_append.mp hr
  obtain ⟨first, hread, hchildren⟩ := Reader.readsAll_cons.mp hinside
  have hopening {b' : Builder} : b.step text limit (branch.event, first) = .ok b'
      ↔ b.stack.length + 1 ≤ limit ∧ b.beginCapture text (r.consumed + byteLength branch.opening)
          branch.tag branch.isEmpty = .ok b' := by
    have hposition : first.position = r.consumed + byteLength branch.opening := by
      apply hread.position
      unfold Branch.event
      cases branch.isEmpty <;> rfl
    rw [step_opening hcapture, enter_eq_ok, hposition, hknown]
    simp [hstack]
  rw [run_of_reads b hread, bind_eq_ok]
  simp only [hopening]
  cases hempty : branch.isEmpty with
  | true =>
    rw [Forest.children_of_isEmpty hf hempty] at hchildren
    rw [hempty, if_pos rfl] at hclosing
    obtain rfl := Reader.readsAll_nil.mp hchildren
    obtain rfl := Reader.readsAll_nil.mp hclosing
    rw [← hconsumed, hread.consumed]
    constructor
    . rintro ⟨b', ⟨hlimit, hbegin⟩, hrun⟩
      obtain ⟨markup, hmarkup, rfl⟩ := beginCapture_empty.mp hbegin
      exact ⟨hlimit, markup, hmarkup, hrun⟩
    . rintro ⟨hlimit, markup, hmarkup, hrun⟩
      exact ⟨_, ⟨hlimit, beginCapture_empty.mpr ⟨markup, hmarkup, rfl⟩⟩, hrun⟩
  | false =>
    rw [hempty, if_neg (by simp)] at hclosing
    obtain ⟨_, hclose, hnil⟩ := Reader.readsAll_cons.mp hclosing
    obtain rfl := Reader.readsAll_nil.mp hnil
    have hstop : mid.position = r.consumed + byteLength branch.source := by
      rw [← hconsumed, hclose.consumed]
      exact hclose.position rfl
    constructor
    . rintro ⟨b', ⟨hlimit, hbegin⟩, hrun⟩
      obtain ⟨start, hstart, rfl⟩ := beginCapture_start.mp hbegin
      obtain ⟨markup, hmarkup, hrun⟩ := (run_capturing hchildren hclose hcapture).mp hrun
      rw [hstop] at hmarkup
      exact ⟨hlimit, markup, Option.bind_eq_some_iff.mpr ⟨start, hstart, hmarkup⟩, hrun⟩
    . rintro ⟨hlimit, markup, hmarkup, hrun⟩
      obtain ⟨start, hstart, hslice⟩ := Option.bind_eq_some_iff.mp hmarkup
      rw [← hstop] at hslice
      exact ⟨_, ⟨hlimit, beginCapture_start.mpr ⟨start, hstart, rfl⟩⟩,
        (run_capturing hchildren hclose hcapture).mpr ⟨markup, hslice, hrun⟩⟩

theorem close_opened {b : Builder} {frame outer : Frame} {frames : List Frame}
    (h : b.stack = frame :: outer :: frames) :
    b.close = { b with stack := outer.offer frame.closed :: frames } := by
  unfold close
  simp only [h, offer, Frame.offer, Frame.closed]

theorem offer_of_stack {b : Builder} {frame : Frame} {frames : List Frame} (child : Element)
    (h : b.stack = frame :: frames) :
    b.offer child = { b with stack := frame.offer child :: frames } := by
  unfold offer
  simp only [h, Frame.offer]

theorem pushText_of_stack {b : Builder} {frame : Frame} {frames : List Frame} (s : List Char)
    (h : b.stack = frame :: frames) :
    b.pushText s = { b with stack := frame.pushText s :: frames } := by
  unfold pushText
  simp only [h, Frame.pushText]

-- What a run makes of the children is a hypothesis, since this is a step of the induction for it.
theorem run_opened {f next : Forest} {branch : Branch} {first inside mid : Reader} {b : Builder}
    {child : Element} {result : Element × Nat} (hf : f.branch? = some (branch, next))
    (hchildren : first.ReadsAll branch.children.tokens inside)
    (hclosing : inside.ReadsAll
      (if branch.isEmpty then [] else [⟨.close branch.tag.name, branch.closing⟩]) mid)
    (hcapture : b.capture = none)
    (h : run text limit first (if branch.isEmpty then (b.opened child).close else b.opened child)
      = .ok result)
    (hfeeds : run text limit first (b.opened child) = .ok result → ∃ inner fresh',
      branch.children.Feeds text limit (b.opened child).stack.length first.consumed ⟨child, ""⟩
          (b.fresh + 1) inner fresh'
        ∧ run text limit inside { b.opened child with stack := inner :: b.stack, fresh := fresh' }
          = .ok result) :
    ∃ inner fresh',
      branch.children.Feeds text limit (b.stack.length + 1) first.consumed ⟨child, ""⟩ (b.fresh + 1)
          inner fresh'
        ∧ run text limit mid (close { b with stack := inner :: b.stack, fresh := fresh' })
          = .ok result := by
  have hlength : (b.opened child).stack.length = b.stack.length + 1 := by
    simp [opened]
  cases hempty : branch.isEmpty with
  | true =>
    rw [Forest.children_of_isEmpty hf hempty] at hchildren ⊢
    rw [hempty, if_pos rfl] at hclosing h
    obtain rfl := Reader.readsAll_nil.mp hchildren
    obtain rfl := Reader.readsAll_nil.mp hclosing
    exact ⟨⟨child, ""⟩, b.fresh + 1, .nil _ _ _ _, h⟩
  | false =>
    rw [hempty, if_neg (by simp)] at hclosing h
    obtain ⟨inner, fresh', hinside, hrun⟩ := hfeeds h
    obtain ⟨_, b'', _, hnil, hstep, hrun⟩ := run_readsAll_cons hclosing hrun
    obtain rfl := Reader.readsAll_nil.mp hnil
    let b' : Builder := { b.opened child with stack := inner :: b.stack, fresh := fresh' }
    rw [step_close (b := b') hcapture, Except.ok.injEq] at hstep
    subst hstep
    rw [hlength] at hinside
    exact ⟨inner, fresh', hinside, hrun⟩

/--
A builder with an open element makes of a forest what the relation says.
-/
theorem run_feeds {f : Forest} {r after : Reader} {b : Builder} {frame : Frame} {frames : List Frame}
    {result : Element × Nat} (hr : r.ReadsAll f.tokens after) (hcapture : b.capture = none)
    (hstack : b.stack = frame :: frames) (h : run text limit r b = .ok result) :
    ∃ frame' fresh',
      f.Feeds text limit b.stack.length r.consumed frame b.fresh frame' fresh'
        ∧ run text limit after { b with stack := frame' :: frames, fresh := fresh' } = .ok result := by
  induction f using Forest.branchInduction generalizing r after b frame frames with
  | nil =>
    unfold Forest.tokens at hr
    obtain rfl := Reader.readsAll_nil.mp hr
    refine ⟨frame, b.fresh, .nil _ _ _ _, ?_⟩
    rw [← hstack]
    exact h
  | leaf l source next ih =>
    obtain ⟨mid, b', hread, hrest, hstep, hrun⟩ := run_readsAll_cons hr h
    obtain ⟨content, hcontent, rfl⟩ := (step_leaf hcapture).mp hstep
    rw [pushText_of_stack content hstack] at hrun
    obtain ⟨frame', fresh', hfeeds, hrun⟩ :=
      ih (b := { b with stack := frame.pushText content :: frames }) hrest hcapture rfl hrun
    refine ⟨frame', fresh', .leaf hcontent ?_, hrun⟩
    rw [hread.consumed] at hfeeds
    simpa [hstack] using hfeeds
  | branch f branch next hf ihchildren ihnext =>
    obtain ⟨first, inside, mid, hfirst, hchildren, hclosing, hbranch, hnext⟩ :=
      Forest.readsAll_branch hf hr
    have hconsumed : mid.consumed = r.consumed + byteLength branch.source := by
      rw [hbranch.consumed, (Forest.tokens_branch hf).2]
    cases hknown : branch.tag.isKnown with
    | false =>
      have hne : b.stack ≠ [] := by
        simp [hstack]
      obtain ⟨hlimit, markup, hmarkup, hrun⟩ := (run_unknown hf hbranch hknown hcapture hne).mp h
      rw [offer_of_stack (b := { b with fresh := b.fresh + 1 }) _ hstack] at hrun
      obtain ⟨frame', fresh', hfeeds, hrun⟩ :=
        ihnext (b := { b with
          stack := frame.offer (.ofMarkup b.fresh markup) :: frames, fresh := b.fresh + 1 })
          hnext hcapture rfl hrun
      refine ⟨frame', fresh', .unknown markup hf hlimit hknown hmarkup ?_, hrun⟩
      rw [hconsumed] at hfeeds
      simpa [hstack] using hfeeds
    | true =>
      obtain ⟨b', hstep, hrun⟩ := bind_eq_ok.mp ((run_of_reads b hfirst).symm.trans h)
      rw [step_opening hcapture, enter_eq_ok, if_pos hknown] at hstep
      obtain ⟨hlimit, _, child, hopen, rfl⟩ := hstep
      have hopened : (b.opened child).stack = ⟨child, ""⟩ :: b.stack := rfl
      obtain ⟨inner, fresh', hfeedsin, hrun⟩ := run_opened hf hchildren hclosing hcapture hrun
        (ihchildren hchildren hcapture hopened)
      let b' : Builder := { b with stack := inner :: b.stack, fresh := fresh' }
      have hinner : b'.stack = inner :: frame :: frames := congrArg (inner :: ·) hstack
      rw [close_opened hinner] at hrun
      rw [hfirst.consumed] at hfeedsin
      obtain ⟨frame', fresh'', hfeeds, hrun⟩ :=
        ihnext (b := { b with stack := frame.offer inner.closed :: frames, fresh := fresh' })
          hnext hcapture rfl hrun
      refine ⟨frame', fresh'', .known inner fresh' hf hlimit hopen hfeedsin ?_, hrun⟩
      rw [hconsumed] at hfeeds
      simpa [hstack] using hfeeds

theorem run_behind_root {f : Forest} {r last : Reader} {e : Ending} {b : Builder}
    {root root' : Element} {n : Nat} (hr : r.ReadsAll f.tokens last) (hlast : last.next = .ending e)
    (hcapture : b.capture = none) (hstack : b.stack = []) (hroot : b.root = some root)
    (h : run text limit r b = .ok (root', n)) :
    f.isQuiet = true ∧ root' = root ∧ n = b.fresh := by
  induction f generalizing r with
  | nil =>
    unfold Forest.tokens at hr
    obtain rfl := Reader.readsAll_nil.mp hr
    rw [run_of_ending b hlast] at h
    obtain ⟨_, _, _, hroot', hfresh⟩ := finish_eq_ok.mp h
    rw [hroot, Option.some.injEq] at hroot'
    exact ⟨rfl, hroot'.symm, hfresh.symm⟩
  | leaf l source next ih =>
    obtain ⟨mid, b', hread, hrest, hstep, hrun⟩ := run_readsAll_cons hr h
    obtain ⟨content, hcontent, rfl⟩ := (step_leaf hcapture).mp hstep
    have hpush : b.pushText content = b := by
      unfold pushText
      rw [hstack]
    rw [hpush] at hrun
    obtain ⟨hquiet, hsame⟩ := ih hrest hrun
    refine ⟨?_, hsame⟩
    unfold Forest.isQuiet
    rw [hcontent, hquiet]
    rfl
  | empty tag next =>
    obtain ⟨mid, b', _, _, hstep, _⟩ := run_readsAll_cons hr h
    rw [step_empty hcapture, enter_eq_ok] at hstep
    obtain ⟨_, hnone, _⟩ := hstep
    rw [hnone hstack] at hroot
    simp at hroot
  | element tag children closing next =>
    obtain ⟨mid, b', _, _, hstep, _⟩ := run_readsAll_cons hr h
    rw [step_start hcapture, enter_eq_ok] at hstep
    obtain ⟨_, hnone, _⟩ := hstep
    rw [hnone hstack] at hroot
    simp at hroot

theorem run_yields {f : Forest} {r last : Reader} {e : Ending} {b : Builder} {root : Element} {n : Nat}
    (hr : r.ReadsAll f.tokens last) (hlast : last.next = .ending e) (hcapture : b.capture = none)
    (hstack : b.stack = []) (hroot : b.root = none) (h : run text limit r b = .ok (root, n)) :
    f.Yields text limit b.fresh r.consumed root n := by
  have hclose {q : Builder} {frame : Frame} (hq : q.stack = [frame]) :
      q.close = { q with stack := [], root := some frame.closed } := by
    unfold close
    simp only [hq, Frame.closed]
  induction f using Forest.branchInduction generalizing r with
  | nil =>
    unfold Forest.tokens at hr
    obtain rfl := Reader.readsAll_nil.mp hr
    rw [run_of_ending b hlast] at h
    obtain ⟨_, _, _, hroot', _⟩ := finish_eq_ok.mp h
    rw [hroot] at hroot'
    simp at hroot'
  | leaf l source next ih =>
    obtain ⟨mid, b', hread, hrest, hstep, hrun⟩ := run_readsAll_cons hr h
    obtain ⟨content, hcontent, rfl⟩ := (step_leaf hcapture).mp hstep
    have hpush : b.pushText content = b := by
      unfold pushText
      rw [hstack]
    rw [hpush] at hrun
    have hyields := ih hrest hrun
    rw [hread.consumed] at hyields
    exact .leaf hcontent hyields
  | branch f branch next hf =>
    obtain ⟨first, inside, mid, hfirst, hchildren, hclosing, _, hnext⟩ := Forest.readsAll_branch hf hr
    obtain ⟨b', hstep, hrun⟩ := bind_eq_ok.mp ((run_of_reads b hfirst).symm.trans h)
    rw [step_opening hcapture, enter_eq_ok] at hstep
    obtain ⟨hlimit, _, hstep⟩ := hstep
    split at hstep
    . obtain ⟨child, hopen, rfl⟩ := hstep
      obtain ⟨inner, fresh', hfeeds, hrun⟩ := run_opened hf hchildren hclosing hcapture hrun
        (run_feeds hchildren hcapture rfl)
      let b' : Builder := { b with stack := inner :: b.stack, fresh := fresh' }
      have hinner : b'.stack = [inner] := congrArg (inner :: ·) hstack
      rw [hclose hinner] at hrun
      let b'' : Builder := { b' with stack := [], root := some inner.closed }
      obtain ⟨hquiet, rfl, rfl⟩ := run_behind_root (b := b'') hnext hlast hcapture rfl rfl hrun
      rw [hfirst.consumed, hstack] at hfeeds
      exact .root hf (by omega) hopen hfeeds hquiet
    . exact absurd hstack hstep.1

end Builder

/--
The root of a document is the one that its forest is read as.
-/
theorem Forest.yields_of_parse {limit fresh : Nat} {text : String} {root : Element} {n : Nat}
    (h : parseDocument limit fresh text = .ok (root, n)) :
    (documentForest text.toList).Yields text.toList limit fresh 0 root n := by
  obtain ⟨last, position, hall, hlast⟩ := readsAll_documentForest h
  have hconsumed : (Reader.start text.toList).consumed = 0 := by
    unfold Reader.start
    split <;> rfl
  rw [Builder.parseDocument_eq_run] at h
  have hyields := Builder.run_yields hall hlast rfl rfl rfl h
  rw [hconsumed] at hyields
  exact hyields

end KmlTree
