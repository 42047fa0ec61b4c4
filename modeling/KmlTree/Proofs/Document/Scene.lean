import KmlTree.Document.Error
import KmlTree.Proofs.Document.Pairing
import KmlTree.Proofs.Markup.AttributeList

/-!
This module contains what is asked of a text, apart from any builder. The events of a text are looked at
with what is open in front of them (`Scene`), except for those in elements that are not of the catalog, each
of which is skipped as a whole. A text is a document (`IsDocument`) if and only if nothing is wrong with any
of its scenes nor with its end (`documentFaults`).
-/

namespace KmlTree

/--
An event with the readers in front of it and behind it. `begun` tells whether there has been an element at
the top before.
-/
structure Scene where
  front : Reader
  begun : Bool
  event : Event
  after : Reader

/--
The tag of an element that begins.
-/
def Event.tag? : Event → Option Tag
  | .start tag => some tag
  | .empty tag => some tag
  | _ => none

/--
The outermost of the open tags that is not of the catalog. The one at the top is not looked at.
-/
def outermostUnknown? (names : List String) : Option String :=
  names.dropLast.reverse.find? fun name => (Kind.ofTag? name).isNone

/--
The fault that an outcome is reported as.
-/
def faultsOf {ε α : Type} (position : Nat) (fault : ε → MarkupFault) : Except ε α → List ParseError
  | .error e => [.markup position (fault e)]
  | .ok _ => []

namespace Scene

/--
Whether a scene is inside of an element below the top that is not of the catalog.
-/
def isSkipped (s : Scene) : Bool := (outermostUnknown? s.front.openNames).isSome

/--
How deep an element is that begins in a scene.
-/
def depth (s : Scene) : Nat := s.front.openNames.length + 1

def isTop (s : Scene) : Bool := s.front.openNames.isEmpty

/--
The tag of an element that begins at the top.
-/
def topTag? (s : Scene) : Option Tag :=
  if s.isTop then s.event.tag? else none

/--
What is wrong with an element that begins, in the order in which it is looked for.
-/
def tagFaults (limit : Nat) (s : Scene) (tag : Tag) : List ParseError :=
  (if limit < s.depth then [.nestingTooDeep limit] else [])
    ++ (if s.isTop && s.begun then [.multipleRoots] else [])
    ++ (if s.isTop && !tag.isKnown then [.unknownRoot tag.name] else [])
    ++ (if tag.isKnown then faultsOf s.after.position .attributes tag.attributes else [])

def faults (limit : Nat) (s : Scene) : List ParseError :=
  if s.isSkipped then
    []
  else
    match s.event with
    | .text raw => faultsOf s.after.position .reference (unescape raw)
    | .start tag => s.tagFaults limit tag
    | .empty tag => s.tagFaults limit tag
    | _ => []

end Scene

/--
The scenes of events that are read one after the other.
-/
def scenesFrom (front : Reader) (begun : Bool) : List (Event × Reader) → List Scene
  | [] => []
  | (e, after) :: events =>
    let s : Scene := ⟨front, begun, e, after⟩
    s :: scenesFrom after (begun || s.topTag?.isSome) events

def scenes (text : List Char) : List Scene :=
  scenesFrom (Reader.start text) false (Reader.start text).transcript.events

/--
The tags of the elements at the top.
-/
def topTags (scenes : List Scene) : List Tag := scenes.filterMap Scene.topTag?

/--
What is wrong with the end of a text, in the order in which it is looked for.
-/
def endFaults (last : Reader) (begun : Bool) : Ending → List ParseError
  | .failed position e => [.markup position (.read e)]
  | .finished position =>
    ((outermostUnknown? last.openNames).map fun name =>
        ParseError.markup position (.unclosedMarkup name)).toList
      ++ (if last.openNames.isEmpty then [] else [.unclosedElements last.openNames.length])
      ++ (if begun then [] else [.noRoot])

/--
The reader at the end of what can be read of a text.
-/
def lastReader (text : List Char) : Reader :=
  (Reader.start text).past (Reader.start text).transcript.events

/--
Everything that is wrong with a text, in the order of the events.
-/
def documentFaults (limit : Nat) (text : List Char) : List ParseError :=
  (scenes text).flatMap (Scene.faults limit)
    ++ endFaults (lastReader text) (!(topTags (scenes text)).isEmpty)
      (Reader.start text).transcript.ending

/--
Whether a text is a document: it can be read to its end, and skipped elements with it; the references in its
text have a meaning; the attributes of the elements of the catalog are sound; no element is deeper than the
limit; there is a single element at the top, which is of the catalog; and every tag is closed. Nothing but
the reading is asked of what is inside of skipped elements.
-/
structure IsDocument (limit : Nat) (text : List Char) : Prop where
  finished : ∃ position, (Reader.start text).transcript.ending = .finished position
  references : ∀ s ∈ scenes text, s.isSkipped = false →
    ∀ raw, s.event = .text raw → ∃ content, unescape raw = .ok content
  attributes : ∀ s ∈ scenes text, s.isSkipped = false →
    ∀ tag, s.event.tag? = some tag → tag.isKnown = true → tag.HasSoundAttributes
  depth : ∀ s ∈ scenes text, s.isSkipped = false →
    ∀ tag, s.event.tag? = some tag → s.depth ≤ limit
  root : ∃ tag, topTags (scenes text) = [tag] ∧ tag.isKnown = true
  closed : (lastReader text).openNames = []

theorem faultsOf_eq_nil {ε α : Type} {position : Nat} {fault : ε → MarkupFault} {outcome : Except ε α} :
    faultsOf position fault outcome = [] ↔ ∃ a, outcome = .ok a := by
  cases outcome <;> simp [faultsOf]

namespace Scene

variable {limit : Nat}

theorem topTag?_eq_some {s : Scene} {tag : Tag} :
    s.topTag? = some tag ↔ s.isTop = true ∧ s.event.tag? = some tag := by
  unfold topTag?
  cases s.isTop <;> simp

theorem isSkipped_of_isTop {s : Scene} (h : s.isTop = true) : s.isSkipped = false := by
  unfold isTop at h
  unfold isSkipped
  rw [List.isEmpty_iff.mp h]
  rfl

theorem tagFaults_eq_nil {s : Scene} {tag : Tag} :
    s.tagFaults limit tag = []
      ↔ s.depth ≤ limit ∧ (s.isTop = true → s.begun = false ∧ tag.isKnown = true)
        ∧ (tag.isKnown = true → tag.HasSoundAttributes) := by
  unfold tagFaults
  rw [← Tag.attributes_iff]
  cases s.isTop <;> cases s.begun <;> cases tag.isKnown <;> simp [faultsOf_eq_nil]

theorem faults_eq_nil {s : Scene} :
    s.faults limit = []
      ↔ s.isSkipped = false →
        (∀ raw, s.event = .text raw → ∃ content, unescape raw = .ok content)
          ∧ ∀ tag, s.event.tag? = some tag → s.tagFaults limit tag = [] := by
  unfold faults
  cases s.isSkipped with
  | true => simp
  | false => cases s.event <;> simp [Event.tag?, faultsOf_eq_nil]

end Scene

/--
The elements at the top are counted by whether there has been one before.
-/
theorem length_topTags_le {front : Reader} {begun : Bool} {events : List (Event × Reader)} :
    (∀ s ∈ scenesFrom front begun events, s.topTag?.isSome = true → s.begun = false)
      ↔ (topTags (scenesFrom front begun events)).length ≤ if begun then 0 else 1 := by
  induction events generalizing front begun with
  | nil => simp [scenesFrom, topTags]
  | cons event events ih =>
    obtain ⟨e, after⟩ := event
    unfold scenesFrom topTags
    dsimp only
    rw [List.forall_mem_cons, ih, List.filterMap_cons]
    unfold topTags
    cases htop : Scene.topTag? ⟨front, begun, e, after⟩ with
    | none => simp
    | some tag => cases begun <;> simp

/--
There is a single element at the top, which is of the catalog, if and only if there is one and none of those
at the top comes after another or is not of the catalog.
-/
theorem exists_root_iff {front : Reader} {events : List (Event × Reader)} :
    (∃ tag, topTags (scenesFrom front false events) = [tag] ∧ tag.isKnown = true)
      ↔ topTags (scenesFrom front false events) ≠ []
        ∧ ∀ s ∈ scenesFrom front false events, ∀ tag, s.topTag? = some tag →
          s.begun = false ∧ tag.isKnown = true := by
  have hcount : (topTags (scenesFrom front false events)).length ≤ 1
      ↔ ∀ s ∈ scenesFrom front false events, s.topTag?.isSome = true → s.begun = false :=
    length_topTags_le.symm
  have hmem {tag : Tag} : tag ∈ topTags (scenesFrom front false events)
      ↔ ∃ s ∈ scenesFrom front false events, s.topTag? = some tag :=
    List.mem_filterMap
  constructor
  . rintro ⟨root, hroot, hknown⟩
    rw [hroot] at hcount hmem ⊢
    refine ⟨List.cons_ne_nil _ _, ?_⟩
    intro s hs tag htag
    have hsame : tag = root := List.mem_singleton.mp (hmem.mpr ⟨s, hs, htag⟩)
    rw [hsame]
    exact ⟨hcount.mp (Nat.le_refl 1) s hs (by rw [htag]; rfl), hknown⟩
  . rintro ⟨hsome, hscenes⟩
    have hone : (topTags (scenesFrom front false events)).length ≤ 1 := by
      apply hcount.mpr
      intro s hs htop
      obtain ⟨tag, htag⟩ := Option.isSome_iff_exists.mp htop
      exact (hscenes s hs tag htag).1
    obtain ⟨tag, tags, htags⟩ := List.exists_cons_of_ne_nil hsome
    rw [htags] at hone hmem ⊢
    obtain ⟨s, hs, htag⟩ := hmem.mp List.mem_cons_self
    have hnil : tags = [] := by
      simpa using hone
    rw [hnil]
    exact ⟨tag, rfl, (hscenes s hs tag htag).2⟩

theorem endFaults_eq_nil {last : Reader} {begun : Bool} {e : Ending} :
    endFaults last begun e = []
      ↔ (∃ position, e = .finished position) ∧ last.openNames = [] ∧ begun = true := by
  cases e with
  | failed => simp [endFaults]
  | finished position =>
    cases hnames : last.openNames with
    | nil => cases begun <;> simp [endFaults, hnames, outermostUnknown?]
    | cons => simp [endFaults, hnames]

/--
A text is a document if and only if nothing is wrong with it.
-/
theorem documentFaults_eq_nil {limit : Nat} {text : List Char} :
    documentFaults limit text = [] ↔ IsDocument limit text := by
  have hsome : (!(topTags (scenes text)).isEmpty) = true ↔ topTags (scenes text) ≠ [] := by
    simp
  unfold documentFaults
  rw [List.append_eq_nil_iff, List.flatMap_eq_nil_iff, endFaults_eq_nil, hsome]
  simp only [Scene.faults_eq_nil, Scene.tagFaults_eq_nil]
  constructor
  . rintro ⟨hscenes, hfinished, hclosed, hsome⟩
    refine ⟨hfinished, ?_, ?_, ?_, exists_root_iff.mpr ⟨hsome, ?_⟩, hclosed⟩
    . intro s hs hskipped
      exact (hscenes s hs hskipped).1
    . intro s hs hskipped tag htag
      exact ((hscenes s hs hskipped).2 tag htag).2.2
    . intro s hs hskipped tag htag
      exact ((hscenes s hs hskipped).2 tag htag).1
    . intro s hs tag htop
      obtain ⟨hisTop, htag⟩ := Scene.topTag?_eq_some.mp htop
      exact ((hscenes s hs (Scene.isSkipped_of_isTop hisTop)).2 tag htag).2.1 hisTop
  . intro h
    obtain ⟨hsome, hroot⟩ := exists_root_iff.mp h.root
    refine ⟨?_, h.finished, h.closed, hsome⟩
    intro s hs hskipped
    refine ⟨h.references s hs hskipped, ?_⟩
    intro tag htag
    refine ⟨h.depth s hs hskipped tag htag, ?_, h.attributes s hs hskipped tag htag⟩
    intro hisTop
    exact hroot s hs tag (Scene.topTag?_eq_some.mpr ⟨hisTop, htag⟩)

end KmlTree
