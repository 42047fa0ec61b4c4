import KmlTree.Proofs.Markup.Bracketed
import KmlTree.Proofs.Markup.Written

/-!
This module contains what a text of markup says apart from its spelling: its tags in their order, and the
text between each two of them (`Course`). What is written without indentation and lines is read as the
course that was meant (`Reader.course_written`).
-/

namespace KmlTree

/--
A start tag or an end tag as it is meant.
-/
inductive Mark where
  | opening (name : String) (attributes : List (String × String))
  | closing (name : String)
deriving DecidableEq

/--
What an instruction writes, or what an event has to say.
-/
inductive Item where
  | mark (m : Mark)
  | text (content : List Char)
deriving DecidableEq

/--
The tags of a text, each with the text between it and the one in front of it, and the text behind the last
tag.
-/
structure Course where
  marks : List (List Char × Mark)
  rest : List Char
deriving DecidableEq

namespace Course

def empty : Course := ⟨[], []⟩

/--
The course with one item more in front of it. Text joins the text that it stands in front of.
-/
def cons (c : Course) : Item → Course
  | .mark m => ⟨([], m) :: c.marks, c.rest⟩
  | .text s =>
    match c.marks with
    | [] => ⟨[], s ++ c.rest⟩
    | (t, m) :: ms => ⟨(s ++ t, m) :: ms, c.rest⟩

def append (items : List Item) (c : Course) : Course :=
  items.foldr (fun item c => c.cons item) c

def ofItems (items : List Item) : Course := append items .empty

theorem append_append (is js : List Item) (c : Course) :
    append (is ++ js) c = append is (append js c) :=
  List.foldr_append

theorem cons_text_nil (c : Course) : c.cons (.text []) = c := by
  obtain ⟨marks, rest⟩ := c
  cases marks <;> rfl

theorem cons_text_cons_text (s t : List Char) (c : Course) :
    (c.cons (.text t)).cons (.text s) = c.cons (.text (s ++ t)) := by
  obtain ⟨marks, rest⟩ := c
  cases marks <;> simp [cons]

end Course

/--
The items that an instruction writes. What the markup says that is written as it is is not known here.
-/
def Writer.Instruction.items : Writer.Instruction → List Item
  | startTag name a | startInline name a => [.mark (.opening name a.entries)]
  | endTag name | endInline name => [.mark (.closing name)]
  | text content => [.text content.toList]
  | textElement name a content =>
    [.mark (.opening name a.entries), .text content.toList, .mark (.closing name)]
  | raw _ => []

/--
The items that an event has to say, unless its attributes or references have no meaning. The tag of an
empty element is a start tag and an end tag.
-/
def Event.items? : Event → Option (List Item)
  | text raw => (unescape raw).toOption.map fun content => [.text content]
  | cdata content => some [.text content]
  | start tag => tag.attributes.toOption.map fun a => [.mark (.opening tag.name a.entries)]
  | empty tag => tag.attributes.toOption.map fun a =>
    [.mark (.opening tag.name a.entries), .mark (.closing tag.name)]
  | close name => some [.mark (.closing name)]
  | aside => some []

/--
The items of a list of events.
-/
def itemsOf? : List (Event × Reader) → Option (List Item)
  | [] => some []
  | (e, _) :: events => do
    let items ← e.items?
    let rest ← itemsOf? events
    return items ++ rest

theorem Event.items?_text {raw : List Char} {items : List Item} :
    (text raw).items? = some items ↔ ∃ content, unescape raw = .ok content ∧ items = [.text content] := by
  unfold items?
  cases hunescape : unescape raw with
  | error e => simp [hunescape, Except.toOption]
  | ok content => simp [hunescape, Except.toOption, eq_comm]

theorem itemsOf?_cons {e : Event} {r : Reader} {events : List (Event × Reader)} {items : List Item} :
    itemsOf? ((e, r) :: events) = some items
      ↔ ∃ is js, e.items? = some is ∧ itemsOf? events = some js ∧ items = is ++ js := by
  simp only [itemsOf?, bind, Option.bind_eq_some_iff, pure, Option.some.injEq]
  grind

namespace Reader

/--
The course that a reader reads, if it comes to the end of the text and everything on the way has a meaning.
-/
def course? (r : Reader) : Option Course :=
  match r.transcript.ending with
  | .finished _ => (itemsOf? r.transcript.events).map .ofItems
  | .failed _ _ => none

theorem course?_eq_some_of_reads {r after : Reader} {t : Token} {c : Course} (h : r.Reads t after) :
    r.course? = some c
      ↔ ∃ items c', t.event.items? = some items ∧ after.course? = some c' ∧ c = c'.append items := by
  unfold course?
  rw [transcript_of_reads h]
  cases after.transcript.ending with
  | failed position error => simp
  | finished position =>
    simp only [Option.map_eq_some_iff, itemsOf?_cons]
    constructor
    . rintro ⟨_, ⟨items, items', hitems, hafter, rfl⟩, rfl⟩
      exact ⟨items, _, hitems, ⟨items', hafter, rfl⟩, Course.append_append items items' .empty⟩
    . rintro ⟨items, _, hitems, ⟨items', hafter, rfl⟩, rfl⟩
      exact ⟨_, ⟨items, items', hitems, hafter, rfl⟩, Course.append_append items items' .empty⟩

/--
Whether a text in which tags with the given names are open is read as a course.
-/
def ReadsAs (s : List Char) (names : List String) (c : Course) : Prop :=
  ∀ r : Reader, r.rest = s → r.openNames = names → r.course? = some c

namespace ReadsAs

variable {s rest : List Char} {names names' : List String} {c : Course}

theorem nil (names : List String) : ReadsAs [] names .empty := by
  intro r hr _
  have hending : r.next = .ending (.finished r.consumed) := by
    unfold next
    rw [hr]
  unfold course?
  rw [transcript_of_ending hending]
  rfl

theorem token {t : Token} {items : List Item} (ht : t.Readable) (hends : t.EndsBefore rest)
    (hnames : t.event.openNames? names = some names') (hitems : t.event.items? = some items)
    (h : ReadsAs rest names' c) : ReadsAs (t.source ++ rest) names (c.append items) := by
  rintro r hr rfl
  have hreads := ht.reads hr hends hnames
  have hafter := h (r.behind t rest names') rfl rfl
  exact (course?_eq_some_of_reads hreads).mpr ⟨items, c, hitems, hafter, rfl⟩

theorem markup {t : Token} {items : List Item} (ht : t.Readable) (htext : t.event.isText = false)
    (hnames : t.event.openNames? names = some names') (hitems : t.event.items? = some items)
    (h : ReadsAs rest names' c) : ReadsAs (t.source ++ rest) names (c.append items) :=
  token ht (Token.endsBefore_of_markup htext rest) hnames hitems h

/--
Text is read together with the text that it stands in front of.
-/
theorem text {u : List Char} (hs : Denotes s u) (hbracket : '<' ∉ s) (h : ReadsAs rest names c) :
    ReadsAs (s ++ rest) names (c.cons (.text u)) := by
  by_cases hnil : s = []
  . subst hnil
    rw [hs.eq_nil, Course.cons_text_nil]
    exact h
  by_cases hends : ∀ c ∈ rest.head?, c = '<'
  . have hitems := Event.items?_text.mpr ⟨u, hs.unescape, rfl⟩
    exact token (readable_text hnil hbracket) (fun _ => hends) rfl hitems h
  . rintro r hr rfl
    let behind : Reader := { r with rest := rest, consumed := r.consumed + byteLength s }
    obtain ⟨raw, after, hreads⟩ := exists_reads_text (r := behind) hends
    obtain ⟨_, c', hraw, hafter, rfl⟩ := (course?_eq_some_of_reads hreads).mp (h behind rfl rfl)
    obtain ⟨v, hunescape, rfl⟩ := Event.items?_text.mp hraw
    have hwhole : r.Reads ⟨.text (s ++ raw), s ++ raw⟩ after := hreads.prepend_text hbracket hr
    have hitems := Event.items?_text.mpr ⟨_, hs.unescape_append hunescape, rfl⟩
    refine (course?_eq_some_of_reads hwhole).mpr ⟨_, c', hitems, hafter, ?_⟩
    exact Course.cons_text_cons_text u v c'

section Tags

variable {name : String} {a : Attributes} (hname : isXmlName name.toList = true)
  (hnames : ∀ entry ∈ a.entries, isXmlName entry.1.toList = true)

include hname

theorem close (h : ReadsAs rest names c) :
    ReadsAs (("</" ++ name ++ ">").toList ++ rest) (name :: names) (c.cons (.mark (.closing name))) := by
  have hsource : ("</" ++ name ++ ">").toList = closingTag name := by
    simp [closingTag]
  rw [hsource]
  apply markup (readable_close (notMem_tagDelimiters_of_isXmlName hname)) rfl _ rfl h
  exact Event.openNames?_close.mpr rfl

include hnames

theorem start (h : ReadsAs rest (name :: names) c) :
    ReadsAs ((Writer.tagText name a ++ ">").toList ++ rest) names
      (c.cons (.mark (.opening name a.entries))) := by
  have hsource : (Writer.tagText name a ++ ">").toList = (Tag.written name a).source := by
    rw [String.toList_append, Tag.toList_tagText]
    rfl
  have hdelimiters := notMem_tagDelimiters_of_isXmlName hname
  have hitems : (Event.start (Tag.written name a)).items? = some [.mark (.opening name a.entries)] := by
    simp [Event.items?, Tag.name_written hdelimiters, Tag.attributes_written hdelimiters hnames,
      Except.toOption]
  rw [← Tag.name_written (a := a) hdelimiters] at h
  rw [hsource]
  exact markup (Tag.readable_start_written (ne_empty_of_isXmlName hname) hdelimiters hnames) rfl rfl
    hitems h

theorem empty (h : ReadsAs rest names c) :
    ReadsAs ((Writer.tagText name a ++ "/>").toList ++ rest) names
      (c.append [.mark (.opening name a.entries), .mark (.closing name)]) := by
  have hsource : (Writer.tagText name a ++ "/>").toList = (Tag.written name a).emptySource := by
    rw [String.toList_append, Tag.toList_tagText]
    rfl
  have hdelimiters := notMem_tagDelimiters_of_isXmlName hname
  rw [hsource]
  apply markup (Tag.readable_empty_written (ne_empty_of_isXmlName hname) hdelimiters hnames) rfl rfl _ h
  simp [Event.items?, Tag.name_written hdelimiters, Tag.attributes_written hdelimiters hnames,
    Except.toOption]

end Tags

end ReadsAs

end Reader

namespace Writer

/--
Whether the names that an instruction writes are names of XML, and it writes no markup as it is.
-/
def Instruction.IsNamed : Instruction → Prop
  | startTag name a | startInline name a | textElement name a _ =>
    isXmlName name.toList = true ∧ ∀ entry ∈ a.entries, isXmlName entry.1.toList = true
  | endTag name | endInline name => isXmlName name.toList = true
  | text _ => True
  | raw _ => False

theorem readsAs_single {i : Instruction} {rest : List Char} {names : List String} {c : Course}
    (hi : i.IsSingle) (hnamed : i.IsNamed) (h : Reader.ReadsAs rest names c) :
    Reader.ReadsAs (i.markup.toList ++ rest) names (c.append i.items) := by
  cases hi with
  | text content => exact h.text (Denotes.escapeText content) (notMem_escapeText content '<' (by decide))
  | textElement name a content =>
    obtain ⟨hname, hnames⟩ := hnamed
    unfold Instruction.markup Instruction.items
    dsimp only
    split
    . next hempty =>
      obtain rfl := String.isEmpty_iff.mp hempty
      exact h.empty hname hnames
    . have hclose := h.close hname
      have htext := hclose.text (Denotes.escapeText content) (notMem_escapeText content '<' (by decide))
      have hstart := htext.start hname hnames
      simp only [String.toList_append, List.append_assoc] at hstart ⊢
      exact hstart
  | raw markup => exact absurd hnamed id

theorem readsAs_wellBracketed {is : List Instruction} (h : WellBracketed is)
    (hnamed : ∀ i ∈ is, i.IsNamed) {rest : List Char} {names : List String} {c : Course}
    (hrest : Reader.ReadsAs rest names c) :
    Reader.ReadsAs ((is.flatMap fun i => i.markup.toList) ++ rest) names
      (c.append (is.flatMap Instruction.items)) := by
  induction h generalizing rest names c with
  | nil => exact hrest
  | @single i hi =>
    rw [List.flatMap_singleton, List.flatMap_singleton]
    exact readsAs_single hi (hnamed i List.mem_cons_self) hrest
  | @around i j is hpair _ ih =>
    have hi := hnamed i List.mem_cons_self
    have hinside : ∀ k ∈ is, k.IsNamed := fun k hk => hnamed k (by simp [hk])
    rw [List.cons_append, List.flatMap_cons, List.flatMap_cons, List.flatMap_append,
      List.flatMap_append, List.flatMap_singleton, List.flatMap_singleton]
    cases hpair with
    | tags name a | inline name a =>
      obtain ⟨hname, hnames⟩ := hi
      have hclose := hrest.close hname
      have hstart := (ih hinside hclose).start hname hnames
      rw [List.append_assoc, List.append_assoc, Course.append_append, Course.append_append]
      exact hstart
  | @append is js _ _ ih ih' =>
    have hfirst : ∀ i ∈ is, i.IsNamed := fun i hi => hnamed i (List.mem_append_left js hi)
    have hsecond : ∀ i ∈ js, i.IsNamed := fun i hi => hnamed i (List.mem_append_right is hi)
    rw [List.flatMap_append, List.flatMap_append, List.append_assoc, Course.append_append]
    exact ih hfirst (ih' hsecond hrest)

theorem head?_markup {i : Instruction} (hnamed : i.IsNamed) (h : ∀ content, i ≠ .text content) :
    i.markup.toList.head? = some '<' := by
  cases i with
  | startTag | startInline => simp [Instruction.markup, Tag.toList_tagText]
  | endTag | endInline => simp [Instruction.markup]
  | text content => exact absurd rfl (h content)
  | textElement name a content =>
    unfold Instruction.markup
    dsimp only
    split <;> simp [Tag.toList_tagText]
  | raw markup => exact absurd hnamed id

theorem head?_source {is : List Instruction} (hnamed : ∀ i ∈ is, i.IsNamed)
    (hfirst : ∀ content, is.head? ≠ some (.text content)) :
    (is.flatMap fun i => i.markup.toList).head? ≠ some '\ufeff' := by
  cases is with
  | nil => simp
  | cons i is =>
    have hhead := head?_markup (hnamed i List.mem_cons_self) fun content hi =>
      hfirst content (by rw [hi, List.head?_cons])
    rw [List.flatMap_cons, List.head?_append, hhead]
    simp

end Writer

/--
Reading undoes writing. The instructions do not begin with text, of which a byte order mark at its start
would be lost.
-/
theorem Reader.course_written {is : List Writer.Instruction} (hbracketed : Writer.WellBracketed is)
    (hnamed : ∀ i ∈ is, i.IsNamed) (hfirst : ∀ content, is.head? ≠ some (.text content)) :
    (start (Writer.write .raw is).toList).course?
      = some (.ofItems (is.flatMap Writer.Instruction.items)) := by
  have hreads := Writer.readsAs_wellBracketed hbracketed hnamed (ReadsAs.nil [])
  have hwritten : (Writer.write .raw is).toList = is.flatMap fun i => i.markup.toList := by
    rw [Writer.write_raw, String.toList_join, List.flatMap_map]
  rw [List.append_nil, ← hwritten] at hreads
  have hmark := Writer.head?_source hnamed hfirst
  rw [← hwritten] at hmark
  rw [start_of_head? hmark]
  exact hreads _ rfl rfl

-- Two texts in a row are read as one, and the tag of an empty element as a start tag and an end tag.
theorem Reader.course_written_delimiters :
    let a : Attributes := ⟨[("b", "'/>\"&lt;"), ("c", "/")], by decide⟩
    let is : List Writer.Instruction := [.startTag "a" a, .text "]]>&amp;", .text " <b",
      .startInline "d" .empty, .textElement "e" a "", .endInline "d", .endTag "a", .text "'/>"]
    (start (Writer.write .raw is).toList).course?
      = some ⟨[([], .opening "a" a.entries), ("]]>&amp; <b".toList, .opening "d" []),
          ([], .opening "e" a.entries), ([], .closing "e"), ([], .closing "d"), ([], .closing "a")],
        "'/>".toList⟩ := by
  intro a is
  have helement : Writer.WellBracketed
      [.startInline "d" .empty, .textElement "e" a "", .endInline "d"] :=
    .around (.inline "d" .empty) (.single (.textElement "e" a ""))
  have htexts : Writer.WellBracketed [.text "]]>&amp;", .text " <b"] :=
    .append (.single (.text "]]>&amp;")) (.single (.text " <b"))
  have hbracketed : Writer.WellBracketed is :=
    .append (.around (.tags "a" a) (.append htexts helement)) (.single (.text "'/>"))
  have hnamed : ∀ i ∈ is, i.IsNamed := by
    simp only [is, List.forall_mem_cons, List.not_mem_nil, false_implies, implies_true,
      Writer.Instruction.IsNamed]
    decide
  exact course_written hbracketed hnamed (by simp [is])

end KmlTree
