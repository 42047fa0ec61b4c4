import KmlTree.Proofs.Document.Passage
import KmlTree.Proofs.Element.Filling

/-!
This module contains the passages of a builder over what single instructions to the writer write
(`Builder.Follows`).
-/

namespace KmlTree

theorem IsWhite.denotes {s : List Char} (h : IsWhite s) : Denotes s s :=
  .self (h.notMem (by decide))

theorem IsWhite.notMem_bracket {s : List Char} (h : IsWhite s) : '<' ∉ s :=
  h.notMem (by decide)

namespace Builder

/--
Whether a builder goes from one state to another over what a list of instructions writes at a place, and
the writer from this place to another one.
-/
structure Follows (style : Style) (limit : Nat) (c : Writer.Cursor) (is : List Writer.Instruction)
    (b b' : Builder) (c' : Writer.Cursor) : Prop where
  cursor : (Writer.layout c is).2 = c'
  passes : Passes limit (Writer.written style c is) b b'

variable {style : Style} {limit : Nat} {c c' c'' : Writer.Cursor}

namespace Follows

variable {is js : List Writer.Instruction} {b b' b'' : Builder}

theorem nil (c : Writer.Cursor) (b : Builder) : Follows style limit c [] b b c :=
  ⟨rfl, .nil b⟩

theorem append (h : Follows style limit c is b b' c') (h' : Follows style limit c' js b' b'' c'') :
    Follows style limit c (is ++ js) b b'' c'' where
  cursor := by
    rw [Writer.layout_append, h.cursor]
    exact h'.cursor
  passes := by
    rw [Writer.written_append, h.cursor]
    exact h.passes.append h'.passes

end Follows

/--
A builder with one more open element.
-/
def within (b : Builder) (e : Element) (text : List Char) (fresh : Nat) : Builder :=
  { b with stack := ⟨e, String.ofList text⟩ :: b.stack, fresh := fresh }

theorem opened_eq_within (b : Builder) (e : Element) : b.opened e = b.within e [] (b.fresh + 1) := by
  rfl

theorem pushText_within (b : Builder) (e : Element) (t u : List Char) (n : Nat) :
    (b.within e t n).pushText u = b.within e (t ++ u) n := by
  unfold within
  rw [pushText_of_stack u rfl]
  simp [Frame.pushText]

theorem offer_within (b : Builder) (e child : Element) (t : List Char) (n : Nat) :
    (b.within e t n).offer child = b.within (e.add child) t n := by
  unfold within
  rw [offer_of_stack child rfl]
  rfl

theorem close_within_within (b : Builder) (e child : Element) (t u : List Char) (n m : Nat) :
    ((b.within e t n).within child u m).close
      = b.within (e.add (child.setText (String.ofList u))) t m := by
  unfold within
  rw [close_opened rfl]
  rfl

theorem close_within_nil {b : Builder} (h : b.stack = []) (e : Element) (t : List Char) (n : Nat) :
    (b.within e t n).close
      = { b with root := some (e.setText (String.ofList t)), fresh := n } := by
  unfold within close
  simp only [h]

theorem capture_within (b : Builder) (e : Element) (t : List Char) (n : Nat) :
    (b.within e t n).capture = b.capture := by
  rfl

theorem fields_pushText (b : Builder) (u : List Char) :
    (b.pushText u).fresh = b.fresh ∧ (b.pushText u).root = b.root
      ∧ (b.pushText u).stack.length = b.stack.length
      ∧ ((b.pushText u).stack = [] ↔ b.stack = []) := by
  unfold pushText
  split
  . next hstack => simp [hstack]
  . next hstack => simp [hstack]

theorem passes_around {b b' : Builder} {s : List Char} (hstyle : style.IsWhite) (c : Writer.Cursor)
    (hcapture : b.capture = none) (hcapture' : b'.capture = none)
    (h : Passes limit s (b.pushText (c.before style)) b') :
    Passes limit (c.before style ++ s ++ c.after style) b (b'.pushText (c.after style)) := by
  have hbefore := Writer.Cursor.isWhite_before hstyle c
  have hafter := Writer.Cursor.isWhite_after hstyle c
  exact ((passes_text hbefore.denotes hbefore.notMem_bracket hcapture).append h).append
    (passes_text hafter.denotes hafter.notMem_bracket hcapture')

theorem follows_text {b : Builder} (hstyle : style.IsWhite) (c : Writer.Cursor) (text : String)
    (hcapture : b.capture = none) :
    Follows style limit c [.text text] b
      (b.pushText (c.before style ++ text.toList ++ c.after style)) c := by
  refine ⟨rfl, ?_⟩
  have hcapture' : (b.pushText (c.before style)).capture = none := by
    rw [capture_pushText]
    exact hcapture
  have htext : Passes limit (escapeText text).toList (b.pushText (c.before style))
      ((b.pushText (c.before style)).pushText text.toList) :=
    passes_text (Denotes.escapeText text) (notMem_escapeText text '<' (by decide)) hcapture'
  have hpush : ((b.pushText (c.before style)).pushText text.toList).capture = none := by
    rw [capture_pushText]
    exact hcapture'
  have hpasses := passes_around hstyle c hcapture hpush htext
  rw [pushText_pushText, pushText_pushText, ← List.append_assoc] at hpasses
  rw [Writer.written_text]
  exact hpasses

theorem follows_raw {b : Builder} {markup : String} (hstyle : style.IsWhite) (c : Writer.Cursor)
    (h : IsFragment markup.toList) (hcapture : b.capture = none) (hlimit : b.stack.length + 2 ≤ limit)
    (e : Element) (t : List Char) (n : Nat) :
    Follows style limit c [.raw markup] (b.within e t n)
      (b.within (e.keepMarkup markup) (t ++ (c.before style ++ c.after style)) (n + 1)) c := by
  refine ⟨rfl, ?_⟩
  let p : Builder := b.within e (t ++ c.before style) n
  have hroom : p.stack.length + 1 ≤ limit := hlimit
  have hfragment : Passes limit markup.toList p
      ({ p with fresh := n + 1 }.offer (.ofMarkup n markup.toList)) :=
    passes_fragment h hcapture (by simp [p, within]) hroom
  have hoffer : { p with fresh := n + 1 }.offer (.ofMarkup n markup.toList)
      = b.within (e.keepMarkup markup) (t ++ c.before style) (n + 1) := by
    refine (offer_within b e _ (t ++ c.before style) (n + 1)).trans ?_
    unfold Element.ofMarkup
    rw [String.ofList_toList]
    rfl
  have hpush : p = (b.within e t n).pushText (c.before style) := by
    rw [pushText_within]
  rw [hoffer, hpush] at hfragment
  have hcapture' : (b.within (e.keepMarkup markup) (t ++ c.before style) (n + 1)).capture = none :=
    hcapture
  have hcapture'' : (b.within e t n).capture = none := hcapture
  have hpasses := passes_around hstyle c hcapture'' hcapture' hfragment
  rw [pushText_within] at hpasses
  rw [Writer.written_raw, ← List.append_assoc]
  exact hpasses

section Tags

variable {e : Element} {name : String} {b : Builder}

theorem exists_opening (he : e.Regular) (htag : e.kind.tag? = some name) (fresh : Nat) :
    Kind.ofTag? name = some e.kind
      ∧ ∃ e', Element.create? fresh e.kind = some e'
        ∧ e'.openWith e.attributes = ⟨e.head.reopened fresh, e.body.blank, [], []⟩ := by
  have hkind := Kind.ofTag?_of_tag? htag
  obtain ⟨e', hcreate⟩ := Kind.exists_create? fresh hkind
  exact ⟨hkind, e', hcreate, he.openWith_attributes hcreate⟩

theorem passes_startTag (he : e.Regular) (htag : e.kind.tag? = some name)
    (hnames : ∀ entry ∈ e.attributes.entries, isXmlName entry.1.toList = true)
    (hcapture : b.capture = none) (hlimit : b.stack.length + 1 ≤ limit)
    (hroot : b.stack = [] → b.root = none) :
    Passes limit ((Writer.tagText name e.attributes).toList ++ ['>']) b
      (b.within ⟨e.head.reopened b.fresh, e.body.blank, [], []⟩ [] (b.fresh + 1)) := by
  obtain ⟨hkind, e', hcreate, hopen⟩ := exists_opening he htag b.fresh
  have hstart := passes_start hkind hcreate hnames hcapture hlimit hroot
  rw [hopen, opened_eq_within] at hstart
  rw [Tag.toList_tagText]
  exact hstart

theorem passes_emptyTag (he : e.Regular) (htag : e.kind.tag? = some name)
    (hnames : ∀ entry ∈ e.attributes.entries, isXmlName entry.1.toList = true)
    (hcapture : b.capture = none) (hlimit : b.stack.length + 1 ≤ limit)
    (hroot : b.stack = [] → b.root = none) :
    Passes limit ((Writer.tagText name e.attributes).toList ++ ['/', '>']) b
      (b.within ⟨e.head.reopened b.fresh, e.body.blank, [], []⟩ [] (b.fresh + 1)).close := by
  obtain ⟨hkind, e', hcreate, hopen⟩ := exists_opening he htag b.fresh
  have hempty := passes_empty hkind hcreate hnames hcapture hlimit hroot
  rw [hopen, opened_eq_within] at hempty
  rw [Tag.toList_tagText]
  exact hempty

theorem passes_endTag {o : Element} (htag : o.kind.tag? = some name) (hcapture : b.capture = none)
    (t : List Char) (n : Nat) :
    Passes limit ('<' :: '/' :: name.toList ++ ['>']) (b.within o t n) (b.within o t n).close :=
  passes_close (Kind.ofTag?_of_tag? htag) rfl rfl hcapture

theorem capture_close_within {o : Element} (hcapture : b.capture = none) (t : List Char) (n : Nat) :
    (b.within o t n).close.capture = none := by
  rw [capture_close]
  exact hcapture

theorem follows_startTag (hstyle : style.IsWhite) (c : Writer.Cursor) (he : e.Regular)
    (htag : e.kind.tag? = some name)
    (hnames : ∀ entry ∈ e.attributes.entries, isXmlName entry.1.toList = true)
    (hcapture : b.capture = none) (hlimit : b.stack.length + 1 ≤ limit)
    (hroot : b.stack = [] → b.root = none) :
    Follows style limit c [.startTag name e.attributes] b
      ((b.pushText (c.before style)).within ⟨e.head.reopened b.fresh, e.body.blank, [], []⟩
        (c.after style) (b.fresh + 1)) c.down := by
  refine ⟨rfl, ?_⟩
  obtain ⟨hfresh, hroot', hlength, hnil⟩ := b.fields_pushText (c.before style)
  have hcapture' : (b.pushText (c.before style)).capture = none := by
    rw [capture_pushText]
    exact hcapture
  have hstart : Passes limit _ (b.pushText (c.before style)) _ :=
    passes_startTag he htag hnames hcapture' (by rw [hlength]; exact hlimit)
      (by rw [hnil, hroot']; exact hroot)
  have hpasses := passes_around hstyle c hcapture ((capture_within _ _ _ _).trans hcapture') hstart
  rw [pushText_within, List.nil_append, hfresh] at hpasses
  rw [Writer.written_startTag]
  exact hpasses

theorem follows_startInline (hstyle : style.IsWhite) (c : Writer.Cursor) (he : e.Regular)
    (htag : e.kind.tag? = some name)
    (hnames : ∀ entry ∈ e.attributes.entries, isXmlName entry.1.toList = true)
    (hcapture : b.capture = none) (hlimit : b.stack.length + 1 ≤ limit)
    (hroot : b.stack = [] → b.root = none) :
    Follows style limit c [.startInline name e.attributes] b
      ((b.pushText (c.before style)).within ⟨e.head.reopened b.fresh, e.body.blank, [], []⟩ []
        (b.fresh + 1)) c.inline := by
  refine ⟨rfl, ?_⟩
  obtain ⟨hfresh, hroot', hlength, hnil⟩ := b.fields_pushText (c.before style)
  have hcapture' : (b.pushText (c.before style)).capture = none := by
    rw [capture_pushText]
    exact hcapture
  have hbefore := Writer.Cursor.isWhite_before hstyle c
  have hstart : Passes limit _ (b.pushText (c.before style)) _ :=
    passes_startTag he htag hnames hcapture' (by rw [hlength]; exact hlimit)
      (by rw [hnil, hroot']; exact hroot)
  rw [hfresh] at hstart
  rw [Writer.written_startInline]
  exact (passes_text hbefore.denotes hbefore.notMem_bracket hcapture).append hstart

theorem follows_endTag {o : Element} (hstyle : style.IsWhite) (c : Writer.Cursor)
    (htag : o.kind.tag? = some name) (hcapture : b.capture = none) (t : List Char) (n : Nat) :
    Follows style limit c.down [.endTag name] (b.within o t n)
      ((b.within o (t ++ c.before style) n).close.pushText (c.after style)) c := by
  refine ⟨rfl, ?_⟩
  have hend : Passes limit ('<' :: '/' :: name.toList ++ ['>'])
      ((b.within o t n).pushText (c.before style)) (b.within o (t ++ c.before style) n).close := by
    rw [pushText_within]
    exact passes_endTag htag hcapture _ n
  rw [Writer.written_endTag]
  exact passes_around hstyle c ((capture_within _ _ _ _).trans hcapture)
    (capture_close_within hcapture _ _) hend

theorem follows_endInline {o : Element} (hstyle : style.IsWhite) (c : Writer.Cursor)
    (htag : o.kind.tag? = some name) (hcapture : b.capture = none) (t : List Char) (n : Nat) :
    Follows style limit c.inline [.endInline name] (b.within o t n)
      ((b.within o t n).close.pushText (c.after style)) c := by
  refine ⟨rfl, ?_⟩
  have hafter := Writer.Cursor.isWhite_after hstyle c
  rw [Writer.written_endInline]
  exact (passes_endTag htag hcapture t n).append
    (passes_text hafter.denotes hafter.notMem_bracket (capture_close_within hcapture _ _))

theorem follows_textElement (hstyle : style.IsWhite) (c : Writer.Cursor) (he : e.Regular)
    (htag : e.kind.tag? = some name) (text : String)
    (hnames : ∀ entry ∈ e.attributes.entries, isXmlName entry.1.toList = true)
    (hcapture : b.capture = none) (hlimit : b.stack.length + 1 ≤ limit)
    (hroot : b.stack = [] → b.root = none) :
    Follows style limit c [.textElement name e.attributes text] b
      (((b.pushText (c.before style)).within ⟨e.head.reopened b.fresh, e.body.blank, [], []⟩
        text.toList (b.fresh + 1)).close.pushText (c.after style)) c := by
  constructor
  . unfold Writer.layout Writer.Cursor.step
    dsimp only
    split <;> rfl
  obtain ⟨hfresh, hroot', hlength, hnil⟩ := b.fields_pushText (c.before style)
  have hcapture' : (b.pushText (c.before style)).capture = none := by
    rw [capture_pushText]
    exact hcapture
  have hlimit' : (b.pushText (c.before style)).stack.length + 1 ≤ limit := by
    rw [hlength]
    exact hlimit
  have hroot'' : (b.pushText (c.before style)).stack = [] → (b.pushText (c.before style)).root = none := by
    rw [hnil, hroot']
    exact hroot
  rw [Writer.written_textElement]
  apply passes_around hstyle c hcapture (capture_close_within hcapture' _ _)
  rw [← hfresh]
  by_cases htext : text = ""
  . rw [if_pos htext, htext]
    exact passes_emptyTag he htag hnames hcapture' hlimit' hroot''
  . rw [if_neg htext]
    have hkind : Element.kind ⟨e.head.reopened (b.pushText (c.before style)).fresh, e.body.blank, [], []⟩
        = e.kind := by
      unfold Element.kind
      cases e.body <;> rfl
    have hstart : Passes limit _ (b.pushText (c.before style)) _ :=
      passes_startTag he htag hnames hcapture' hlimit' hroot''
    let q : Builder := (b.pushText (c.before style)).within
      ⟨e.head.reopened (b.pushText (c.before style)).fresh, e.body.blank, [], []⟩ []
      ((b.pushText (c.before style)).fresh + 1)
    have hinner : Passes limit (escapeText text).toList q (q.pushText text.toList) :=
      passes_text (Denotes.escapeText text) (notMem_escapeText text '<' (by decide)) hcapture'
    rw [pushText_within] at hinner
    have htag' : Kind.tag? (Element.kind
        ⟨e.head.reopened (b.pushText (c.before style)).fresh, e.body.blank, [], []⟩) = some name := by
      rw [hkind]
      exact htag
    exact (hstart.append hinner).append (passes_endTag htag' hcapture' _ _)

end Tags

end Builder

end KmlTree
