import KmlTree.Markup.Writer
import KmlTree.Proofs.Markup.AttributeList
import KmlTree.Proofs.Markup.Forest
import KmlTree.Proofs.Markup.Name
import KmlTree.Proofs.Markup.Tag
import KmlTree.Proofs.Text.Escape

/-!
This module contains what the reader makes of the tags that the writer writes: the name and the
attributes that were written come back (`Tag.attributes_written`), and the tags are tokens wherever they
stand (`Tag.readable_start_written`, `Tag.readable_empty_written`, `readable_close`).
-/

namespace KmlTree

/--
Whether the scan of a tag goes from one state to another over a text.
-/
def TagScan (q : Option Char) (s : List Char) (q' : Option Char) : Prop :=
  ∀ rest, splitScan? tagStep q (s ++ rest)
    = (splitScan? tagStep q' rest).map fun (before, after) => (s ++ before, after)

namespace TagScan

variable {q q' q'' : Option Char} {s t : List Char}

theorem nil (q : Option Char) : TagScan q [] q := by
  intro rest
  simp

theorem append (hs : TagScan q s q') (ht : TagScan q' t q'') : TagScan q (s ++ t) q'' := by
  intro rest
  rw [List.append_assoc, hs (t ++ rest), ht rest, Option.map_map]
  apply Option.map_congr
  intro parts _
  simp

theorem character {c : Char} (h : tagStep q c = some q') : TagScan q [c] q' := by
  intro rest
  simp [splitScan?, h]

theorem all (h : ∀ c ∈ s, tagStep q c = some q) : TagScan q s q := by
  induction s with
  | nil => exact nil q
  | cons c s ih =>
    have hc := character (h c List.mem_cons_self)
    have hs := ih fun d hd => h d (List.mem_cons_of_mem c hd)
    exact hc.append hs

theorem splitScan?_eq (h : TagScan q s none) (rest : List Char) :
    splitScan? tagStep q (s ++ '>' :: rest) = some (s, rest) := by
  rw [h ('>' :: rest)]
  simp [splitScan?, tagStep]

end TagScan

/--
Whether the content of a tag is scanned to its end and begins like that of a start tag.
-/
structure Tag.Scannable (content : List Char) : Prop where
  scan : TagScan none content none
  head : ∃ c cs, content = c :: cs ∧ c ≠ '!' ∧ c ≠ '/' ∧ c ≠ '?'

namespace Tag

theorem readMarkup_scannable {content : List Char} (h : Scannable content) {q : Reader}
    {rest : List Char} (hq : q.rest = content ++ '>' :: rest) :
    q.readMarkup
      = if content.getLast? = some '/' then
          .event (.empty ⟨content.dropLast⟩) (q.advance content 1 rest)
        else
          .event (.start ⟨content⟩)
            { q.advance content 1 rest with openNames := Tag.name ⟨content⟩ :: q.openNames } := by
  obtain ⟨c, cs, hcontent, hbang, hslash, hmark⟩ := h.head
  have hq' : q.rest = c :: (cs ++ '>' :: rest) := by
    rw [hq, hcontent]
    rfl
  rw [Reader.readMarkup_eq_readTag hq' hbang hslash hmark]
  unfold Reader.readTag
  rw [hq, h.scan.splitScan?_eq]

theorem ne_slash_of_scannable {content : List Char} (h : Scannable content) (s t : List Char) :
    '<' :: content ++ t ≠ '<' :: '/' :: s := by
  obtain ⟨c, cs, rfl, _, hslash, _⟩ := h.head
  simp [hslash]

theorem readable_start {t : Tag} (h : Scannable t.content) (hlast : t.content.getLast? ≠ some '/') :
    Token.Readable ⟨.start t, t.source⟩ where
  nonempty := by simp [source]
  text := by simp
  markup := by
    intro _
    exact ⟨_, rfl⟩
  start := by
    intro tag htag
    simp only [Event.start.injEq] at htag
    rw [← htag]
    rfl
  empty := by simp
  close := by simp
  noSlash := by
    intro tag rest _
    exact ne_slash_of_scannable h rest ['>']
  next := by
    intro r rest names hr _ hnames
    simp only [Event.openNames?, Option.some.injEq] at hnames
    have hr' : r.rest = '<' :: (t.content ++ '>' :: rest) := by
      simpa [source] using hr
    rw [Reader.next_markup hr']
    rw [readMarkup_scannable h rfl, if_neg hlast]
    simp [Reader.advance, Reader.behind, Event.isText, source, utf8Size_bracket,
      utf8Size_closingBracket, hnames]
    omega

theorem readable_empty {t : Tag} (h : Scannable (t.content ++ ['/'])) :
    Token.Readable ⟨.empty t, t.emptySource⟩ where
  nonempty := by simp [emptySource]
  text := by simp
  markup := by
    intro _
    exact ⟨_, rfl⟩
  start := by simp
  empty := by
    intro tag htag
    simp only [Event.empty.injEq] at htag
    rw [← htag]
    rfl
  close := by simp
  noSlash := by
    intro tag rest _
    have hne := ne_slash_of_scannable h rest ['>']
    simpa [emptySource] using hne
  next := by
    intro r rest names hr _ hnames
    simp only [Event.openNames?, Option.some.injEq] at hnames
    have hr' : r.rest = '<' :: ((t.content ++ ['/']) ++ '>' :: rest) := by
      simpa [emptySource] using hr
    have hslash : '/'.utf8Size = 1 := by
      decide
    rw [Reader.next_markup hr']
    rw [readMarkup_scannable h rfl, if_pos (by simp)]
    simp [Reader.advance, Reader.behind, Event.isText, emptySource, utf8Size_bracket,
      utf8Size_closingBracket, hslash, ← hnames, Nat.add_assoc]

end Tag

def closingTag (name : String) : List Char := '<' :: '/' :: name.toList ++ ['>']

theorem closingName_eq {s : List Char} (h : ∀ c ∈ s, isBlank c = false) :
    Reader.closingName s = s := by
  have hdrop : s.reverse.dropWhile isBlank = s.reverse := by
    cases hreverse : s.reverse with
    | nil => rfl
    | cons c cs =>
      have hc : c ∈ s := by
        rw [← List.mem_reverse, hreverse]
        exact List.mem_cons_self
      rw [List.dropWhile_cons_of_neg (by simp [h c hc])]
  unfold Reader.closingName
  rw [hdrop, List.reverse_reverse]
  dsimp only
  split <;> rfl

theorem readable_close {name : String} (hname : ∀ c ∈ name.toList, c ∉ tagDelimiters) :
    Token.Readable ⟨.close name, closingTag name⟩ where
  nonempty := by simp [closingTag]
  text := by simp
  markup := by
    intro _
    exact ⟨_, rfl⟩
  start := by simp
  empty := by simp
  close := by
    intro name' _
    exact ⟨_, rfl⟩
  noSlash := by simp
  next := by
    intro r rest names hr _ hnames
    have hbracket : '>' ∉ '/' :: name.toList := by
      intro hmem
      cases List.mem_cons.mp hmem with
      | inl heq => cases heq
      | inr hmem => exact hname '>' hmem (by decide)
    have hclosing : Reader.closingName name.toList = name.toList := by
      apply closingName_eq
      intro c hc
      exact isBlank_eq_false (hname c hc)
    have hr' : r.rest = '<' :: (('/' :: name.toList) ++ '>' :: rest) := by
      simpa [closingTag] using hr
    have hslash : '/'.utf8Size = 1 := by
      decide
    let inside : Reader :=
      { r with rest := ('/' :: name.toList) ++ '>' :: rest, consumed := r.consumed + 1 }
    have hclose : inside.readMarkup = inside.readClose := rfl
    rw [Reader.next_markup hr']
    rw [hclose]
    rw [Reader.readClose_eq (q := inside) hbracket rfl (Event.openNames?_close.mp hnames)
      (by rw [List.drop_succ_cons, List.drop_zero, hclosing, String.ofList_toList])]
    simp [inside, Reader.behind, Event.isText, closingTag, utf8Size_bracket,
      utf8Size_closingBracket, hslash]
    omega

namespace Tag

def writtenAttributes (entries : List (String × String)) : List Char :=
  entries.flatMap fun entry =>
    ' ' :: (entry.1.toList ++ '=' :: '\x22' :: ((escapeAttribute entry.2).toList ++ ['\x22']))

def written (name : String) (a : Attributes) : Tag :=
  ⟨name.toList ++ writtenAttributes a.entries⟩

theorem toList_tagText (name : String) (a : Attributes) :
    (Writer.tagText name a).toList = '<' :: (written name a).content := by
  have hentry (entry : String × String) :
      (" " ++ entry.1 ++ "=\"" ++ escapeAttribute entry.2 ++ "\"").toList
        = ' ' :: (entry.1.toList ++ '=' :: '\x22' :: ((escapeAttribute entry.2).toList ++ ['\x22'])) := by
    simp
  unfold Writer.tagText Writer.attributesText written writtenAttributes
  simp only [String.toList_append, String.toList_join, List.flatMap_map, hentry]
  rfl

theorem exists_cons_of_isXmlName {s : List Char} (h : isXmlName s = true) :
    ∃ first tail, s = first :: tail ∧ isBlank first = false
      ∧ ∀ c ∈ tail, isNameCharacter c = true := by
  have hdelimiters := notMem_tagDelimiters_of_isXmlName h
  obtain ⟨first, tail, rfl⟩ := List.exists_cons_of_ne_nil (ne_nil_of_isXmlName h)
  refine ⟨first, tail, rfl, ?_, ?_⟩
  . exact isBlank_eq_false (hdelimiters first List.mem_cons_self)
  . intro c hc
    have hdelimiter := hdelimiters c (List.mem_cons_of_mem first hc)
    unfold isNameCharacter
    rw [isBlank_eq_false hdelimiter]
    simp only [Bool.not_false, Bool.and_true, bne_iff_ne, ne_eq]
    rintro rfl
    exact hdelimiter (by decide)

theorem spells_written {entries : List (String × String)}
    (hnames : ∀ entry ∈ entries, isXmlName entry.1.toList = true) :
    Spells (writtenAttributes entries)
      (entries.map fun entry => (entry.1, (escapeAttribute entry.2).toList)) := by
  induction entries with
  | nil => exact .nil (by simp [IsBlankText, writtenAttributes])
  | cons entry entries ih =>
    obtain ⟨name, value⟩ := entry
    obtain ⟨first, tail, hfirst, hblank, htail⟩ :=
      exists_cons_of_isXmlName (hnames (name, value) List.mem_cons_self)
    dsimp only at hfirst
    have hspace : IsBlankText [' '] := by
      simp [IsBlankText, isBlank]
    have hvalue : SpellsValue
        ('=' :: '\x22' :: ((escapeAttribute value).toList ++ '\x22' :: writtenAttributes entries))
        (escapeAttribute value).toList (writtenAttributes entries) :=
      ⟨[], [], '\x22', rfl, by simp [IsBlankText], by simp [IsBlankText], Or.inl rfl,
        notMem_escapeAttribute value '\x22' (by decide)⟩
    have hspells := Spells.cons hspace hblank htail hvalue
      (ih fun entry hentry => hnames entry (List.mem_cons_of_mem _ hentry))
    rw [← hfirst, String.ofList_toList] at hspells
    have hwritten : writtenAttributes ((name, value) :: entries) = [' '] ++ first :: (tail
        ++ '=' :: '\x22' :: ((escapeAttribute value).toList ++ '\x22' :: writtenAttributes entries)) := by
      simp [writtenAttributes, hfirst]
    rw [hwritten]
    exact hspells

theorem resolves_written (entries : List (String × String)) :
    Resolves (entries.map fun entry => (entry.1, (escapeAttribute entry.2).toList)) entries := by
  induction entries with
  | nil => exact .nil
  | cons entry entries ih => exact .cons ⟨rfl, (Denotes.escapeAttribute entry.2).unescape⟩ ih

theorem readAttributes_written {entries : List (String × String)} (offset : Nat)
    (hnames : ∀ entry ∈ entries, isXmlName entry.1.toList = true)
    (hnodup : (entries.map Prod.fst).Nodup) :
    readAttributes [] ⟨offset, writtenAttributes entries⟩ = .ok entries := by
  have hresolves := resolves_written entries
  apply readAttributes_of_spells (spells_written hnames) rfl hresolves
  . rw [hresolves.names]
    exact hnodup
  . intro name _
    rfl

variable {name : String} {a : Attributes}

theorem takeWhile_written (hname : ∀ c ∈ name.toList, c ∉ tagDelimiters) :
    (written name a).content.takeWhile (fun c => !isBlank c) = name.toList
      ∧ (written name a).content.dropWhile (fun c => !isBlank c) = writtenAttributes a.entries := by
  have hall : ∀ c ∈ name.toList, (!isBlank c) = true := by
    intro c hc
    rw [isBlank_eq_false (hname c hc)]
    rfl
  unfold written
  dsimp only
  rw [List.takeWhile_append_of_pos hall, List.dropWhile_append_of_pos hall]
  cases a.entries with
  | nil => simp [writtenAttributes]
  | cons entry entries =>
    have hspace : isBlank ' ' = true := by
      decide
    simp [writtenAttributes, hspace]

theorem name_written (hname : ∀ c ∈ name.toList, c ∉ tagDelimiters) : (written name a).name = name := by
  unfold Tag.name
  rw [(takeWhile_written hname).1, String.ofList_toList]

theorem attributes_written (hname : ∀ c ∈ name.toList, c ∉ tagDelimiters)
    (hnames : ∀ entry ∈ a.entries, isXmlName entry.1.toList = true) :
    (written name a).attributes = .ok a := by
  unfold attributes Cursor.skip
  dsimp only
  rw [(takeWhile_written hname).2]
  rw [readAttributes_written _ hnames a.nodup]
  dsimp only [bind, Except.bind, pure, Except.pure]
  rw [Attributes.ofList_entries]

theorem scan_writtenAttributes {entries : List (String × String)}
    (hnames : ∀ entry ∈ entries, isXmlName entry.1.toList = true) :
    TagScan none (writtenAttributes entries) none := by
  induction entries with
  | nil => exact .nil none
  | cons entry entries ih =>
    have hname : TagScan none entry.1.toList none := by
      apply TagScan.all
      intro c hc
      apply tagStep_eq_self
      exact notMem_tagDelimiters_of_isXmlName (hnames entry List.mem_cons_self) c hc
    have hvalue : TagScan (some '\x22') (escapeAttribute entry.2).toList (some '\x22') := by
      apply TagScan.all
      intro c hc
      have hne : c ≠ '\x22' := by
        rintro rfl
        exact notMem_escapeAttribute entry.2 '\x22' (by decide) hc
      simp [tagStep, hne]
    have hspace : TagScan none [' '] none := .character rfl
    have hequals : TagScan none ['='] none := .character rfl
    have hopening : TagScan none ['\x22'] (some '\x22') := .character rfl
    have hclosing : TagScan (some '\x22') ['\x22'] none := .character rfl
    have hentry := hspace.append (hname.append (hequals.append
      (hopening.append (hvalue.append hclosing))))
    have hentries := ih fun entry' h => hnames entry' (List.mem_cons_of_mem entry h)
    have hall := hentry.append hentries
    simpa [writtenAttributes] using hall

theorem scan_written (hname : ∀ c ∈ name.toList, c ∉ tagDelimiters)
    (hnames : ∀ entry ∈ a.entries, isXmlName entry.1.toList = true) :
    TagScan none (written name a).content none := by
  apply TagScan.append
  . apply TagScan.all
    intro c hc
    exact tagStep_eq_self (hname c hc)
  . exact scan_writtenAttributes hnames

theorem scannable_written (t : List Char) (ht : TagScan none t none) (hne : name ≠ "")
    (hname : ∀ c ∈ name.toList, c ∉ tagDelimiters)
    (hnames : ∀ entry ∈ a.entries, isXmlName entry.1.toList = true) :
    Scannable ((written name a).content ++ t) where
  scan := (scan_written hname hnames).append ht
  head := by
    have hnil : name.toList ≠ [] := by
      simpa using hne
    obtain ⟨first, tail, hfirst⟩ := List.exists_cons_of_ne_nil hnil
    have hdelimiter := hname first (by rw [hfirst]; exact List.mem_cons_self)
    refine ⟨first, tail ++ writtenAttributes a.entries ++ t, ?_, ?_⟩
    . unfold written
      rw [hfirst]
      simp
    . unfold tagDelimiters at hdelimiter
      simp only [List.mem_cons, not_or] at hdelimiter
      tauto

theorem getLast?_written (hname : ∀ c ∈ name.toList, c ∉ tagDelimiters) :
    (written name a).content.getLast? ≠ some '/' := by
  unfold written
  dsimp only
  cases hentries : a.entries.reverse with
  | nil =>
    rw [List.reverse_eq_nil_iff] at hentries
    rw [hentries]
    intro hlast
    have hmem := List.mem_of_getLast? hlast
    simp only [writtenAttributes, List.flatMap_nil, List.append_nil] at hmem
    exact hname '/' hmem (by decide)
  | cons entry entries =>
    rw [List.reverse_eq_cons_iff] at hentries
    have hquote : ' ' :: (entry.1.toList ++ '=' :: '\x22' :: ((escapeAttribute entry.2).toList ++ ['\x22']))
        = (' ' :: entry.1.toList ++ '=' :: '\x22' :: (escapeAttribute entry.2).toList) ++ ['\x22'] := by
      simp
    rw [hentries]
    unfold writtenAttributes
    rw [List.flatMap_append, List.flatMap_singleton, hquote, ← List.append_assoc, ← List.append_assoc]
    rw [List.getLast?_concat]
    decide

theorem readable_start_written (hne : name ≠ "") (hname : ∀ c ∈ name.toList, c ∉ tagDelimiters)
    (hnames : ∀ entry ∈ a.entries, isXmlName entry.1.toList = true) :
    Token.Readable ⟨.start (written name a), (written name a).source⟩ := by
  have hscannable := scannable_written [] (.nil none) hne hname hnames
  rw [List.append_nil] at hscannable
  exact readable_start hscannable (getLast?_written hname)

theorem readable_empty_written (hne : name ≠ "") (hname : ∀ c ∈ name.toList, c ∉ tagDelimiters)
    (hnames : ∀ entry ∈ a.entries, isXmlName entry.1.toList = true) :
    Token.Readable ⟨.empty (written name a), (written name a).emptySource⟩ :=
  readable_empty (scannable_written ['/'] (.character rfl) hne hname hnames)

end Tag

end KmlTree
