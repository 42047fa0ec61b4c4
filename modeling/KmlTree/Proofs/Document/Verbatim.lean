import KmlTree.Proofs.Document.Excerpt
import Mathlib.Data.List.Chain

/-!
This module contains the answer to which of the elements that are not of the catalog are kept verbatim.
The markup of such an element is looked for backwards from the end of its start tag, up to an opening
angle bracket and by counted bytes. That finds the element unless its start tag has a second bracket or
the text begins with a byte order mark, which is not counted.
-/

namespace KmlTree

section Period

variable {z s y : List Char}

theorem mem_of_append_eq (hz : z ≠ []) (h : z ++ s = s ++ y) : ∀ c ∈ s, c ∈ z := by
  induction hlength : s.length using Nat.strong_induction_on generalizing s with
  | _ n ih =>
    cases List.append_eq_append_iff.mp h with
    | inl hlong =>
      obtain ⟨t, hs, hs'⟩ := hlong
      have hshort : t.length < n := by
        have := List.length_pos_of_ne_nil hz
        rw [← hlength, hs, List.length_append]
        omega
      intro c hc
      rw [hs, List.mem_append] at hc
      cases hc with
      | inl hc => exact hc
      | inr hc => exact ih t.length hshort (hs.symm.trans hs') rfl c hc
    | inr hshort =>
      obtain ⟨t, hz, _⟩ := hshort
      intro c hc
      rw [hz]
      exact List.mem_append_left t hc

theorem isChain_of_append_eq {a b c : Char} (h : [a, b, c] ++ s = s ++ y) :
    s.IsChain fun u v => (u, v) ∈ [(a, b), (b, c), (c, a)] := by
  induction hlength : s.length using Nat.strong_induction_on generalizing s with
  | _ n ih =>
    cases List.append_eq_append_iff.mp h with
    | inl hlong =>
      obtain ⟨t, hs, hs'⟩ := hlong
      have hshort : t.length < n := by
        rw [← hlength, hs, List.length_append]
        simp
      have hsame : [a, b, c] ++ t = t ++ y := hs.symm.trans hs'
      have hchain := ih t.length hshort hsame rfl
      rw [hs]
      cases t with
      | nil => simp
      | cons d t =>
        simp only [List.cons_append, List.cons.injEq] at hsame
        simpa [← hsame.1] using hchain
    | inr hshort =>
      obtain ⟨t, hz, _⟩ := hshort
      match s, hz with
      | [], _ => exact .nil
      | [_], _ => exact .singleton _
      | [_, _], hz =>
        simp only [List.cons_append, List.nil_append, List.cons.injEq] at hz
        simp [← hz.1, ← hz.2.1]
      | [_, _, _], hz =>
        simp only [List.cons_append, List.nil_append, List.cons.injEq] at hz
        simp [← hz.1, ← hz.2.1, ← hz.2.2.1]
      | _ :: _ :: _ :: _ :: _, hz => simp at hz

theorem eq_of_byteLength_eq_three (h : byteLength z = 3) (hopening : '<' ∈ z) (hslash : '/' ∈ z)
    (hclosing : '>' ∈ z) (hhead : z.head? = some '<') : z = ['<', '/', '>'] ∨ z = ['<', '>', '/'] := by
  match z with
  | [] => simp at hopening
  | [_] => simp_all
  | [a, b] =>
    simp only [List.head?_cons, Option.some.injEq] at hhead
    subst hhead
    simp_all
    grind
  | [a, b, c] =>
    simp only [List.head?_cons, Option.some.injEq] at hhead
    subst hhead
    simp_all
    grind
  | a :: b :: c :: d :: rest =>
    have := a.utf8Size_pos
    have := b.utf8Size_pos
    have := c.utf8Size_pos
    have := d.utf8Size_pos
    simp only [byteLength_cons] at h
    omega

end Period

theorem exists_last_of_mem {c : Char} {s : List Char} (h : c ∈ s) :
    ∃ before after, s = before ++ c :: after ∧ c ∉ after := by
  obtain ⟨after, before, hreverse, hnot⟩ := List.eq_append_cons_of_mem (List.mem_reverse.mpr h)
  refine ⟨before.reverse, after.reverse, ?_, ?_⟩
  . rw [← List.reverse_reverse s, hreverse]
    simp
  . rw [List.mem_reverse]
    exact hnot

namespace Branch

def openingEnd (b : Branch) : List Char := if b.isEmpty then ['/', '>'] else ['>']

theorem opening_eq (b : Branch) : b.opening = '<' :: (b.tag.content ++ b.openingEnd) := by
  unfold opening openingEnd
  split <;> rfl

theorem notMem_openingEnd (b : Branch) : '<' ∉ b.openingEnd := by
  unfold openingEnd
  split <;> decide

theorem source_eq (b : Branch) :
    b.source = '<' :: (b.tag.content ++ b.openingEnd) ++ (b.children.source ++ b.closing) := by
  unfold source
  rw [opening_eq, List.append_assoc]

end Branch

/--
Where every byte is counted, an element is captured from the last opening bracket of its start tag on.
-/
theorem excerpt?_eq {b : Branch} {front back : List Char} (before rest : List Char)
    (hopening : b.opening = front ++ '<' :: back) (hback : '<' ∉ back) :
    excerpt? (before ++ (b.source ++ rest)) (byteLength before + byteLength b.opening)
        (byteLength before + byteLength b.source)
      = some ('<' :: back ++ (b.children.source ++ b.closing)) := by
  have hstart := Builder.lastBracket?_append (before ++ front) back
    (b.children.source ++ b.closing ++ rest) hback
  have hslice := sliceBytes?_append (before ++ front)
    ('<' :: back ++ (b.children.source ++ b.closing)) rest
  have hinside : byteLength before + byteLength b.opening
      = byteLength (before ++ front ++ '<' :: back) := by
    rw [← byteLength_append, hopening, List.append_assoc]
  have hstop : byteLength before + byteLength b.source
      = byteLength (before ++ front ++ ('<' :: back ++ (b.children.source ++ b.closing))) := by
    rw [← byteLength_append]
    unfold Branch.source
    rw [hopening]
    simp only [List.append_assoc]
  have htext : before ++ (b.source ++ rest)
      = before ++ front ++ '<' :: back ++ (b.children.source ++ b.closing ++ rest) := by
    unfold Branch.source
    rw [hopening]
    simp only [List.append_assoc]
  unfold excerpt?
  rw [hinside, hstop, htext, hstart]
  simp only [Option.bind_eq_bind, Option.bind_some]
  rw [← hslice]
  simp only [List.append_assoc, List.cons_append]

/--
Where every byte is counted, an element is captured verbatim if and only if its start tag has only the
bracket that it begins with.
-/
theorem excerpt?_verbatim_iff {b : Branch} {before rest markup : List Char}
    (h : excerpt? (before ++ (b.source ++ rest)) (byteLength before + byteLength b.opening)
      (byteLength before + byteLength b.source) = some markup) :
    markup = b.source ↔ '<' ∉ b.tag.content := by
  by_cases hmem : '<' ∈ b.tag.content
  . obtain ⟨front, back, hcontent, hback⟩ := exists_last_of_mem hmem
    have hopening : b.opening = '<' :: front ++ '<' :: (back ++ b.openingEnd) := by
      rw [b.opening_eq, hcontent]
      simp
    rw [excerpt?_eq before rest hopening (by simp [hback, b.notMem_openingEnd]), Option.some.injEq] at h
    simp only [hmem, not_true_eq_false, iff_false]
    -- What comes before the last bracket is lost.
    intro heq
    rw [← h] at heq
    have hlength := congrArg List.length heq
    unfold Branch.source at hlength
    rw [hopening] at hlength
    simp at hlength
    omega
  . have hback : '<' ∉ b.tag.content ++ b.openingEnd := by
      simp [hmem, b.notMem_openingEnd]
    rw [@excerpt?_eq b [] _ before rest b.opening_eq hback, Option.some.injEq, ← b.source_eq] at h
    simp [hmem, h]

/--
A text that is a slice of itself behind a mark, three bytes early, is the same when it is moved by some
characters of three bytes.
-/
theorem exists_period {before source rest : List Char} {inside : Nat}
    (h : excerpt? ('\ufeff' :: before ++ (source ++ rest)) inside (byteLength before + byteLength source)
      = some source) : ∃ z y, byteLength z = 3 ∧ z ++ source = source ++ y := by
  obtain ⟨start, _, hslice⟩ := Option.bind_eq_some_iff.mp h
  obtain ⟨a, c, htext, _, hstop⟩ := eq_append_of_sliceBytes? hslice
  have ha : byteLength a = byteLength before := by
    rw [byteLength_append] at hstop
    omega
  have hmark : byteLength ('\ufeff' :: before) = 3 + byteLength before := by
    rfl
  rw [List.append_assoc] at htext
  -- `z` is what the slice takes too much at its start
  have hz : ∃ z, '\ufeff' :: before = a ++ z ∧ source ++ c = z ++ (source ++ rest) := by
    cases List.append_eq_append_iff.mp htext with
    | inl hlong =>
      obtain ⟨a', ha', _⟩ := hlong
      rw [ha', byteLength_append] at ha
      omega
    | inr hshort => exact hshort
  obtain ⟨z, hfront, hback⟩ := hz
  have hbytes : byteLength z = 3 := by
    rw [hfront, byteLength_append] at hmark
    omega
  -- so that the slice ends inside of the element and the element begins with `z`
  have hlength : 0 < z.length := by
    apply List.length_pos_of_ne_nil
    intro hnil
    rw [hnil] at hbytes
    cases hbytes
  rw [← List.append_assoc] at hback
  cases List.append_eq_append_iff.mp hback with
  | inl hlong =>
    obtain ⟨y, hy, _⟩ := hlong
    exact ⟨z, y, hbytes, hy⟩
  | inr hshort =>
    obtain ⟨y, hy, _⟩ := hshort
    have hlengths := congrArg List.length hy
    simp only [List.length_append] at hlengths
    omega

namespace Branch

variable {b : Branch}

theorem head?_of_period {z y : List Char} (hne : z ≠ []) (h : z ++ b.source = b.source ++ y) :
    z.head? = some '<' := by
  have hhead := congrArg List.head? h
  rw [List.head?_append_of_ne_nil z hne, b.source_eq] at hhead
  exact hhead

theorem mem_source (hclosing : b.isEmpty = false → ∃ tail, b.closing = '<' :: '/' :: tail) :
    '<' ∈ b.source ∧ '/' ∈ b.source ∧ '>' ∈ b.source := by
  rw [b.source_eq]
  unfold openingEnd
  cases hisEmpty : b.isEmpty with
  | true => simp
  | false =>
    obtain ⟨tail, htail⟩ := hclosing hisEmpty
    simp [htail]

theorem ne_period_slash (hopening : ∀ tail, b.opening ≠ '<' :: '/' :: tail) (y : List Char) :
    ['<', '/', '>'] ++ b.source ≠ b.source ++ y := by
  intro hperiod
  have hchain := isChain_of_append_eq hperiod
  have hne : b.tag.content ++ b.openingEnd ≠ [] := by
    unfold openingEnd
    split <;> simp
  obtain ⟨second, tail, hsecond⟩ := List.exists_cons_of_ne_nil hne
  rw [b.source_eq, hsecond, List.cons_append, List.cons_append, List.isChain_cons_cons] at hchain
  have hnext := hchain.1
  simp at hnext
  apply hopening tail
  rw [b.opening_eq, hsecond, hnext]

/--
The slash of an empty element or of an end tag would come before an opening bracket.
-/
theorem ne_period_bracket (hclosing : b.isEmpty = false → ∃ tail, b.closing = '<' :: '/' :: tail)
    (hempty : b.isEmpty = true → b.source = b.opening) (y : List Char) :
    ['<', '>', '/'] ++ b.source ≠ b.source ++ y := by
  intro hperiod
  have hchain := isChain_of_append_eq hperiod
  cases hisEmpty : b.isEmpty with
  | true =>
    rw [hempty hisEmpty, b.opening_eq] at hchain
    unfold openingEnd at hchain
    rw [if_pos hisEmpty, ← List.cons_append, List.isChain_append_cons_cons] at hchain
    simp at hchain
  | false =>
    obtain ⟨tail, htail⟩ := hclosing hisEmpty
    unfold source at hchain
    rw [htail, List.isChain_append_cons_cons] at hchain
    simp at hchain

end Branch

/--
Where a mark of three bytes is not counted, no element is captured verbatim.
-/
theorem excerpt?_ne_of_mark {b : Branch} {before rest markup : List Char}
    (hopening : ∀ tail, b.opening ≠ '<' :: '/' :: tail)
    (hclosing : b.isEmpty = false → ∃ tail, b.closing = '<' :: '/' :: tail)
    (hempty : b.isEmpty = true → b.source = b.opening)
    (h : excerpt? ('\ufeff' :: before ++ (b.source ++ rest)) (byteLength before + byteLength b.opening)
      (byteLength before + byteLength b.source) = some markup) : markup ≠ b.source := by
  rintro rfl
  obtain ⟨z, y, hbytes, hperiod⟩ := exists_period h
  have hne : z ≠ [] := by
    rintro rfl
    cases hbytes
  -- All characters of the element are among those of `z`, and it takes three to name them.
  have hall := mem_of_append_eq hne hperiod
  obtain ⟨hleft, hslash, hright⟩ := b.mem_source hclosing
  cases eq_of_byteLength_eq_three hbytes (hall _ hleft) (hall _ hslash) (hall _ hright)
    (Branch.head?_of_period hne hperiod) with
  | inl heq =>
    rw [heq] at hperiod
    exact Branch.ne_period_slash hopening y hperiod
  | inr heq =>
    rw [heq] at hperiod
    exact Branch.ne_period_bracket hclosing hempty y hperiod

def byteOrderMark (text : List Char) : List Char :=
  if text.head? = some '\ufeff' then ['\ufeff'] else []

theorem isIn_start (text : List Char) : (Reader.start text).IsIn (byteOrderMark text) text := by
  by_cases hhead : text.head? = some '\ufeff'
  . obtain ⟨tail, rfl⟩ := List.head?_eq_some_iff.mp hhead
    exact ⟨[], rfl, rfl⟩
  . have hmark : byteOrderMark text = [] := if_neg hhead
    rw [hmark, Reader.start_of_head? hhead]
    exact ⟨[], rfl, rfl⟩

theorem rest_of_finished {r : Reader} {position : Nat} (h : r.next = .ending (.finished position)) :
    r.rest = [] ∨ r.rest = ['<'] := by
  unfold Reader.next at h
  split at h
  . next hrest => exact Or.inl hrest
  . next rest hrest =>
    unfold Reader.readMarkup at h
    split at h
    . next hnil =>
      right
      rw [hrest]
      simpa using hnil
    . unfold Reader.readDeclaration Reader.fail at h
      dsimp only at h
      repeat' split at h
      all_goals simp at h
    . unfold Reader.readClose Reader.fail at h
      dsimp only at h
      repeat' split at h
      all_goals simp at h
    . unfold Reader.readInstruction Reader.fail at h
      dsimp only at h
      repeat' split at h
      all_goals simp at h
    . unfold Reader.readTag Reader.fail at h
      dsimp only at h
      repeat' split at h
      all_goals simp at h
  . unfold Reader.readText at h
    simp at h

/--
The forest of a document stands for its whole text. Only a byte order mark is left out, and an angle
bracket at the very end.
-/
theorem source_documentForest {limit fresh : Nat} {text : String} {root : Element} {n : Nat}
    (h : parseDocument limit fresh text = .ok (root, n)) :
    ∃ rest, text.toList = byteOrderMark text.toList ++ (documentForest text.toList).source ++ rest
      ∧ (rest = [] ∨ rest = ['<']) := by
  obtain ⟨last, position, hall, hlast⟩ := readsAll_documentForest h
  obtain ⟨before, htext, hconsumed⟩ := isIn_start text.toList
  have hbefore : before = [] := by
    have hzero : (Reader.start text.toList).consumed = 0 := by
      unfold Reader.start
      split <;> rfl
    rw [hzero] at hconsumed
    by_contra hne
    have := byteLength_pos hne
    omega
  refine ⟨last.rest, ?_, rest_of_finished hlast⟩
  rw [hbefore, hall.rest] at htext
  simp only [List.append_nil] at htext
  rw [List.append_assoc]
  exact htext

/--
The elements of a document that are not of the catalog. There is none outside of the root, which has the
number `fresh`.
-/
def documentExcerpts (fresh : Nat) (text : List Char) : List Excerpt :=
  (documentForest text).excerpts fresh fresh

theorem relates_verbatim (text : List Char) :
    Relates (byteOrderMark text) text fun fragment excerpt =>
      fragment.toList = excerpt.markup ↔ byteOrderMark text = [] ∧ '<' ∉ excerpt.tag.content := by
  intro r mid f next b markup holder hf _ hr _ hin hmarkup
  obtain ⟨before, htext, hconsumed⟩ := hin
  have hrest := hr.rest
  rw [(Forest.tokens_branch hf).2] at hrest
  rw [hrest] at htext
  rw [hconsumed] at hmarkup
  dsimp only
  rw [String.toList_ofList]
  by_cases hmark : text.head? = some '\ufeff'
  . have hbyteOrderMark : byteOrderMark text = ['\ufeff'] := if_pos hmark
    rw [hbyteOrderMark] at htext ⊢
    rw [htext] at hmarkup
    simp only [List.cons_ne_nil, false_and, iff_false]
    obtain ⟨first, inside, hfirst, hclose, hempty⟩ : ∃ first inside : Reader,
        r.Reads ⟨b.event, b.opening⟩ first
          ∧ inside.ReadsAll (if b.isEmpty then [] else [⟨.close b.tag.name, b.closing⟩]) mid
          ∧ (b.isEmpty = true → b.source = b.opening) := by
      have hall := hr
      unfold Branch.tokens at hall
      obtain ⟨inside, hopening, hclosing⟩ := Reader.readsAll_append.mp hall
      obtain ⟨first, hfirst, _⟩ := Reader.readsAll_cons.mp hopening
      refine ⟨first, inside, hfirst, hclosing, ?_⟩
      intro hisEmpty
      rw [← (Forest.tokens_branch hf).2]
      unfold Branch.tokens
      simp [hisEmpty, Forest.children_of_isEmpty hf hisEmpty, Forest.tokens]
    apply excerpt?_ne_of_mark _ _ hempty hmarkup
    . intro tail
      apply hfirst.wellFormed.noSlash b.tag tail
      unfold Branch.event
      split
      . exact Or.inr rfl
      . exact Or.inl rfl
    . intro hisEmpty
      simp only [hisEmpty, Bool.false_eq_true, if_false] at hclose
      obtain ⟨_, hread, _⟩ := Reader.readsAll_cons.mp hclose
      exact hread.wellFormed.close _ rfl
  . have hbyteOrderMark : byteOrderMark text = [] := if_neg hmark
    rw [hbyteOrderMark] at htext ⊢
    rw [htext, List.nil_append] at hmarkup
    simp only [true_and]
    exact excerpt?_verbatim_iff hmarkup

namespace Element

theorem flatMap_unknown_of_nodup {e : Element} {es : List Element} (hnodup : (es.map id).Nodup)
    (he : e ∈ es) : es.flatMap (fun x => if x.id = e.id then x.head.unknown else [])
      = e.head.unknown := by
  induction es with
  | nil => simp at he
  | cons x es ih =>
    simp only [List.map_cons, List.nodup_cons] at hnodup
    rw [List.flatMap_cons]
    cases List.mem_cons.mp he with
    | inl heq =>
      subst heq
      have hothers : es.flatMap (fun x => if x.id = e.id then x.head.unknown else []) = [] := by
        rw [List.flatMap_eq_nil_iff]
        intro x hx
        rw [if_neg]
        intro hsame
        apply hnodup.1
        rw [← hsame]
        exact List.mem_map_of_mem hx
      rw [hothers]
      simp
    | inr hmem =>
      have hne : x.id ≠ e.id := by
        intro hsame
        apply hnodup.1
        rw [hsame]
        exact List.mem_map_of_mem hmem
      rw [if_neg hne, List.nil_append]
      exact ih hnodup.2 hmem

theorem Grown.kept_of_mem {stop : Nat} {root e : Element} (h : root.Grown stop) (he : e ∈ root.all) :
    root.kept e.id = e.head.unknown :=
  flatMap_unknown_of_nodup h.nodup he

end Element

/--
Every element of a document that is not of the catalog is kept once by the element around it, in the
order of the text. What is kept is its markup if and only if the text does not begin with a byte order
mark and the start tag has no second angle bracket.
-/
theorem kept_verbatim_iff {limit fresh : Nat} {text : String} {root : Element} {n : Nat}
    (h : parseDocument limit fresh text = .ok (root, n)) :
    (∀ e ∈ root.all,
      List.Forall₂
        (fun fragment excerpt => fragment.toList = excerpt.markup
          ↔ byteOrderMark text.toList = [] ∧ '<' ∉ excerpt.tag.content)
        e.head.unknown ((documentExcerpts fresh text.toList).filter fun x => x.holder = e.id))
      ∧ ∀ x ∈ documentExcerpts fresh text.toList, ∃ e ∈ root.all, e.id = x.holder := by
  obtain ⟨last, position, hall, _⟩ := readsAll_documentForest h
  have hyields := Forest.yields_of_parse h
  obtain ⟨hgrown, _⟩ := hyields.grown
  have hconsumed : (Reader.start text.toList).consumed = 0 := by
    unfold Reader.start
    split <;> rfl
  have hkept := fun id => hyields.kept (relates_verbatim text.toList) hall (isIn_start _) hconsumed
    fresh id
  constructor
  . intro e he
    have hself := hkept e.id
    rw [hgrown.kept_of_mem he] at hself
    exact hself
  . intro x hx
    by_contra hnone
    have hnil : root.kept x.holder = [] := by
      apply Element.kept_eq_nil
      intro e he hid
      exact hnone ⟨e, he, hid⟩
    have hself := hkept x.holder
    rw [hnil, List.forall₂_nil_left_iff] at hself
    have hmem : x ∈ (documentExcerpts fresh text.toList).filter fun y => y.holder = x.holder := by
      simpa using hx
    unfold documentExcerpts at hmem
    rw [hself] at hmem
    simp at hmem

theorem kept_verbatim_nested :
    ∃ root n, parseDocument 100 7 "<Folder><x a='1'><x/></x><y/></Folder>" = .ok (root, n)
      ∧ (∀ e ∈ root.all,
        List.Forall₂
          (fun fragment excerpt => fragment.toList = excerpt.markup
            ↔ byteOrderMark "<Folder><x a='1'><x/></x><y/></Folder>".toList = []
              ∧ '<' ∉ excerpt.tag.content)
          e.head.unknown
          ((documentExcerpts 7 "<Folder><x a='1'><x/></x><y/></Folder>".toList).filter
            fun x => x.holder = e.id))
      ∧ ∀ x ∈ documentExcerpts 7 "<Folder><x a='1'><x/></x><y/></Folder>".toList,
        ∃ e ∈ root.all, e.id = x.holder := by
  have haccepted :
      (parseDocument 100 7 "<Folder><x a='1'><x/></x><y/></Folder>").toOption.isSome = true := by
    decide +kernel
  obtain ⟨⟨root, n⟩, h⟩ := exists_eq_ok haccepted
  exact ⟨root, n, h, kept_verbatim_iff h⟩

/--
Of an element with an angle bracket in the value of an attribute, only the end is kept.
-/
theorem kept_from_last_bracket :
    (parseDocument 100 0 "<Folder><x a='<'/></Folder>").toOption.map (fun result =>
        (result.1.id, result.1.head.unknown))
      = some (0, ["<'/>"])
    ∧ (documentExcerpts 0 "<Folder><x a='<'/></Folder>".toList).map (fun x => (x.holder, x.markup))
      = [(0, "<x a='<'/>".toList)] := by
  decide +kernel

end KmlTree
