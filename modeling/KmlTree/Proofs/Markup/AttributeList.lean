import KmlTree.Proofs.Markup.Tag
import KmlTree.Proofs.Text.Scan

/-!
This module contains the grammar of the attributes of a tag (`Tag.Spells`). The attributes of a tag can be
read if and only if they are spelled by the grammar, have different names, and the references in their
values have a meaning (`Tag.attributes_iff`).
-/

namespace KmlTree

def IsBlankText (s : List Char) : Prop :=
  ∀ c ∈ s, isBlank c = true

namespace Tag

/--
Whether a text begins with what stands behind the name of an attribute: an equals sign and a value in quotes
of either kind, with blanks in front of both. There is no such quote in the value.
-/
def SpellsValue (s value rest : List Char) : Prop :=
  ∃ before behind quote, s = before ++ '=' :: (behind ++ quote :: (value ++ quote :: rest))
    ∧ IsBlankText before ∧ IsBlankText behind ∧ (quote = '\x22' ∨ quote = '\x27') ∧ quote ∉ value

/--
Whether a text is a list of attributes with the given names and values, which are as they are written. The
first character of a name is not looked at, unless it is a blank.
-/
inductive Spells : List Char → List (String × List Char) → Prop where
  | nil {blank : List Char} (hblank : IsBlankText blank) : Spells blank []
  | cons {blank name tail value rest : List Char} {first : Char} {raw : List (String × List Char)}
    (hblank : IsBlankText blank) (hfirst : isBlank first = false)
    (hname : ∀ c ∈ name, isNameCharacter c = true) (hvalue : SpellsValue tail value rest)
    (hrest : Spells rest raw) :
    Spells (blank ++ first :: (name ++ tail)) ((String.ofList (first :: name), value) :: raw)

theorem isBlankText_takeWhile (s : List Char) : IsBlankText (s.takeWhile isBlank) := by
  intro c hc
  exact List.mem_takeWhile_imp hc

theorem spellsValue_of_readValue {position : Nat} {known : Option Nat} {c after : Cursor}
    {value : List Char} (h : readValue position known c = .ok (value, after)) :
    SpellsValue c.rest value after.rest := by
  unfold readValue Cursor.skip at h
  dsimp only at h
  split at h
  . next equals hequals =>
    split at h
    . cases h
    . split at h
      . cases h
      . next quote quoted hquote =>
        split at h
        . next heither =>
          split at h
          . cases h
          . next last rest hlast =>
            cases h
            obtain ⟨hc, _⟩ := eq_of_dropWhile hequals
            obtain ⟨hbehind, _⟩ := eq_of_dropWhile hquote
            obtain ⟨hquoted, hstop⟩ := eq_of_dropWhile hlast
            simp only [bne_eq_false_iff_eq] at hstop
            rw [hstop] at hquoted
            refine ⟨_, _, quote, ?_, isBlankText_takeWhile c.rest, isBlankText_takeWhile equals, heither,
              notMem_takeWhile_bne quote quoted⟩
            unfold Cursor.taken
            dsimp only
            rw [← hquoted, ← hbehind, ← hc]
        . cases h
  . cases h

theorem readValue_of_spellsValue {c : Cursor} {value rest : List Char}
    (h : SpellsValue c.rest value rest) (position : Nat) :
    ∃ after, readValue position none c = .ok (value, after) ∧ after.rest = rest := by
  obtain ⟨before, behind, quote, hrest, hbefore, hbehind, heither, hvalue⟩ := h
  have hequals : isBlank '=' = false := by
    decide
  have hquote : isBlank quote = false := by
    rcases heither with rfl | rfl <;> decide
  have hall := bne_of_notMem hvalue
  have hstop : (quote != quote) = false := by
    simp
  unfold readValue Cursor.skip
  dsimp only
  rw [hrest, dropWhile_stop _ hbefore hequals]
  split
  . next tail heq =>
    simp only [List.cons.injEq, true_and] at heq
    rw [← heq, dropWhile_stop _ hbehind hquote]
    dsimp only
    rw [if_pos heither, dropWhile_stop _ hall hstop]
    unfold Cursor.taken
    dsimp only
    rw [takeWhile_stop _ hall hstop]
    exact ⟨_, rfl, rfl⟩
  . next hne => exact absurd rfl (hne _)

/--
Whether attributes are what is written, with the references in the values resolved.
-/
def Resolves (raw : List (String × List Char)) (pairs : List (String × String)) : Prop :=
  List.Forall₂ (fun written pair => written.1 = pair.1 ∧ unescape written.2 = .ok pair.2.toList) raw pairs

theorem Resolves.names {raw : List (String × List Char)} {pairs : List (String × String)}
    (h : Resolves raw pairs) : raw.map Prod.fst = pairs.map Prod.fst := by
  induction h with
  | nil => rfl
  | cons hsame _ ih => rw [List.map_cons, List.map_cons, hsame.1, ih]

theorem exists_resolves {raw : List (String × List Char)}
    (h : ∀ written ∈ raw, ∃ content, unescape written.2 = .ok content) : ∃ pairs, Resolves raw pairs := by
  induction raw with
  | nil => exact ⟨[], .nil⟩
  | cons written raw ih =>
    obtain ⟨content, hcontent⟩ := h written List.mem_cons_self
    obtain ⟨pairs, hpairs⟩ := ih fun written hmem => h written (List.mem_cons_of_mem _ hmem)
    refine ⟨(written.1, String.ofList content) :: pairs, .cons ⟨rfl, ?_⟩ hpairs⟩
    rw [hcontent, String.toList_ofList]

theorem Resolves.unescape {raw : List (String × List Char)} {pairs : List (String × String)}
    (h : Resolves raw pairs) : ∀ written ∈ raw, ∃ content, unescape written.2 = .ok content := by
  induction h with
  | nil => simp
  | cons hsame _ ih =>
    intro written hmem
    cases List.mem_cons.mp hmem with
    | inl heq =>
      rw [heq]
      exact ⟨_, hsame.2⟩
    | inr hmem => exact ih written hmem

/--
A name ends where what stands behind it begins.
-/
theorem SpellsValue.exists_stop {tail value rest : List Char} (h : SpellsValue tail value rest) :
    ∃ stop tail', tail = stop :: tail' ∧ isNameCharacter stop = false := by
  obtain ⟨before, behind, quote, rfl, hbefore, _⟩ := h
  cases before with
  | nil => exact ⟨'=', _, rfl, by decide⟩
  | cons blank before =>
    refine ⟨blank, _, rfl, ?_⟩
    unfold isNameCharacter
    rw [hbefore blank List.mem_cons_self]
    simp

theorem exists_spells {seen : List (String × Nat)} {c : Cursor} {pairs : List (String × String)}
    (h : readAttributes seen c = .ok pairs) : ∃ raw, Spells c.rest raw ∧ Resolves raw pairs := by
  -- Every attribute takes something off the tag.
  induction hlength : c.rest.length using Nat.strongRecOn generalizing seen c pairs with
  | ind n ih =>
    cases hrest : (c.skip isBlank).rest with
    | nil =>
      rw [readAttributes_nil hrest, Except.ok.injEq] at h
      subst h
      have hblank : c.rest.takeWhile isBlank = c.rest := by
        have hsplit := List.takeWhile_append_dropWhile (p := isBlank) (l := c.rest)
        have hdrop : c.rest.dropWhile isBlank = [] := hrest
        rwa [hdrop, List.append_nil] at hsplit
      refine ⟨[], .nil ?_, .nil⟩
      rw [← hblank]
      apply isBlankText_takeWhile
    | cons first rest =>
      obtain ⟨value, after, content, tail, hvalue, hcontent, htail, rfl⟩ :=
        (readAttributes_cons hrest).mp h
      have hshort : after.rest.length < n := by
        have hvalue := length_readValue_le hvalue
        have hname := Cursor.length_skip_le isNameCharacter
          ⟨(c.skip isBlank).offset + first.utf8Size, rest⟩
        have hblank := c.length_skip_le isBlank
        rw [hrest] at hblank
        simp only [List.length_cons] at *
        omega
      obtain ⟨raw, hspells, hresolves⟩ := ih _ hshort htail rfl
      obtain ⟨hwhole, hfirst⟩ := eq_of_dropWhile hrest
      have hname : ∀ d ∈ rest.takeWhile isNameCharacter, isNameCharacter d = true := by
        intro d hd
        exact List.mem_takeWhile_imp hd
      have hall := Spells.cons (isBlankText_takeWhile c.rest) hfirst hname
        (spellsValue_of_readValue hvalue) hspells
      have hrest' : rest.takeWhile isNameCharacter ++ rest.dropWhile isNameCharacter = rest :=
        List.takeWhile_append_dropWhile
      unfold Cursor.skip at hall
      rw [hrest', ← hwhole] at hall
      have hsame : unescape value = .ok (String.ofList content).toList := by
        rw [hcontent, String.toList_ofList]
      exact ⟨_, hall, .cons ⟨rfl, hsame⟩ hresolves⟩

theorem readAttributes_of_spells {s : List Char} {raw : List (String × List Char)} (h : Spells s raw)
    {seen : List (String × Nat)} {c : Cursor} {pairs : List (String × String)} (hc : c.rest = s)
    (hresolves : Resolves raw pairs) (hnodup : (raw.map Prod.fst).Nodup)
    (hseen : ∀ name ∈ raw.map Prod.fst, seen.lookup name = none) :
    readAttributes seen c = .ok pairs := by
  induction h generalizing seen c pairs with
  | @nil blank hblank =>
    cases hresolves
    apply readAttributes_nil
    unfold Cursor.skip
    rw [hc]
    exact List.dropWhile_eq_nil_iff.mpr hblank
  | @cons blank name tail value rest first raw hblank hfirst hname hvalue _ ih =>
    obtain ⟨stop, tail', htail, hstop⟩ := hvalue.exists_stop
    have hrest : (c.skip isBlank).rest = first :: (name ++ tail) := by
      unfold Cursor.skip
      rw [hc]
      exact dropWhile_stop _ hblank hfirst
    have htake : (name ++ tail).takeWhile isNameCharacter = name := by
      rw [htail]
      exact takeWhile_stop _ hname hstop
    have hdrop : (name ++ tail).dropWhile isNameCharacter = tail := by
      rw [htail]
      exact dropWhile_stop _ hname hstop
    rw [List.map_cons, List.nodup_cons] at hnodup
    cases hresolves with
    | @cons _ pair _ pairs hsame hresolves =>
      obtain ⟨hkey, hcontent⟩ := hsame
      rw [readAttributes_cons hrest, htake, hseen _ List.mem_cons_self]
      have hbehind : SpellsValue (Cursor.skip isNameCharacter
          ⟨(c.skip isBlank).offset + first.utf8Size, name ++ tail⟩).rest value rest := by
        unfold Cursor.skip
        dsimp only
        rw [hdrop]
        exact hvalue
      obtain ⟨after, hread, hafter⟩ := readValue_of_spellsValue hbehind (c.skip isBlank).offset
      refine ⟨value, after, pair.2.toList, pairs, hread, hcontent, ?_, ?_⟩
      . apply ih hafter hresolves hnodup.2
        intro other hother
        rw [List.lookup_cons]
        have hne : (other == String.ofList (first :: name)) = false := by
          simp only [beq_eq_false_iff_ne, ne_eq]
          rintro rfl
          exact hnodup.1 hother
        rw [hne]
        exact hseen other (List.mem_cons_of_mem _ hother)
      . dsimp only at hkey
        rw [hkey, String.ofList_toList]

/--
What stands in a tag behind its name.
-/
def behindName (t : Tag) : List Char :=
  t.content.dropWhile fun c => !isBlank c

/--
Whether the attributes of a tag are well formed, have different names, and values in which every reference
has a meaning.
-/
def HasSoundAttributes (t : Tag) : Prop :=
  ∃ raw, Spells t.behindName raw ∧ (raw.map Prod.fst).Nodup
    ∧ ∀ written ∈ raw, ∃ content, unescape written.2 = .ok content

theorem attributes_iff {t : Tag} : (∃ a, t.attributes = .ok a) ↔ t.HasSoundAttributes := by
  have hread : (∃ a, t.attributes = .ok a)
      ↔ ∃ pairs, readAttributes [] (Cursor.skip (fun c => !isBlank c) ⟨0, t.content⟩) = .ok pairs := by
    unfold attributes
    dsimp only [bind, Except.bind, pure, Except.pure]
    cases readAttributes [] (Cursor.skip (fun c => !isBlank c) ⟨0, t.content⟩) with
    | error e => simp
    | ok pairs => simp
  rw [hread]
  constructor
  . rintro ⟨pairs, h⟩
    obtain ⟨raw, hspells, hresolves⟩ := exists_spells h
    refine ⟨raw, hspells, ?_, hresolves.unescape⟩
    rw [hresolves.names]
    exact (nodup_readAttributes h).1
  . rintro ⟨raw, hspells, hnodup, hcontents⟩
    obtain ⟨pairs, hresolves⟩ := exists_resolves hcontents
    refine ⟨pairs, ?_⟩
    apply readAttributes_of_spells hspells rfl hresolves hnodup
    intro name _
    rfl

end Tag

end KmlTree
