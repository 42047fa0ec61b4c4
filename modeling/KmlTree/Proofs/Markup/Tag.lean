import KmlTree.Proofs.Attributes
import KmlTree.Markup.Tag

/-!
This module contains the laws of reading the attributes of a tag.
-/

namespace KmlTree

namespace Tag

theorem readAttributes_nil {seen : List (String × Nat)} {c : Cursor}
    (h : (c.skip isBlank).rest = []) : readAttributes seen c = .ok [] := by
  rw [readAttributes]
  split
  . rfl
  . next hrest =>
    rw [h] at hrest
    cases hrest

theorem readAttributes_cons {seen : List (String × Nat)} {c : Cursor} {first : Char} {rest : List Char}
    {pairs : List (String × String)} (h : (c.skip isBlank).rest = first :: rest) :
    readAttributes seen c = .ok pairs
      ↔ ∃ value after content tail,
        readValue (c.skip isBlank).offset
            (seen.lookup (String.ofList (first :: rest.takeWhile isNameCharacter)))
            (Cursor.skip isNameCharacter ⟨(c.skip isBlank).offset + first.utf8Size, rest⟩)
          = .ok (value, after)
        ∧ unescape value = .ok content
        ∧ readAttributes
            ((String.ofList (first :: rest.takeWhile isNameCharacter), (c.skip isBlank).offset) :: seen)
            after
          = .ok tail
        ∧ pairs
          = (String.ofList (first :: rest.takeWhile isNameCharacter), String.ofList content) :: tail := by
  rw [readAttributes]
  split
  . next hrest =>
    rw [h] at hrest
    cases hrest
  . next first' rest' hrest =>
    rw [h] at hrest
    simp only [List.cons.injEq] at hrest
    obtain ⟨rfl, rfl⟩ := hrest
    dsimp only [Cursor.taken]
    generalize String.ofList (first :: rest.takeWhile isNameCharacter) = name
    split
    . next hvalue => simp [hvalue]
    . next value after hvalue =>
      split
      . next hcontent => simp [hvalue, hcontent]
      . next content hcontent =>
        split
        . next htail => simp [hvalue, htail]
        . next tail htail =>
          simp only [hvalue, Except.ok.injEq, Prod.mk.injEq]
          constructor
          . intro heq
            exact ⟨value, after, content, tail, ⟨rfl, rfl⟩, hcontent, htail, heq.symm⟩
          . rintro ⟨value', after', content', tail', ⟨rfl, rfl⟩, hcontent', htail', rfl⟩
            rw [hcontent, Except.ok.injEq] at hcontent'
            rw [htail, Except.ok.injEq] at htail'
            rw [hcontent', htail']

theorem known_of_readValue {position : Nat} {known : Option Nat} {c after : Cursor} {value : List Char}
    (h : readValue position known c = .ok (value, after)) : known = none := by
  unfold readValue at h
  dsimp only at h
  split at h
  . split at h
    . cases h
    . rfl
  . cases h

theorem nodup_readAttributes {seen : List (String × Nat)} {c : Cursor} {pairs : List (String × String)}
    (h : readAttributes seen c = .ok pairs) :
    (pairs.map Prod.fst).Nodup ∧ ∀ name ∈ pairs.map Prod.fst, seen.lookup name = none := by
  induction hlength : c.rest.length using Nat.strongRecOn generalizing seen c pairs with
  | ind n ih =>
    cases hrest : (c.skip isBlank).rest with
    | nil =>
      rw [readAttributes_nil hrest, Except.ok.injEq] at h
      subst h
      simp
    | cons first rest =>
      obtain ⟨value, after, content, tail, hvalue, _, htail, rfl⟩ :=
        (readAttributes_cons hrest).mp h
      have hshort : after.rest.length < n := by
        have hvalue := length_readValue_le hvalue
        have hname := Cursor.length_skip_le isNameCharacter
          ⟨(c.skip isBlank).offset + first.utf8Size, rest⟩
        have hblank := c.length_skip_le isBlank
        rw [hrest] at hblank
        simp only [List.length_cons] at *
        omega
      obtain ⟨hnodup, hseen⟩ := ih _ hshort htail rfl
      generalize String.ofList (first :: rest.takeWhile isNameCharacter) = name at *
      have hnew : name ∉ tail.map Prod.fst := by
        intro hmem
        have := hseen name hmem
        simp at this
      simp only [List.map_cons, List.nodup_cons, List.mem_cons]
      refine ⟨⟨hnew, hnodup⟩, ?_⟩
      rintro other (rfl | hother)
      . exact known_of_readValue hvalue
      . have hold := hseen other hother
        rw [List.lookup_cons] at hold
        split at hold
        . cases hold
        . exact hold

/--
The attributes of a tag, with their references resolved and in the order of the tag.
-/
def pairs (t : Tag) : List (String × String) :=
  match readAttributes [] (Cursor.skip (fun c => !isBlank c) ⟨0, t.content⟩) with
  | .ok pairs => pairs
  | .error _ => []

theorem entries_attributes {t : Tag} {a : Attributes} (h : t.attributes = .ok a) :
    a.entries = t.pairs := by
  unfold attributes at h
  unfold pairs
  dsimp only [bind, Except.bind, pure, Except.pure] at h
  split at h
  . cases h
  . next pairs hpairs =>
    rw [hpairs]
    simp only [Except.ok.injEq] at h
    rw [← h, Attributes.entries_ofList (nodup_readAttributes hpairs).1]

end Tag

end KmlTree
