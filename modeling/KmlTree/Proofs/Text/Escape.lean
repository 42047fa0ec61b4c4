import KmlTree.Proofs.Text.Reference

/-!
This module contains the laws of writing text with references: what is written means the text that was
given, holds no character that markup is made of and no ampersand but those of the predefined references,
and is written character by character (`escape_laws`).
-/

namespace KmlTree

def textDelimiters : List Char := ['<', '>']

def attributeDelimiters : List Char := ['<', '>', '\x27', '\x22']

theorem notMem_flatMap_of_reference {c : Char} {reference : Char → List Char} (s : List Char)
    (h : ∀ d, c ∉ reference d) : c ∉ s.flatMap reference := by
  intro hmem
  obtain ⟨d, _, hd⟩ := List.mem_flatMap.mp hmem
  exact h d hd

theorem notMem_textReference (d : Char) : ∀ c ∈ textDelimiters, c ∉ textReference d := by
  unfold textReference
  split
  . simp [textDelimiters]
  . simp [textDelimiters]
  . simp [textDelimiters]
  . next hopening hclosing _ =>
    simp [textDelimiters, Ne.symm hopening, Ne.symm hclosing]

theorem notMem_attributeReference (d : Char) :
    ∀ c ∈ attributeDelimiters, c ∉ attributeReference d := by
  unfold attributeReference
  split
  . simp [attributeDelimiters]
  . simp [attributeDelimiters]
  . next happos hquot =>
    unfold textReference
    split
    . simp [attributeDelimiters]
    . simp [attributeDelimiters]
    . simp [attributeDelimiters]
    . next hopening hclosing _ =>
      simp [attributeDelimiters, Ne.symm hopening, Ne.symm hclosing, Ne.symm happos, Ne.symm hquot]

theorem notMem_escapeText (s : String) : ∀ c ∈ textDelimiters, c ∉ (escapeText s).toList := by
  intro c hc
  unfold escapeText
  rw [String.toList_ofList]
  exact notMem_flatMap_of_reference _ fun d => notMem_textReference d c hc

theorem notMem_escapeAttribute (s : String) :
    ∀ c ∈ attributeDelimiters, c ∉ (escapeAttribute s).toList := by
  intro c hc
  unfold escapeAttribute
  rw [String.toList_ofList]
  exact notMem_flatMap_of_reference _ fun d => notMem_attributeReference d c hc

def predefinedNames : List String := ["lt", "gt", "amp", "apos", "quot"]

/--
Whether every ampersand in a text begins one of the predefined references.
-/
def IsEscaped (s : List Char) : Prop :=
  ∀ before after, s = before ++ '&' :: after →
    ∃ name ∈ predefinedNames, ∃ rest, after = name.toList ++ ';' :: rest

namespace IsEscaped

variable {s t : List Char}

theorem of_notMem (h : '&' ∉ s) : IsEscaped s := by
  rintro before after rfl
  simp at h

theorem append (hs : IsEscaped s) (ht : IsEscaped t) : IsEscaped (s ++ t) := by
  intro before after h
  rw [List.append_eq_append_iff] at h
  cases h with
  | inl h =>
    obtain ⟨inside, _, ht'⟩ := h
    exact ht inside after ht'
  | inr h =>
    obtain ⟨inside, hs', hafter⟩ := h
    cases inside with
    | nil => exact ht [] after hafter.symm
    | cons c inside =>
      rw [List.cons_append, List.cons.injEq] at hafter
      obtain ⟨rfl, rfl⟩ := hafter
      -- a reference that begins in the first text also ends there
      obtain ⟨name, hname, rest, rfl⟩ := hs before inside hs'
      exact ⟨name, hname, rest ++ t, by simp⟩

theorem flatMap {reference : Char → List Char} (h : ∀ c, IsEscaped (reference c)) (s : List Char) :
    IsEscaped (s.flatMap reference) := by
  induction s with
  | nil => exact of_notMem List.not_mem_nil
  | cons c s ih => exact append (h c) ih

theorem reference (name : String) (h : name ∈ predefinedNames) :
    IsEscaped ('&' :: (name.toList ++ [';'])) := by
  have hname : ∀ name ∈ predefinedNames, '&' ∉ name.toList ++ [';'] := by
    decide
  intro before after heq
  cases before with
  | nil =>
    rw [List.nil_append, List.cons.injEq] at heq
    exact ⟨name, h, [], heq.2.symm⟩
  | cons c before =>
    rw [List.cons_append, List.cons.injEq] at heq
    have hmem := hname name h
    rw [heq.2] at hmem
    simp at hmem

theorem textReference (c : Char) : IsEscaped (KmlTree.textReference c) := by
  unfold KmlTree.textReference
  split
  . exact reference "lt" (by decide)
  . exact reference "gt" (by decide)
  . exact reference "amp" (by decide)
  . next hamp => exact of_notMem (by simpa using Ne.symm hamp)

theorem attributeReference (c : Char) : IsEscaped (KmlTree.attributeReference c) := by
  unfold KmlTree.attributeReference
  split
  . exact reference "apos" (by decide)
  . exact reference "quot" (by decide)
  . exact textReference c

theorem escapeText (s : String) : IsEscaped (KmlTree.escapeText s).toList := by
  unfold KmlTree.escapeText
  rw [String.toList_ofList]
  exact flatMap textReference s.toList

theorem escapeAttribute (s : String) : IsEscaped (KmlTree.escapeAttribute s).toList := by
  unfold KmlTree.escapeAttribute
  rw [String.toList_ofList]
  exact flatMap attributeReference s.toList

end IsEscaped

theorem escapeText_append (s t : String) : escapeText (s ++ t) = escapeText s ++ escapeText t := by
  unfold escapeText
  rw [String.toList_append]
  rw [List.flatMap_append]
  rw [String.ofList_append]

theorem escapeAttribute_append (s t : String) :
    escapeAttribute (s ++ t) = escapeAttribute s ++ escapeAttribute t := by
  unfold escapeAttribute
  rw [String.toList_append]
  rw [List.flatMap_append]
  rw [String.ofList_append]

/--
What is written for a text, as character data or as the value of an attribute, means that text. There are
no angle brackets in it, in the value of an attribute no quotes either, and every ampersand begins a
predefined reference. Two texts in a row are written as the first one is and then as the second one is.
-/
theorem escape_laws (s t : String) :
    unescape (escapeText s).toList = .ok s.toList
    ∧ unescape (escapeAttribute s).toList = .ok s.toList
    ∧ ('<' ∉ (escapeText s).toList ∧ '>' ∉ (escapeText s).toList)
    ∧ ('<' ∉ (escapeAttribute s).toList ∧ '>' ∉ (escapeAttribute s).toList
      ∧ '\x27' ∉ (escapeAttribute s).toList ∧ '\x22' ∉ (escapeAttribute s).toList)
    ∧ IsEscaped (escapeText s).toList
    ∧ IsEscaped (escapeAttribute s).toList
    ∧ escapeText (s ++ t) = escapeText s ++ escapeText t
    ∧ escapeAttribute (s ++ t) = escapeAttribute s ++ escapeAttribute t := by
  have htext := notMem_escapeText s
  have hattribute := notMem_escapeAttribute s
  refine ⟨(Denotes.escapeText s).unescape, (Denotes.escapeAttribute s).unescape, ?_, ?_,
    .escapeText s, .escapeAttribute s, escapeText_append s t, escapeAttribute_append s t⟩
  . exact ⟨htext '<' (by decide), htext '>' (by decide)⟩
  . exact ⟨hattribute '<' (by decide), hattribute '>' (by decide), hattribute '\x27' (by decide),
      hattribute '\x22' (by decide)⟩

end KmlTree
