import KmlTree.Text.Space
import Mathlib.Data.List.TakeWhile

/-!
This module contains the laws of removing the white space around a text.
-/

namespace KmlTree

def IsWhite (s : List Char) : Prop := ∀ c ∈ s, isSpace c = true

namespace IsWhite

variable {s t : List Char}

theorem nil : IsWhite [] := by
  simp [IsWhite]

theorem append (hs : IsWhite s) (ht : IsWhite t) : IsWhite (s ++ t) := by
  intro c hc
  cases List.mem_append.mp hc with
  | inl hc => exact hs c hc
  | inr hc => exact ht c hc

theorem reverse (hs : IsWhite s) : IsWhite s.reverse := by
  intro c hc
  exact hs c (List.mem_reverse.mp hc)

theorem notMem (hs : IsWhite s) {c : Char} (hc : isSpace c = false) : c ∉ s := by
  intro hmem
  rw [hs c hmem] at hc
  cases hc

end IsWhite

theorem trim_append_left {w : List Char} (s : List Char) (h : IsWhite w) : trim (w ++ s) = trim s := by
  unfold trim
  rw [List.dropWhile_append_of_pos h]

theorem trim_append_right {w : List Char} (s : List Char) (h : IsWhite w) : trim (s ++ w) = trim s := by
  unfold trim
  rw [List.dropWhile_append]
  split
  . next hnil =>
    rw [List.isEmpty_iff] at hnil
    have hw : w.dropWhile isSpace = [] := List.dropWhile_eq_nil_iff.mpr h
    rw [hnil, hw]
  . rw [List.reverse_append, List.dropWhile_append_of_pos h.reverse]

theorem isWhite_takeWhile (s : List Char) : IsWhite (s.takeWhile isSpace) := by
  intro c hc
  have hall := List.all_takeWhile (p := isSpace) (l := s)
  rw [List.all_eq_true] at hall
  exact hall c hc

theorem exists_eq_trim (s : List Char) :
    ∃ before after, IsWhite before ∧ IsWhite after ∧ s = before ++ trim s ++ after := by
  have hleft := List.takeWhile_append_dropWhile (p := isSpace) (l := s)
  have hright :=
    List.takeWhile_append_dropWhile (p := isSpace) (l := (s.dropWhile isSpace).reverse)
  refine ⟨s.takeWhile isSpace, ((s.dropWhile isSpace).reverse.takeWhile isSpace).reverse,
    isWhite_takeWhile s, (isWhite_takeWhile _).reverse, ?_⟩
  unfold trim
  rw [List.append_assoc, ← List.reverse_append, hright, List.reverse_reverse, hleft]

theorem trim_around {before after : List Char} (s : List Char) (hbefore : IsWhite before)
    (hafter : IsWhite after) : trim (before ++ s ++ after) = trim s := by
  rw [trim_append_right _ hafter, trim_append_left _ hbefore]

theorem trim_trim (s : List Char) : trim (trim s) = trim s := by
  obtain ⟨before, after, hbefore, hafter, hs⟩ := exists_eq_trim s
  have htrim := trim_around (trim s) hbefore hafter
  rw [← hs] at htrim
  exact htrim.symm

theorem trim_of_isWhite {s : List Char} (h : IsWhite s) : trim s = [] := by
  have htrim := trim_append_right [] h
  simpa [trim] using htrim

theorem trim_eq_self {s : List Char} (h : ∀ c ∈ s, isSpace c = false) : trim s = s := by
  obtain ⟨before, after, hbefore, hafter, hs⟩ := exists_eq_trim s
  have hnil (w : List Char) (hw : IsWhite w) (hsub : w ⊆ s) : w = [] := by
    apply List.eq_nil_iff_forall_not_mem.mpr
    intro c hc
    exact hw.notMem (h c (hsub hc)) hc
  have hnil_before : before = [] := hnil before hbefore (by rw [hs]; simp)
  have hnil_after : after = [] := hnil after hafter (by rw [hs]; simp)
  rw [hnil_before, hnil_after, List.nil_append, List.append_nil] at hs
  exact hs.symm

theorem isSpace_of_isDigit {c : Char} (h : c.isDigit = true) : isSpace c = false := by
  have hrange : 48 ≤ c.toNat ∧ c.toNat ≤ 57 := Char.isDigit_iff_toNat.mp h
  unfold isSpace spaceRanges
  simp only [List.any_cons, List.any_nil, Bool.or_eq_false_iff, Bool.and_eq_false_iff,
    decide_eq_false_iff_not, and_true]
  omega

end KmlTree
