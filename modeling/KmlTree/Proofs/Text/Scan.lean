import KmlTree.Text.Scan
import Mathlib.Data.List.TakeWhile

/-!
This module contains the laws of cutting a text at the place where something ends: where the text is cut
does not depend on what comes after the cut.
-/

namespace KmlTree

theorem splitScan?_local {σ : Type} {step : σ → Char → Option σ} {s : σ}
    {text before after : List Char} (hstop : ∀ s c, step s c = none → c = '>')
    (h : splitScan? step s text = some (before, after)) :
    text = before ++ '>' :: after
      ∧ ∀ rest, splitScan? step s (before ++ '>' :: rest) = some (before, rest) := by
  induction text generalizing s before with
  | nil => simp [splitScan?] at h
  | cons c text ih =>
    unfold splitScan? at h
    split at h
    . next hstep =>
      simp only [Option.some.injEq, Prod.mk.injEq] at h
      obtain ⟨rfl, rfl⟩ := h
      obtain rfl := hstop s c hstep
      refine ⟨rfl, ?_⟩
      intro rest
      simp [splitScan?, hstep]
    . next s' hstep =>
      simp only [Option.map_eq_some_iff] at h
      obtain ⟨⟨before', after'⟩, hscan, heq⟩ := h
      simp only [Prod.mk.injEq] at heq
      obtain ⟨rfl, rfl⟩ := heq
      obtain ⟨htext, hagain⟩ := ih hscan
      refine ⟨by rw [htext, List.cons_append], ?_⟩
      intro rest
      simp [splitScan?, hstep, hagain rest]

theorem bne_of_notMem {s : List Char} {c : Char} (h : c ∉ s) : ∀ d ∈ s, (d != c) = true := by
  intro d hd
  simp only [bne_iff_ne, ne_eq]
  rintro rfl
  exact h hd

theorem notMem_takeWhile_bne (c : Char) (s : List Char) : c ∉ s.takeWhile (· != c) := by
  intro hmem
  have := List.mem_takeWhile_imp hmem
  simp at this

theorem takeWhile_stop {p : Char → Bool} {before : List Char} {c : Char} (rest : List Char)
    (h : ∀ d ∈ before, p d = true) (hc : p c = false) :
    (before ++ c :: rest).takeWhile p = before := by
  rw [List.takeWhile_append_of_pos h]
  rw [List.takeWhile_cons_of_neg (by simp [hc])]
  rw [List.append_nil]

theorem dropWhile_stop {p : Char → Bool} {before : List Char} {c : Char} (rest : List Char)
    (h : ∀ d ∈ before, p d = true) (hc : p c = false) :
    (before ++ c :: rest).dropWhile p = c :: rest := by
  rw [List.dropWhile_append_of_pos h]
  rw [List.dropWhile_cons_of_neg (by simp [hc])]

theorem eq_of_dropWhile {p : Char → Bool} {s rest : List Char} {c : Char}
    (h : s.dropWhile p = c :: rest) : s = s.takeWhile p ++ c :: rest ∧ p c = false := by
  constructor
  . rw [← h]
    exact List.takeWhile_append_dropWhile.symm
  . have hstop := List.head_dropWhile_not p (l := s) (by simp [h])
    simpa [h] using hstop

end KmlTree
