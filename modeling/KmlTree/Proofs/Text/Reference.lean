import KmlTree.Proofs.Text.Bytes

/-!
This module contains the meaning of text with references: what is written for a text means that text,
and the meaning of two texts in a row is that of the first followed by that of the second.
-/

namespace KmlTree

namespace ReferenceScan

/--
Whether two scans have read the same, except that the second one had resolved `before` already.
-/
structure Shifted (before : List Char) (s t : ReferenceScan) : Prop where
  resolved : t.resolved = s.resolved ++ before
  pending : t.pending.map Prod.snd = s.pending.map Prod.snd

end ReferenceScan

theorem resolveReference_position {start stop start' stop' : Nat} {body : List Char} {c : Char}
    (h : resolveReference start stop body = .ok c) : resolveReference start' stop' body = .ok c := by
  unfold resolveReference at *
  split at h
  . next number =>
    cases hcode : referenceNumber number with
    | error e =>
      rw [hcode] at h
      simp [bind, Except.bind] at h
    | ok code =>
      rw [hcode] at h
      simp only [bind, Except.bind] at *
      split at h
      . simp at h
      . next hzero =>
        rw [if_neg hzero]
        split at h
        . next hvalid => simpa [hvalid] using h
        . simp at h
  . split at h
    . exact h
    . simp at h

namespace ReferenceScan

theorem step_shifted {before : List Char} {length : Nat} (length' : Nat) {s s' t : ReferenceScan}
    {c : Char} (hst : Shifted before s t) (h : step length s c = .ok s') :
    ∃ t', step length' t c = .ok t' ∧ Shifted before s' t' := by
  obtain ⟨offset, resolved, pending⟩ := s
  obtain ⟨offset', resolved', pending'⟩ := t
  obtain ⟨hresolved, hpending⟩ := hst
  dsimp only at hresolved hpending
  subst hresolved
  cases pending with
  | none =>
    simp only [Option.map_none, Option.map_eq_none_iff] at hpending
    subst hpending
    unfold step at *
    dsimp only at *
    split at h
    . next hamp =>
      rw [if_pos hamp]
      simp only [Except.ok.injEq] at h
      subst h
      exact ⟨_, rfl, rfl, rfl⟩
    . next hamp =>
      rw [if_neg hamp]
      simp only [Except.ok.injEq] at h
      subst h
      exact ⟨_, rfl, rfl, rfl⟩
  | some entry =>
    obtain ⟨start, body⟩ := entry
    simp only [Option.map_some, Option.map_eq_some_iff, Prod.exists, exists_eq_right] at hpending
    obtain ⟨start', rfl⟩ := hpending
    unfold step at *
    dsimp only at *
    split at h
    . next hsemicolon =>
      rw [if_pos hsemicolon]
      cases hdenoted : resolveReference start offset body.reverse with
      | error e =>
        rw [hdenoted] at h
        simp [bind, Except.bind] at h
      | ok denoted =>
        rw [hdenoted] at h
        simp only [bind, Except.bind, pure, Except.pure, Except.ok.injEq] at h
        subst h
        rw [resolveReference_position hdenoted]
        exact ⟨_, rfl, rfl, rfl⟩
    . next hsemicolon =>
      rw [if_neg hsemicolon]
      split at h
      . simp at h
      . next hamp =>
        rw [if_neg hamp]
        simp only [Except.ok.injEq] at h
        subst h
        exact ⟨_, rfl, rfl, rfl⟩

theorem foldlM_shifted {before : List Char} {length : Nat} (length' : Nat) {s s' t : ReferenceScan}
    {text : List Char} (hst : Shifted before s t) (h : text.foldlM (step length) s = .ok s') :
    ∃ t', text.foldlM (step length') t = .ok t' ∧ Shifted before s' t' := by
  induction text generalizing s t with
  | nil =>
    simp only [List.foldlM_nil, pure, Except.pure, Except.ok.injEq] at h
    subst h
    exact ⟨t, rfl, hst⟩
  | cons c text ih =>
    rw [List.foldlM_cons] at h
    cases hstep : step length s c with
    | error e =>
      rw [hstep] at h
      simp [bind, Except.bind] at h
    | ok mid =>
      rw [hstep] at h
      obtain ⟨mid', hstep', hmid⟩ := step_shifted length' hst hstep
      obtain ⟨t', hrest, hshift⟩ := ih hmid h
      refine ⟨t', ?_, hshift⟩
      rw [List.foldlM_cons, hstep']
      exact hrest

end ReferenceScan

/--
Whether a text without an open reference at its end means another one, wherever it stands.
-/
def Denotes (text meaning : List Char) : Prop :=
  ∀ (length offset : Nat) (resolved : List Char),
    text.foldlM (ReferenceScan.step length) ⟨offset, resolved, none⟩
      = .ok ⟨offset + byteLength text, meaning.reverse ++ resolved, none⟩

namespace Denotes

theorem nil : Denotes [] [] := by
  intro length offset resolved
  rfl

theorem append {s t u v : List Char} (hs : Denotes s u) (ht : Denotes t v) :
    Denotes (s ++ t) (u ++ v) := by
  intro length offset resolved
  rw [List.foldlM_append]
  rw [hs length offset resolved]
  simp only [bind, Except.bind]
  rw [ht]
  simp [Nat.add_assoc]

theorem flatMap {f : Char → List Char} (hf : ∀ c, Denotes (f c) [c]) (s : List Char) :
    Denotes (s.flatMap f) s := by
  induction s with
  | nil => exact nil
  | cons c s ih => exact append (hf c) ih

theorem character {c : Char} (h : c ≠ '&') : Denotes [c] [c] := by
  intro length offset resolved
  simp [ReferenceScan.step, h, bind, Except.bind, pure, Except.pure]

theorem self {s : List Char} (h : '&' ∉ s) : Denotes s s := by
  induction s with
  | nil => exact nil
  | cons c s ih =>
    simp only [List.mem_cons, not_or] at h
    exact append (character (Ne.symm h.1)) (ih h.2)

theorem textReference (c : Char) : Denotes (KmlTree.textReference c) [c] := by
  unfold KmlTree.textReference
  split
  . intro length offset resolved
    rfl
  . intro length offset resolved
    rfl
  . intro length offset resolved
    rfl
  . next hamp => exact character hamp

theorem attributeReference (c : Char) : Denotes (KmlTree.attributeReference c) [c] := by
  unfold KmlTree.attributeReference
  split
  . intro length offset resolved
    rfl
  . intro length offset resolved
    rfl
  . exact textReference c

theorem escapeText (s : String) : Denotes (KmlTree.escapeText s).toList s.toList := by
  unfold KmlTree.escapeText
  rw [String.toList_ofList]
  exact flatMap textReference s.toList

theorem escapeAttribute (s : String) : Denotes (KmlTree.escapeAttribute s).toList s.toList := by
  unfold KmlTree.escapeAttribute
  rw [String.toList_ofList]
  exact flatMap attributeReference s.toList

theorem unescape_append {s t u v : List Char} (hs : Denotes s u) (ht : unescape t = .ok v) :
    unescape (s ++ t) = .ok (u ++ v) := by
  unfold unescape at *
  dsimp only [bind, Except.bind] at *
  cases hscan : t.foldlM (ReferenceScan.step (byteLength t)) .initial with
  | error e =>
    rw [hscan] at ht
    simp at ht
  | ok scan =>
    rw [hscan] at ht
    have hshift : ReferenceScan.Shifted u.reverse .initial ⟨0 + byteLength s, u.reverse ++ [], none⟩ :=
      ⟨by simp [ReferenceScan.initial], rfl⟩
    obtain ⟨scan', hscan', hresolved, hpending⟩ :=
      ReferenceScan.foldlM_shifted (byteLength (s ++ t)) hshift hscan
    rw [List.foldlM_append]
    rw [ReferenceScan.initial, hs]
    simp only [bind, Except.bind]
    rw [hscan']
    dsimp only at *
    unfold ReferenceScan.finish at *
    split at ht
    . next hnone =>
      rw [hnone, Option.map_none, Option.map_eq_none_iff] at hpending
      rw [hpending]
      simp only [Except.ok.injEq] at ht
      simp [hresolved, ← ht]
    . simp at ht

theorem unescape {s u : List Char} (hs : Denotes s u) : KmlTree.unescape s = .ok u := by
  have h := unescape_append hs (t := []) (v := []) rfl
  simpa using h

theorem eq_nil {u : List Char} (h : Denotes [] u) : u = [] := by
  have hunescape := h.unescape
  rw [nil.unescape, Except.ok.injEq] at hunescape
  exact hunescape.symm

end Denotes

end KmlTree
