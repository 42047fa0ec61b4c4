import KmlTree.Proofs.Position.Tuples

/-!
This module contains the cutting of a text of positions at the white space that stands between two
characters of numbers (`Cut`). The pieces without their other white space are the tuples of the text, and
each tuple is a position or is skipped (`Element.setText_coordinates`).
-/

namespace KmlTree

/--
A text without its white space.
-/
def unspaced (s : List Char) : List Char := s.filter fun c => !isSpace c

/--
Whether white space stands between two characters that are neither white space nor commas.
-/
structure IsGap (before gap after : List Char) : Prop where
  ne_nil : gap ≠ []
  isWhite : IsWhite gap
  before : ∃ c, before.getLast? = some c ∧ isInline c = true
  after : ∃ c, after.head? = some c ∧ isInline c = true

def IsGapless (s : List Char) : Prop :=
  ∀ before gap after, s = before ++ gap ++ after → ¬ IsGap before gap after

/--
The pieces of a text that is cut at all of its gaps. There is none in a text of white space.
-/
inductive Cut : List Char → List (List Char) → Prop where
  | blank {s : List Char} : IsWhite s → Cut s []
  | last {piece : List Char} : IsGapless piece → ¬ IsWhite piece → Cut piece [piece]
  | gap {piece gap rest : List Char} {pieces : List (List Char)} : IsGapless piece →
    IsGap piece gap rest → Cut rest pieces → Cut (piece ++ gap ++ rest) (piece :: pieces)

section Unspaced

variable {c : Char} {s : List Char}

theorem unspaced_cons_of_isSpace (h : isSpace c = true) (s : List Char) :
    unspaced (c :: s) = unspaced s := by
  unfold unspaced
  rw [List.filter_cons_of_neg (by simp [h])]

theorem unspaced_cons (h : isSpace c = false) (s : List Char) :
    unspaced (c :: s) = c :: unspaced s := by
  unfold unspaced
  rw [List.filter_cons_of_pos (by simp [h])]

theorem unspaced_append (s t : List Char) : unspaced (s ++ t) = unspaced s ++ unspaced t :=
  List.filter_append s t

theorem unspaced_of_isWhite (h : IsWhite s) : unspaced s = [] := by
  unfold unspaced
  rw [List.filter_eq_nil_iff]
  intro c hc
  simp [h c hc]

theorem not_isWhite_of_isInline (hc : c ∈ s) (hinline : isInline c = true) : ¬ IsWhite s := by
  intro hwhite
  have hspace := hwhite c hc
  rw [(isInline_iff.mp hinline).1] at hspace
  cases hspace

theorem exists_head?_dropWhile (h : ¬ IsWhite s) : ∃ d, (s.dropWhile isSpace).head? = some d := by
  cases hdrop : s.dropWhile isSpace with
  | nil => exact absurd (List.dropWhile_eq_nil_iff.mp hdrop) h
  | cons d s' => exact ⟨d, rfl⟩

theorem head?_dropWhile_append {d : Char} (h : (s.dropWhile isSpace).head? = some d) (t : List Char) :
    ((s ++ t).dropWhile isSpace).head? = some d := by
  obtain ⟨u, hu⟩ := List.head?_eq_some_iff.mp h
  rw [List.dropWhile_append, hu]
  rfl

end Unspaced

section Words

variable {c d : Char} {s : List Char}

theorem words_cons_of_isSpace (h : isSpace c = true) (s : List Char) : words (c :: s) = words s := by
  unfold words
  rw [cutAt_cons]
  unfold cutAt.step
  rw [if_pos h, List.filter_cons_of_neg (by simp)]

theorem words_append_of_isWhite {w : List Char} (h : IsWhite w) (s : List Char) :
    words (w ++ s) = words s := by
  induction w with
  | nil => rfl
  | cons c w ih =>
    rw [List.cons_append, words_cons_of_isSpace (h c List.mem_cons_self)]
    exact ih fun d hd => h d (List.mem_cons_of_mem c hd)

theorem exists_words_cons (h : isSpace c = false) (s : List Char) :
    ∃ pieces, cutAt isSpace s = s.takeWhile (fun c => !isSpace c) :: pieces
      ∧ words (c :: s) = (c :: s.takeWhile fun c => !isSpace c)
        :: pieces.filter fun piece => !piece.isEmpty := by
  obtain ⟨pieces, hpieces, _⟩ := exists_cutAt isSpace s
  refine ⟨pieces, hpieces, ?_⟩
  unfold words
  rw [cutAt_cons, hpieces]
  unfold cutAt.step
  rw [if_neg (by simp [h])]
  dsimp only
  rw [List.filter_cons_of_pos (by simp)]

/--
A character becomes a part of the first word if no white space follows it.
-/
theorem words_joined (hc : isSpace c = false) (hd : s.head? = some d) (hspace : isSpace d = false) :
    ∃ w ws, words s = w :: ws ∧ words (c :: s) = (c :: w) :: ws := by
  obtain ⟨pieces, hpieces, hwords⟩ := exists_words_cons hc s
  obtain ⟨s, rfl⟩ := List.head?_eq_some_iff.mp hd
  refine ⟨_, _, ?_, hwords⟩
  unfold words
  rw [hpieces, List.filter_cons_of_pos]
  rw [List.takeWhile_cons_of_pos (by simp [hspace])]
  rfl

/--
A character is a word of its own if white space follows it.
-/
theorem words_apart (hc : isSpace c = false) (hs : ∀ d ∈ s.head?, isSpace d = true) :
    words (c :: s) = [c] :: words s := by
  obtain ⟨pieces, hpieces, hwords⟩ := exists_words_cons hc s
  have hnone : s.takeWhile (fun c => !isSpace c) = [] := by
    cases s with
    | nil => rfl
    | cons d s => rw [List.takeWhile_cons_of_neg (by simp [hs d rfl])]
  rw [hwords, hnone]
  unfold words
  rw [hpieces, hnone, List.filter_cons_of_neg (by simp)]

end Words

section First

variable {c d : Char} {s w : List Char}

theorem tightenCommas_cons_of_isSpace (hc : isSpace c = true) (s : List Char) :
    tightenCommas (c :: s)
      = if (tightenCommas s).head? = some ',' then tightenCommas s else c :: tightenCommas s := by
  have hcomma : c ≠ ',' := by
    rintro rfl
    cases hc
  rw [tightenCommas_cons]
  unfold tightenCommas.step
  rw [if_neg hcomma, hc]
  simp

theorem tightenCommas_cons_of_isInline (hc : isInline c = true) (s : List Char) :
    tightenCommas (c :: s) = c :: tightenCommas s := by
  obtain ⟨hspace, hcomma⟩ := isInline_iff.mp hc
  rw [tightenCommas_cons]
  unfold tightenCommas.step
  rw [if_neg hcomma, hspace]
  rfl

theorem head?_tightenCommas_eq_comma_iff (s : List Char) :
    (tightenCommas s).head? = some ',' ↔ (s.dropWhile isSpace).head? = some ',' := by
  constructor
  . intro h
    obtain ⟨u, hu⟩ := List.head?_eq_some_iff.mp h
    rw [← dropWhile_tightenCommas, hu, List.dropWhile_cons_of_neg (by simp [isSpace_comma])]
    rfl
  . intro h
    induction s with
    | nil => cases h
    | cons c s ih =>
      by_cases hspace : isSpace c = true
      . rw [List.dropWhile_cons_of_pos hspace] at h
        rw [tightenCommas_cons_of_isSpace hspace, if_pos (ih h)]
        exact ih h
      . rw [List.dropWhile_cons_of_neg hspace, List.head?_cons, Option.some.injEq] at h
        rw [h, tightenCommas_cons]
        rfl

/--
A comma goes in front of the white space before it, and no other character does.
-/
theorem head?_tightenCommas (h : (s.dropWhile isSpace).head? ≠ some ',') :
    (tightenCommas s).head? = s.head? := by
  cases s with
  | nil => rfl
  | cons c s =>
    by_cases hspace : isSpace c = true
    . rw [List.dropWhile_cons_of_pos hspace, Ne, ← head?_tightenCommas_eq_comma_iff] at h
      rw [tightenCommas_cons_of_isSpace hspace, if_neg h]
      rfl
    . rw [List.dropWhile_cons_of_neg hspace, List.head?_cons, Ne, Option.some.injEq] at h
      rw [tightenCommas_cons_of_isInline (isInline_iff.mpr ⟨by simpa using hspace, h⟩)]
      rfl

theorem tuples_append_of_isWhite (h : IsWhite w) (s : List Char) : tuples (w ++ s) = tuples s := by
  induction w with
  | nil => rfl
  | cons c w ih =>
    have hc : isSpace c = true := h c List.mem_cons_self
    rw [← ih fun d hd => h d (List.mem_cons_of_mem c hd), List.cons_append]
    unfold tuples
    rw [tightenCommas_cons_of_isSpace hc]
    split
    . rfl
    . exact words_cons_of_isSpace hc _

theorem tuples_of_isWhite (h : IsWhite s) : tuples s = [] := by
  rw [← List.append_nil s, tuples_append_of_isWhite h]
  rfl

/--
A character becomes a part of the first tuple if no white space follows it, or if there is a comma on one
of the two sides of the white space.
-/
theorem tuples_joined (hc : isSpace c = false) (hd : (s.dropWhile isSpace).head? = some d)
    (h : c = ',' ∨ d = ',' ∨ s.head? = some d) :
    ∃ t ts, tuples s = t :: ts ∧ tuples (c :: s) = (c :: t) :: ts := by
  have hspace : isSpace d = false := isSpace_of_mem_head?_dropWhile d hd
  unfold tuples
  by_cases hcomma : c = ','
  . have hfirst := (dropWhile_tightenCommas s).trans hd
    have hstep : tightenCommas (c :: s) = c :: (tightenCommas s).dropWhile isSpace := by
      rw [hcomma]
      rfl
    have hwords := words_append_of_isWhite (isWhite_takeWhile (tightenCommas s))
      ((tightenCommas s).dropWhile isSpace)
    rw [List.takeWhile_append_dropWhile] at hwords
    rw [hstep, hwords]
    exact words_joined hc hfirst hspace
  . rw [tightenCommas_cons_of_isInline (isInline_iff.mpr ⟨hc, hcomma⟩)]
    apply words_joined hc _ hspace
    by_cases hd' : d = ','
    . rw [hd'] at hd ⊢
      exact (head?_tightenCommas_eq_comma_iff s).mpr hd
    . rw [head?_tightenCommas]
      . exact (h.resolve_left hcomma).resolve_left hd'
      . rw [hd]
        simpa using hd'

/--
A character that is no comma is a tuple of its own if white space follows it, and a tuple that does not
begin with a comma.
-/
theorem tuples_apart (hc : isInline c = true) (hs : ∀ d ∈ s.head?, isSpace d = true)
    (hfirst : (s.dropWhile isSpace).head? ≠ some ',') : tuples (c :: s) = [c] :: tuples s := by
  unfold tuples
  rw [tightenCommas_cons_of_isInline hc]
  apply words_apart (isInline_iff.mp hc).1
  rw [head?_tightenCommas hfirst]
  exact hs

theorem tuples_cons_of_isWhite (hc : isSpace c = false) (hs : IsWhite s) : tuples (c :: s) = [[c]] := by
  have hnone : s.dropWhile isSpace = [] := List.dropWhile_eq_nil_iff.mpr hs
  by_cases hcomma : c = ','
  . have hdrop : (tightenCommas s).dropWhile isSpace = [] := by
      rw [← List.head?_eq_none_iff, dropWhile_tightenCommas, hnone]
      rfl
    have hstep : tightenCommas (c :: s) = [c] := by
      rw [hcomma, tightenCommas_cons]
      unfold tightenCommas.step
      rw [if_pos rfl, hdrop]
    unfold tuples
    rw [hstep]
    exact words_apart hc (by simp)
  . rw [tuples_apart (isInline_iff.mpr ⟨hc, hcomma⟩) _ (by simp [hnone]), tuples_of_isWhite hs]
    intro d hd
    exact hs d (List.mem_of_mem_head? hd)

end First

section Gaps

variable {c d : Char} {s piece tail : List Char} {pieces : List (List Char)}

theorem IsGapless.of_cons (h : IsGapless (c :: s)) : IsGapless s := by
  rintro before gap after rfl hgap
  obtain ⟨d, hd, hinline⟩ := hgap.before
  apply h (c :: before) gap after rfl
  exact ⟨hgap.ne_nil, hgap.isWhite, ⟨d, List.mem_getLast?_cons hd, hinline⟩, hgap.after⟩

theorem IsGapless.joined (h : IsGapless (c :: s)) (hc : isSpace c = false)
    (hd : (s.dropWhile isSpace).head? = some d) : c = ',' ∨ d = ',' ∨ s.head? = some d := by
  by_contra hnone
  simp only [not_or] at hnone
  obtain ⟨hcomma, hcomma', hhead⟩ := hnone
  have hspace : isSpace d = false := isSpace_of_mem_head?_dropWhile d hd
  have hs := List.takeWhile_append_dropWhile (p := isSpace) (l := s)
  apply h [c] (s.takeWhile isSpace) (s.dropWhile isSpace)
  . rw [List.append_assoc, hs]
    rfl
  . refine ⟨?_, isWhite_takeWhile s, ⟨c, rfl, isInline_iff.mpr ⟨hc, hcomma⟩⟩,
      ⟨d, hd, isInline_iff.mpr ⟨hspace, hcomma'⟩⟩⟩
    intro hnil
    rw [hnil, List.nil_append] at hs
    rw [hs] at hd
    exact hhead hd

theorem IsGap.of_cons {gap rest : List Char} (h : IsGap (c :: piece) gap rest) (hne : piece ≠ []) :
    IsGap piece gap rest := by
  obtain ⟨d, hd, hinline⟩ := h.before
  rw [List.getLast?_cons_of_ne_nil hne] at hd
  exact ⟨h.ne_nil, h.isWhite, ⟨d, hd, hinline⟩, h.after⟩

/--
Whether a text ends behind a piece or goes on with a gap.
-/
def Stops (piece tail : List Char) : Prop :=
  tail = [] ∨ ∃ gap rest, tail = gap ++ rest ∧ IsGap piece gap rest

theorem Stops.of_cons (h : Stops (c :: piece) tail) (hne : piece ≠ []) : Stops piece tail := by
  apply h.imp_right
  rintro ⟨gap, rest, heq, hgap⟩
  exact ⟨gap, rest, heq, hgap.of_cons hne⟩

theorem tuples_gap (hc : isInline c = true) {gap rest : List Char} (h : IsGap piece gap rest) :
    tuples (c :: (gap ++ rest)) = [c] :: tuples (gap ++ rest) := by
  obtain ⟨d, hd, hinline⟩ := h.after
  obtain ⟨hspace, hcomma⟩ := isInline_iff.mp hinline
  have hfirst : (gap ++ rest).dropWhile isSpace = rest := by
    rw [List.dropWhile_append, List.dropWhile_eq_nil_iff.mpr h.isWhite]
    apply dropWhile_of_head?
    rw [hd]
    simpa using hspace
  apply tuples_apart hc
  . intro e he
    rw [List.head?_append_of_ne_nil _ h.ne_nil] at he
    exact h.isWhite e (List.mem_of_mem_head? he)
  . rw [hfirst, hd]
    simpa using hcomma

theorem tuples_last_character (hc : isSpace c = false) (hpiece : IsWhite piece)
    (hstops : Stops (c :: piece) tail) : tuples (c :: piece ++ tail) = [c] :: tuples tail := by
  rcases hstops with rfl | ⟨gap, rest, rfl, hgap⟩
  . rw [List.append_nil]
    exact tuples_cons_of_isWhite hc hpiece
  . -- the piece ends with the character in front of the gap, so that it has no other one
    obtain ⟨d, hd, hinline⟩ := hgap.before
    cases piece with
    | nil =>
      cases hd
      rw [List.singleton_append]
      exact tuples_gap hinline hgap
    | cons e piece =>
      rw [List.getLast?_cons_cons] at hd
      exact absurd hpiece (not_isWhite_of_isInline (List.mem_of_getLast? hd) hinline)

/--
A piece without gaps is one tuple, if it stands at the end of the text or in front of a gap.
-/
theorem tuples_piece (hgapless : IsGapless piece) (hwhite : ¬ IsWhite piece)
    (hstops : Stops piece tail) : tuples (piece ++ tail) = unspaced piece :: tuples tail := by
  induction piece with
  | nil => exact absurd .nil hwhite
  | cons c piece ih =>
    by_cases hrest : IsWhite piece
    . have hc : isSpace c = false := by
        by_contra hspace
        apply hwhite
        exact List.forall_mem_cons.mpr ⟨by simpa using hspace, hrest⟩
      rw [unspaced_cons hc, unspaced_of_isWhite hrest]
      exact tuples_last_character hc hrest hstops
    . obtain ⟨d, hd⟩ := exists_head?_dropWhile hrest
      have hne : piece ≠ [] := by
        rintro rfl
        exact hrest .nil
      specialize ih hgapless.of_cons hrest (hstops.of_cons hne)
      by_cases hc : isSpace c = true
      . have hskip := tuples_append_of_isWhite (List.forall_mem_singleton.mpr hc) (piece ++ tail)
        rw [unspaced_cons_of_isSpace hc, ← ih]
        exact hskip
      . rw [Bool.not_eq_true] at hc
        have hjoint : c = ',' ∨ d = ',' ∨ (piece ++ tail).head? = some d := by
          rw [List.head?_append_of_ne_nil _ hne]
          exact hgapless.joined hc hd
        obtain ⟨t, ts, ht, hjoined⟩ := tuples_joined hc (head?_dropWhile_append hd tail) hjoint
        rw [ih, List.cons.injEq] at ht
        obtain ⟨rfl, rfl⟩ := ht
        rw [unspaced_cons hc]
        exact hjoined

/--
The pieces of a text are its tuples, with the white space in them that does not cut.
-/
theorem Cut.tuples_eq (h : Cut s pieces) : tuples s = pieces.map unspaced := by
  induction h with
  | blank hwhite => exact tuples_of_isWhite hwhite
  | @last piece hgapless hwhite =>
    have hpiece := tuples_piece hgapless hwhite (Or.inl rfl)
    rw [List.append_nil] at hpiece
    exact hpiece
  | @gap piece gap rest pieces hgapless hgap _ ih =>
    obtain ⟨c, hc, hinline⟩ := hgap.before
    have hwhite : ¬ IsWhite piece := not_isWhite_of_isInline (List.mem_of_getLast? hc) hinline
    rw [List.append_assoc, tuples_piece hgapless hwhite (Or.inr ⟨gap, rest, rfl, hgap⟩),
      tuples_append_of_isWhite hgap.isWhite, ih, List.map_cons]

/--
White space beside a comma does not cut, however much of it there is.
-/
example : tuples " 1 ,\t2 3,4 , \n,5 ".toList = ["1,2".toList, "3,4,,5".toList] := by
  decide

theorem Cut.eq_nil_iff (h : Cut s pieces) : pieces = [] ↔ IsWhite s := by
  cases h with
  | blank hwhite => exact iff_of_true rfl hwhite
  | last _ hwhite => exact iff_of_false (List.cons_ne_nil _ _) hwhite
  | gap _ hgap _ =>
    obtain ⟨c, hc, hinline⟩ := hgap.after
    refine iff_of_false (List.cons_ne_nil _ _) (not_isWhite_of_isInline ?_ hinline)
    exact List.mem_append_right _ (List.mem_of_mem_head? hc)

theorem Cut.unspaced_eq (h : Cut s pieces) : (pieces.map unspaced).flatten = unspaced s := by
  induction h with
  | blank hwhite => exact (unspaced_of_isWhite hwhite).symm
  | last => simp
  | gap _ hgap _ ih =>
    rw [List.map_cons, List.flatten_cons, ih, unspaced_append, unspaced_append,
      unspaced_of_isWhite hgap.isWhite, List.append_nil]

theorem exists_gap_of_not (h : ¬ IsGapless s) :
    ∃ before gap after, s = before ++ gap ++ after ∧ IsGap before gap after := by
  unfold IsGapless at h
  simpa only [not_forall, not_not, exists_prop] using h

theorem exists_first_gap {before gap after : List Char} (h : IsGap before gap after) :
    ∃ piece gap' rest, piece ++ gap' ++ rest = before ++ gap ++ after ∧ IsGapless piece
      ∧ IsGap piece gap' rest := by
  by_cases hgapless : IsGapless before
  . exact ⟨before, gap, after, rfl, hgapless, h⟩
  . obtain ⟨before', gap', after', hsplit, h'⟩ := exists_gap_of_not hgapless
    obtain ⟨c, hc, hinline⟩ := h'.after
    have hearlier : IsGap before' gap' (after' ++ (gap ++ after)) := by
      refine ⟨h'.ne_nil, h'.isWhite, h'.before, c, ?_, hinline⟩
      rw [List.head?_append, hc]
      rfl
    have hshorter : before'.length < before.length := by
      have := List.length_pos_iff.mpr h'.ne_nil
      rw [hsplit, List.length_append, List.length_append]
      omega
    obtain ⟨piece, gap'', rest, heq, hfirst⟩ := exists_first_gap hearlier
    refine ⟨piece, gap'', rest, ?_, hfirst⟩
    rw [heq, hsplit]
    simp
termination_by before.length

theorem exists_cut (s : List Char) : ∃ pieces, Cut s pieces := by
  by_cases hwhite : IsWhite s
  . exact ⟨[], .blank hwhite⟩
  . by_cases hgapless : IsGapless s
    . exact ⟨[s], .last hgapless hwhite⟩
    . obtain ⟨before, gap, after, hsplit, hgap⟩ := exists_gap_of_not hgapless
      obtain ⟨piece, gap', rest, heq, hpiece, hgap'⟩ := exists_first_gap hgap
      have hshorter : rest.length < s.length := by
        have := List.length_pos_iff.mpr hgap'.ne_nil
        rw [hsplit, ← heq, List.length_append, List.length_append]
        omega
      obtain ⟨pieces, hpieces⟩ := exists_cut rest
      refine ⟨piece :: pieces, ?_⟩
      rw [hsplit, ← heq]
      exact .gap hpiece hgap' hpieces
termination_by s.length

theorem tuples_eq_nil_iff : tuples s = [] ↔ IsWhite s := by
  obtain ⟨pieces, hcut⟩ := exists_cut s
  rw [hcut.tuples_eq, List.map_eq_nil_iff]
  exact hcut.eq_nil_iff

end Gaps

/--
How tuples are sorted into positions and those that are skipped, which stay as they are.
-/
inductive Sorts : List (List Char) → List Position → List String → Prop where
  | nil : Sorts [] [] []
  | position {t : List Char} {p : Position} {ts : List (List Char)} {positions : List Position}
    {skipped : List String} : p.IsSpelled t → Sorts ts positions skipped →
      Sorts (t :: ts) (p :: positions) skipped
  | skipped {t : List Char} {ts : List (List Char)} {positions : List Position} {skipped : List String} :
    (∀ p : Position, ¬ p.IsSpelled t) → Sorts ts positions skipped →
      Sorts (t :: ts) positions (String.ofList t :: skipped)

theorem sorts_readPositions (s : List Char) :
    Sorts (tuples s) (readPositions s).1 (readPositions s).2 := by
  unfold readPositions
  dsimp only
  induction tuples s with
  | nil => exact .nil
  | cons t ts ih =>
    cases ht : Position.ofTuple? t with
    | some p =>
      rw [List.filterMap_cons_some ht, List.filter_cons_of_neg (by simp [ht])]
      exact .position (Position.ofTuple?_eq_some_iff.mp ht) ih
    | none =>
      rw [List.filterMap_cons_none ht, List.filter_cons_of_pos (by simp [ht]), List.map_cons]
      refine .skipped ?_ ih
      intro p hp
      rw [Position.ofTuple?_eq_some_iff.mpr hp] at ht
      cases ht

/--
A text that fresh coordinates receive can be cut at its gaps. However that is done, the pieces without the
white space that is left in them make up the text without its white space, and they are sorted into the
positions of the coordinates and the tuples that are skipped.
-/
theorem Element.setText_coordinates (id : Nat) (text : String) :
    ∃ e positions skipped, create? id .coordinates = some e
      ∧ (e.setText text).body = .coordinates positions skipped
      ∧ (∃ pieces, Cut text.toList pieces)
      ∧ ∀ pieces, Cut text.toList pieces →
        Sorts (pieces.map unspaced) positions skipped
          ∧ (pieces.map unspaced).flatten = unspaced text.toList
          ∧ positions.length + skipped.length = pieces.length := by
  refine ⟨_, _, _, rfl, body_setText_coordinates, exists_cut _, ?_⟩
  intro pieces hcut
  have hsorts := sorts_readPositions text.toList
  rw [hcut.tuples_eq] at hsorts
  refine ⟨hsorts, hcut.unspaced_eq, ?_⟩
  rw [length_readPositions, hcut.tuples_eq, List.length_map]

end KmlTree
