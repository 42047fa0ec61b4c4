import KmlTree.Element.Emission
import KmlTree.Proofs.Text.Space
import Mathlib.Data.List.Basic
import Mathlib.Data.List.Forall2

/-!
This module contains the reading of the text that positions are written as
(`readPositions_positionsText`).
-/

namespace KmlTree

theorem cutAt_cons (p : Char → Bool) (c : Char) (s : List Char) :
    cutAt p (c :: s) = cutAt.step p c (cutAt p s) := by
  rfl

/--
The first piece goes to the first cut, and if there is nothing then there is no other piece.
-/
theorem exists_cutAt (p : Char → Bool) (s : List Char) :
    ∃ pieces, cutAt p s = s.takeWhile (fun c => !p c) :: pieces ∧ (s = [] → pieces = []) := by
  induction s with
  | nil => exact ⟨[], rfl, fun _ => rfl⟩
  | cons c s ih =>
    obtain ⟨pieces, hpieces, _⟩ := ih
    rw [cutAt_cons, hpieces]
    unfold cutAt.step
    split
    . next hc => exact ⟨_, by rw [List.takeWhile_cons_of_neg (by simp [hc])], fun h => by cases h⟩
    . next hc => exact ⟨_, by rw [List.takeWhile_cons_of_pos (by simp [hc])], fun h => by cases h⟩

theorem eq_false_of_mem_cutAt (p : Char → Bool) (s : List Char) :
    ∀ piece ∈ cutAt p s, ∀ c ∈ piece, p c = false := by
  induction s with
  | nil => simp [cutAt]
  | cons c s ih =>
    obtain ⟨pieces, hpieces, _⟩ := exists_cutAt p s
    rw [cutAt_cons, hpieces]
    rw [hpieces] at ih
    unfold cutAt.step
    split
    . rw [List.forall_mem_cons]
      exact ⟨by simp, ih⟩
    . next hc =>
      rw [List.forall_mem_cons] at ih ⊢
      refine ⟨?_, ih.2⟩
      rw [List.forall_mem_cons]
      exact ⟨by simpa using hc, ih.1⟩

theorem cutAt_eq_splitOnP (p : Char → Bool) (s : List Char) : cutAt p s = s.splitOnP p := by
  induction s with
  | nil => rfl
  | cons c s ih =>
    rw [cutAt_cons]
    rw [List.splitOnP_cons_eq_if_modifyHead]
    rw [← ih]
    unfold cutAt.step
    split
    . rfl
    . split
      . next hnil =>
        rw [ih] at hnil
        exact absurd hnil (List.splitOnP_ne_nil p s)
      . next hcons =>
        rw [hcons]
        rfl

theorem cutAt_intercalate {p : Char → Bool} {separator : Char} {pieces : List (List Char)}
    (hseparator : p separator = true) (hne : pieces ≠ [])
    (hpieces : ∀ piece ∈ pieces, ∀ c ∈ piece, p c = false) :
    cutAt p ([separator].intercalate pieces) = pieces := by
  rw [cutAt_eq_splitOnP]
  induction pieces with
  | nil => exact absurd rfl hne
  | cons piece pieces ih =>
    have hpiece := hpieces piece List.mem_cons_self
    cases pieces with
    | nil =>
      rw [List.intercalate_singleton]
      apply List.splitOnP_eq_singleton
      exact hpiece
    | cons piece' pieces =>
      rw [List.intercalate_cons_cons]
      rw [List.append_assoc]
      rw [List.singleton_append]
      rw [List.splitOnP_append_cons_of_forall_mem hpiece separator hseparator]
      rw [ih]
      . simp
      . intro q hq
        apply hpieces
        exact List.mem_cons_of_mem piece hq

theorem mem_intercalate {separator c : Char} {pieces : List (List Char)}
    (h : c ∈ [separator].intercalate pieces) : c = separator ∨ ∃ piece ∈ pieces, c ∈ piece := by
  induction pieces with
  | nil => cases h
  | cons piece pieces ih =>
    cases pieces with
    | nil =>
      rw [List.intercalate_singleton] at h
      exact Or.inr ⟨piece, by simp, h⟩
    | cons piece' pieces =>
      rw [List.intercalate_cons_cons] at h
      simp only [List.mem_append, List.mem_singleton, or_assoc] at h
      rcases h with h | h | h
      . exact Or.inr ⟨piece, by simp, h⟩
      . exact Or.inl h
      . apply Or.imp_right _ (ih h)
        intro hin
        obtain ⟨q, hq, hc⟩ := hin
        exact ⟨q, List.mem_cons_of_mem piece hq, hc⟩

theorem head?_intercalate {separator : Char} {piece : List Char} (pieces : List (List Char))
    (h : piece ≠ []) : ([separator].intercalate (piece :: pieces)).head? = piece.head? := by
  cases pieces with
  | nil => rw [List.intercalate_singleton]
  | cons piece' pieces =>
    rw [List.intercalate_cons_cons]
    rw [List.append_assoc]
    rw [List.head?_append_of_ne_nil piece h]

theorem getLast?_intercalate {separator : Char} {pieces : List (List Char)}
    (h : ∀ piece ∈ pieces, piece ≠ []) :
    ([separator].intercalate pieces).getLast? = pieces.getLast?.bind List.getLast? := by
  induction pieces with
  | nil => rfl
  | cons piece pieces ih =>
    cases pieces with
    | nil =>
      rw [List.intercalate_singleton]
      rfl
    | cons piece' pieces =>
      rw [List.intercalate_cons_cons]
      have hne : [separator].intercalate (piece' :: pieces) ≠ [] := by
        have hpiece' : piece' ≠ [] := h piece' (by simp)
        intro hnil
        have hhead := @head?_intercalate separator piece' pieces hpiece'
        rw [hnil] at hhead
        exact hpiece' (List.head?_eq_none_iff.mp hhead.symm)
      rw [List.getLast?_append_of_ne_nil _ hne]
      rw [ih]
      . rw [List.getLast?_cons_cons]
      . intro q hq
        apply h
        exact List.mem_cons_of_mem piece hq

structure IsWord (w : List Char) : Prop where
  ne_nil : w ≠ []
  notSpace : ∀ c ∈ w, isSpace c = false

/--
Whether two words stay apart with a space between them. A comma beside the space would join them.
-/
structure Apart (v w : List Char) : Prop where
  last : v.getLast? ≠ some ','
  first : w.head? ≠ some ','

/--
Whether a word stays apart from whatever words are around it.
-/
structure IsSeparate (w : List Char) : Prop extends IsWord w where
  first : w.head? ≠ some ','
  last : w.getLast? ≠ some ','

theorem IsSeparate.apart {v w : List Char} (hv : IsSeparate v) (hw : IsSeparate w) : Apart v w :=
  ⟨hv.last, hw.first⟩

theorem pairwise_apart {ws : List (List Char)} (h : ∀ w ∈ ws, IsSeparate w) : ws.Pairwise Apart := by
  induction ws with
  | nil => exact List.Pairwise.nil
  | cons w ws ih =>
    rw [List.forall_mem_cons] at h
    apply List.Pairwise.cons
    . intro w' hw'
      exact h.1.apart (h.2 w' hw')
    . exact ih h.2

theorem words_intercalate {ws : List (List Char)} (h : ∀ w ∈ ws, IsWord w) :
    words ([' '].intercalate ws) = ws := by
  cases ws with
  | nil => rfl
  | cons w ws =>
    unfold words
    rw [cutAt_intercalate (by decide) (by simp)]
    . rw [List.filter_eq_self]
      intro w' hw'
      have hne := (h w' hw').ne_nil
      simp [hne]
    . intro w' hw'
      exact (h w' hw').notSpace

theorem dropWhile_of_head? {s : List Char} (h : ∀ c ∈ s.head?, isSpace c = false) :
    s.dropWhile isSpace = s := by
  cases s with
  | nil => rfl
  | cons c s => rw [List.dropWhile_cons_of_neg (by simp [h c rfl])]

theorem tightenCommas_cons (c : Char) (s : List Char) :
    tightenCommas (c :: s) = tightenCommas.step c (tightenCommas s) := by
  rfl

theorem tightenCommas_append {w s : List Char} (h : ∀ c ∈ w, isSpace c = false)
    (hjoint : w.getLast? = some ',' → ∀ c ∈ s.head?, isSpace c = false) (hs : tightenCommas s = s) :
    tightenCommas (w ++ s) = w ++ s := by
  induction w with
  | nil => exact hs
  | cons c w ih =>
    rw [List.forall_mem_cons] at h
    have htail : tightenCommas (w ++ s) = w ++ s := by
      apply ih h.2
      intro hcomma
      apply hjoint
      exact List.mem_getLast?_cons hcomma
    rw [List.cons_append]
    rw [tightenCommas_cons]
    rw [htail]
    unfold tightenCommas.step
    split
    . next hcomma =>
      have hhead : ∀ d ∈ (w ++ s).head?, isSpace d = false := by
        cases w with
        | nil =>
          apply hjoint
          rw [hcomma]
          rfl
        | cons d w =>
          intro d' hd'
          rw [← Option.mem_some.mp hd']
          exact h.2 d List.mem_cons_self
      rw [hcomma, dropWhile_of_head? hhead]
    . simp [h.1]

theorem tightenCommas_intercalate {ws : List (List Char)} (h : ∀ w ∈ ws, IsWord w)
    (hapart : ws.Pairwise Apart) : tightenCommas ([' '].intercalate ws) = [' '].intercalate ws := by
  induction ws with
  | nil => rfl
  | cons w ws ih =>
    rw [List.forall_mem_cons] at h
    obtain ⟨hw, hws⟩ := h
    cases ws with
    | nil =>
      have happend := tightenCommas_append hw.notSpace (s := []) (by simp) rfl
      rw [List.append_nil] at happend
      rw [List.intercalate_singleton]
      exact happend
    | cons w' ws =>
      rw [List.pairwise_cons] at hapart
      obtain ⟨hfirst, hrest⟩ := hapart
      have hjoint : Apart w w' := hfirst w' List.mem_cons_self
      have hhead : ([' '].intercalate (w' :: ws)).head? ≠ some ',' := by
        rw [head?_intercalate ws (hws w' List.mem_cons_self).ne_nil]
        exact hjoint.first
      have htail : tightenCommas (' ' :: [' '].intercalate (w' :: ws))
          = ' ' :: [' '].intercalate (w' :: ws) := by
        rw [tightenCommas_cons]
        rw [ih hws hrest]
        unfold tightenCommas.step
        simp [hhead]
      rw [List.intercalate_cons_cons]
      rw [List.append_assoc]
      rw [List.singleton_append]
      exact tightenCommas_append hw.notSpace (fun hcomma => absurd hcomma hjoint.last) htail

/--
Words that stay apart are the tuples of the text in which they are written behind each other.
-/
theorem tuples_intercalate {ws : List (List Char)} (h : ∀ w ∈ ws, IsWord w)
    (hapart : ws.Pairwise Apart) : tuples ([' '].intercalate ws) = ws := by
  unfold tuples
  rw [tightenCommas_intercalate h hapart]
  exact words_intercalate h

/--
Whether a character can stand in the text of a double, which has neither white space nor commas in it.
-/
def isInline (c : Char) : Bool := !isSpace c && c != ','

theorem isInline_iff {c : Char} : isInline c = true ↔ isSpace c = false ∧ c ≠ ',' := by
  unfold isInline
  simp

theorem isInline_of_isDigit {c : Char} (h : c.isDigit = true) : isInline c = true := by
  have hcomma : c ≠ ',' := by
    intro heq
    rw [heq] at h
    cases h
  exact isInline_iff.mpr ⟨isSpace_of_isDigit h, hcomma⟩

theorem isInline_positional (d : Decimal) : ∀ c ∈ d.positional, isInline c = true := by
  have hdigits : ∀ c ∈ Nat.toDigits 10 d.coefficient, isInline c = true := by
    intro c hc
    apply isInline_of_isDigit
    exact Nat.isDigit_of_mem_toDigits (by omega) (by omega) hc
  have hzeros (n : Nat) : ∀ c ∈ List.replicate n '0', isInline c = true := by
    intro c hc
    rw [List.eq_of_mem_replicate hc]
    decide
  unfold Decimal.positional
  dsimp only
  split
  . intro c hc
    cases List.mem_append.mp hc with
    | inl hc => exact hdigits c hc
    | inr hc => exact hzeros _ c hc
  . next e _ =>
    generalize hpadded : List.replicate (e + 1 + 1 - (Nat.toDigits 10 d.coefficient).length) '0'
      ++ Nat.toDigits 10 d.coefficient = padded
    have hinline : ∀ c ∈ padded, isInline c = true := by
      intro c hc
      rw [← hpadded] at hc
      cases List.mem_append.mp hc with
      | inl hc => exact hzeros _ c hc
      | inr hc => exact hdigits c hc
    split
    . intro c hc
      apply hinline
      exact List.mem_of_mem_take hc
    . intro c hc
      simp only [List.mem_append, List.mem_cons, List.mem_reverse] at hc
      rcases hc with hc | hc | hc
      . apply hinline
        exact List.mem_of_mem_take hc
      . rw [hc]
        decide
      . apply hinline
        apply List.mem_of_mem_drop
        have hsublist := List.dropWhile_sublist (· == '0')
          (l := (padded.drop (padded.length - (e + 1))).reverse)
        exact List.mem_reverse.mp (hsublist.subset hc)

theorem isInline_decimalText (x : Float) : ∀ c ∈ (decimalText x).toList, isInline c = true := by
  have hsign (negative : Prop) [Decidable negative] :
      ∀ c ∈ (if negative then "-" else "").toList, isInline c = true := by
    split <;>
    . apply List.all_eq_true.mp
      decide
  have happend {s t : String} (hs : ∀ c ∈ s.toList, isInline c = true)
      (ht : ∀ c ∈ t.toList, isInline c = true) : ∀ c ∈ (s ++ t).toList, isInline c = true := by
    intro c hc
    rw [String.toList_append] at hc
    cases List.mem_append.mp hc with
    | inl hc => exact hs c hc
    | inr hc => exact ht c hc
  unfold decimalText
  dsimp only
  split
  . exact List.all_eq_true.mp (by decide)
  . split
    . exact happend (hsign _) (List.all_eq_true.mp (by decide))
    . split
      . exact happend (hsign _) (List.all_eq_true.mp (by decide))
      . apply happend (hsign _)
        rw [String.toList_ofList]
        exact isInline_positional _

theorem mapM_eq_some_iff {α β : Type} {f : α → Option β} {as : List α} {bs : List β} :
    as.mapM f = some bs ↔ List.Forall₂ (fun a b => f a = some b) as bs := by
  induction as generalizing bs with
  | nil => cases bs <;> simp
  | cons a as ih =>
    rw [List.mapM_cons]
    cases ha : f a with
    | none => cases bs <;> simp [ha]
    | some b =>
      cases has : as.mapM f with
      | none => cases bs <;> simp [ha, ← ih, has]
      | some bs' => cases bs <;> simp [ha, ← ih, has]

namespace Position

/--
Whether the text of each component is read as the component again.
-/
def IsExact (p : Position) : Prop :=
  ∀ x ∈ p.components, readDecimal? (decimalText x).toList = some x

instance (p : Position) : Decidable p.IsExact :=
  inferInstanceAs (Decidable (∀ x ∈ p.components, readDecimal? (decimalText x).toList = some x))

/--
Whether a tuple consists of the components of a position: two or three numbers with commas between them,
which are the longitude, the latitude and the altitude if there is one.
-/
def IsSpelled (p : Position) (t : List Char) : Prop :=
  ∃ components : List (List Char), t = [','].intercalate components ∧ (∀ text ∈ components, ',' ∉ text)
    ∧ List.Forall₂ (fun text x => readDecimal? text = some x) components p.components

variable {p : Position} {t : List Char}

theorem ofComponents?_components (p : Position) : ofComponents? p.components = some p := by
  obtain ⟨longitude, latitude, altitude⟩ := p
  cases altitude <;> rfl

theorem toList_tuple (p : Position) :
    p.tuple.toList = [','].intercalate (p.components.map fun x => (decimalText x).toList) := by
  unfold tuple
  rw [String.toList_intercalate]
  rw [List.map_map]
  rfl

theorem pieces_ne_nil (h : p.IsExact) :
    ∀ piece ∈ p.components.map fun x => (decimalText x).toList, piece ≠ [] := by
  intro piece hpiece
  obtain ⟨x, hx, rfl⟩ := List.mem_map.mp hpiece
  intro hnil
  have hread := h x hx
  rw [hnil] at hread
  cases hread

theorem isInline_pieces (p : Position) :
    ∀ piece ∈ p.components.map fun x => (decimalText x).toList, ∀ c ∈ piece, isInline c = true := by
  intro piece hpiece
  obtain ⟨x, _, rfl⟩ := List.mem_map.mp hpiece
  exact isInline_decimalText x

theorem ofComponents?_eq_some_iff {xs : List Float} :
    ofComponents? xs = some p ↔ xs = p.components := by
  constructor
  . intro h
    unfold ofComponents? at h
    split at h
    . cases h
      rfl
    . cases h
      rfl
    . cases h
  . rintro rfl
    exact ofComponents?_components p

theorem ofTuple?_eq_some_iff : ofTuple? t = some p ↔ p.IsSpelled t := by
  unfold ofTuple?
  rw [Option.bind_eq_bind, Option.bind_eq_some_iff]
  simp only [mapM_eq_some_iff, ofComponents?_eq_some_iff, exists_eq_right]
  constructor
  . intro h
    refine ⟨_, ?_, ?_, h⟩
    . rw [cutAt_eq_splitOnP]
      exact (List.intercalate_splitOn ',').symm
    . intro text htext hcomma
      have hnot := eq_false_of_mem_cutAt _ t text htext ',' hcomma
      cases hnot
  . rintro ⟨components, rfl, hcommas, h⟩
    rw [cutAt_intercalate (by decide)]
    . exact h
    . rintro rfl
      cases h
    . intro text htext c hc
      rw [beq_eq_false_iff_ne]
      rintro rfl
      exact hcommas text htext hc

theorem ofTuple?_tuple (h : p.IsExact) : ofTuple? p.tuple.toList = some p := by
  rw [ofTuple?_eq_some_iff]
  refine ⟨_, toList_tuple p, ?_, ?_⟩
  . intro piece hpiece hcomma
    exact (isInline_iff.mp (isInline_pieces p piece hpiece _ hcomma)).2 rfl
  . rw [List.forall₂_map_left_iff, List.forall₂_same]
    exact h

theorem isSeparate_tuple (h : p.IsExact) : IsSeparate p.tuple.toList := by
  have hne := pieces_ne_nil h
  have hinline := isInline_pieces p
  rw [toList_tuple]
  generalize hpieces : (p.components.map fun x => (decimalText x).toList) = pieces at hne hinline
  have hsome : pieces ≠ [] := by
    rw [← hpieces]
    simp [components]
  obtain ⟨piece, rest, rfl⟩ := List.exists_cons_of_ne_nil hsome
  have hpiece : piece ≠ [] := hne piece List.mem_cons_self
  have hhead := @head?_intercalate ',' piece rest hpiece
  refine ⟨⟨?_, ?_⟩, ?_, ?_⟩
  . intro hnil
    rw [hnil] at hhead
    exact hpiece (List.head?_eq_none_iff.mp hhead.symm)
  . intro c hc
    cases mem_intercalate hc with
    | inl hcomma =>
      rw [hcomma]
      decide
    | inr hin =>
      obtain ⟨q, hq, hc⟩ := hin
      exact (isInline_iff.mp (hinline q hq c hc)).1
  . rw [hhead]
    intro hcomma
    have hmem := List.mem_of_mem_head? hcomma
    exact (isInline_iff.mp (hinline piece List.mem_cons_self _ hmem)).2 rfl
  . rw [getLast?_intercalate hne]
    intro hcomma
    obtain ⟨q, hq, hcomma⟩ := Option.bind_eq_some_iff.mp hcomma
    have hmem := List.mem_of_getLast? hcomma
    exact (isInline_iff.mp (hinline q (List.mem_of_getLast? hq) _ hmem)).2 rfl

end Position

/--
The tuples that positions and other tuples are written as.
-/
def writtenTuples (positions : List Position) (skipped : List String) : List (List Char) :=
  positions.map (fun p => p.tuple.toList) ++ skipped.map String.toList

theorem toList_positionsText (positions : List Position) (skipped : List String) :
    (positionsText positions skipped).toList = [' '].intercalate (writtenTuples positions skipped) := by
  unfold positionsText writtenTuples
  rw [String.toList_intercalate, List.map_append, List.map_map]
  rfl

section Written

variable {positions : List Position} {skipped : List String}

theorem isWord_of_mem_writtenTuples (hexact : ∀ p ∈ positions, p.IsExact)
    (hskipped : ∀ t ∈ skipped, IsWord t.toList) : ∀ w ∈ writtenTuples positions skipped, IsWord w := by
  unfold writtenTuples
  intro w hw
  rw [List.mem_append, List.mem_map, List.mem_map] at hw
  rcases hw with ⟨p, hp, rfl⟩ | ⟨t, ht, rfl⟩
  . exact (Position.isSeparate_tuple (hexact p hp)).toIsWord
  . exact hskipped t ht

/--
What positions and other tuples are written as is read as the same positions and tuples, if no comma joins
two of them.
-/
theorem readPositions_writtenTuples (hexact : ∀ p ∈ positions, p.IsExact)
    (hwords : ∀ t ∈ skipped, IsWord t.toList)
    (hskipped : ∀ t ∈ skipped, Position.ofTuple? t.toList = none)
    (hapart : (writtenTuples positions skipped).Pairwise Apart) :
    readPositions (positionsText positions skipped).toList = (positions, skipped) := by
  have htuples : tuples (positionsText positions skipped).toList = writtenTuples positions skipped := by
    rw [toList_positionsText]
    exact tuples_intercalate (isWord_of_mem_writtenTuples hexact hwords) hapart
  have hread : ∀ p ∈ positions, Position.ofTuple? p.tuple.toList = some p := by
    intro p hp
    exact Position.ofTuple?_tuple (hexact p hp)
  have hpositions :
      (positions.map fun p => p.tuple.toList).filterMap Position.ofTuple? = positions := by
    rw [List.filterMap_map]
    exact (List.filterMap_congr (g := some) hread).trans List.filterMap_some
  have hnone : (skipped.map String.toList).filterMap Position.ofTuple? = [] := by
    rw [List.filterMap_map]
    exact List.filterMap_eq_nil_iff.mpr hskipped
  have hdropped : (positions.map fun p => p.tuple.toList).filter
      (fun t => (Position.ofTuple? t).isNone) = [] := by
    rw [List.filter_eq_nil_iff, List.forall_mem_map]
    intro p hp
    simp [hread p hp]
  have hkept : (skipped.map String.toList).filter (fun t => (Position.ofTuple? t).isNone)
      = skipped.map String.toList := by
    rw [List.filter_eq_self, List.forall_mem_map]
    intro t ht
    simp [hskipped t ht]
  unfold readPositions
  dsimp only
  rw [htuples]
  unfold writtenTuples
  rw [List.filterMap_append, hpositions, hnone, List.append_nil, List.filter_append, hdropped, hkept,
    List.nil_append, List.map_map]
  congr 1
  exact List.map_id'' (fun _ => String.ofList_toList) skipped

end Written

/--
What positions are written as is read as the same positions, and no tuple is left over.
-/
theorem readPositions_positionsText {positions : List Position} (h : ∀ p ∈ positions, p.IsExact) :
    readPositions (positionsText positions []).toList = (positions, []) := by
  apply readPositions_writtenTuples h (by simp) (by simp)
  unfold writtenTuples
  rw [List.map_nil, List.append_nil]
  apply pairwise_apart
  intro w hw
  obtain ⟨p, hp, rfl⟩ := List.mem_map.mp hw
  exact Position.isSeparate_tuple (h p hp)

end KmlTree
