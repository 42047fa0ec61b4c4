import KmlTree.Element.Content
import KmlTree.Proofs.Position
import Mathlib.Data.List.Chain

/-!
This module contains the tuples of a text of positions. Only the first of them can begin with a comma and
only the last can end with one, so that what is written of them is read as the same ones again, unless the
first comes behind a position (`Element.reads_written_iff`).
-/

namespace KmlTree

/--
Whether neither of two neighbours is a comma while the other one is white space.
-/
structure Tight (c d : Char) : Prop where
  before : isSpace c = true → d ≠ ','
  after : c = ',' → isSpace d = false

theorem isSpace_comma : isSpace ',' = false := by
  decide

theorem isSpace_of_mem_head?_dropWhile {s : List Char} : ∀ c ∈ (s.dropWhile isSpace).head?,
    isSpace c = false := by
  intro c hc
  have hstop := List.head?_dropWhile_not isSpace s
  rw [Option.mem_def.mp hc] at hstop
  simpa using hstop

theorem isChain_tightenCommas (s : List Char) : (tightenCommas s).IsChain Tight := by
  induction s with
  | nil => exact List.IsChain.nil
  | cons c s ih =>
    rw [tightenCommas_cons]
    unfold tightenCommas.step
    split
    . next hcomma =>
      rw [List.isChain_cons]
      refine ⟨?_, ih.suffix (List.dropWhile_suffix isSpace)⟩
      intro d hd
      refine ⟨?_, fun _ => isSpace_of_mem_head?_dropWhile d hd⟩
      rw [isSpace_comma]
      intro hspace
      cases hspace
    . next hcomma =>
      split
      . exact ih
      . next hkept =>
        rw [List.isChain_cons]
        refine ⟨?_, ih⟩
        intro d hd
        refine ⟨?_, fun heq => absurd heq hcomma⟩
        rintro hspace rfl
        apply hkept
        rw [hspace, Option.mem_def.mp hd]
        rfl

theorem head?_of_head?_takeWhile {p : Char → Bool} {s : List Char} {c : Char}
    (h : (s.takeWhile p).head? = some c) : s.head? = some c := by
  cases s with
  | nil => cases h
  | cons d s =>
    by_cases hd : p d = true
    . rw [List.takeWhile_cons_of_pos hd] at h
      exact h
    . rw [List.takeWhile_cons_of_neg hd] at h
      cases h

/--
White space that is not beside a comma cuts a text into pieces that stay apart.
-/
theorem isChain_cutAt {s : List Char} (h : s.IsChain Tight) : (cutAt isSpace s).IsChain Apart := by
  induction s with
  | nil => exact List.IsChain.singleton _
  | cons c s ih =>
    rw [List.isChain_cons] at h
    obtain ⟨htight, hs⟩ := h
    specialize ih hs
    obtain ⟨pieces, hpieces, hnil⟩ := exists_cutAt isSpace s
    rw [cutAt_cons, hpieces]
    rw [hpieces] at ih
    unfold cutAt.step
    split
    . next hspace =>
      rw [List.isChain_cons_cons]
      refine ⟨⟨by simp, ?_⟩, ih⟩
      intro hcomma
      exact (htight ',' (head?_of_head?_takeWhile hcomma)).before hspace rfl
    . next hspace =>
      rw [List.isChain_cons] at ih ⊢
      obtain ⟨hfirst, hrest⟩ := ih
      refine ⟨?_, hrest⟩
      intro piece hpiece
      refine ⟨?_, (hfirst piece hpiece).first⟩
      cases htake : s.takeWhile (fun c => !isSpace c) with
      | cons d taken =>
        rw [List.getLast?_cons_cons, ← htake]
        exact (hfirst piece hpiece).last
      | nil =>
        -- the piece is one character, and white space follows it
        intro hcomma
        cases s with
        | nil =>
          rw [hnil rfl] at hpiece
          cases hpiece
        | cons d s =>
          have hd := (htight d rfl).after (Option.some.inj hcomma)
          rw [List.takeWhile_cons_of_pos (by simp [hd])] at htake
          cases htake

theorem Apart.trans {u v w : List Char} (h : Apart u v) (h' : Apart v w) : Apart u w :=
  ⟨h.last, h'.first⟩

instance : Trans Apart Apart Apart := ⟨Apart.trans⟩

section Tuples

variable {s : List Char}

theorem pairwise_tuples (s : List Char) : (tuples s).Pairwise Apart := by
  have hpieces : (cutAt isSpace (tightenCommas s)).Pairwise Apart :=
    List.isChain_iff_pairwise.mp (isChain_cutAt (isChain_tightenCommas s))
  unfold tuples words
  exact hpieces.sublist List.filter_sublist

theorem isWord_of_mem_tuples : ∀ t ∈ tuples s, IsWord t := by
  intro t ht
  unfold tuples words at ht
  rw [List.mem_filter] at ht
  obtain ⟨hpiece, hne⟩ := ht
  constructor
  . simpa using hne
  . exact eq_false_of_mem_cutAt isSpace _ t hpiece

theorem dropWhile_tightenCommas (s : List Char) :
    ((tightenCommas s).dropWhile isSpace).head? = (s.dropWhile isSpace).head? := by
  induction s with
  | nil => rfl
  | cons c s ih =>
    rw [tightenCommas_cons]
    unfold tightenCommas.step
    split
    . next hcomma =>
      rw [hcomma]
      rfl
    . split
      . next hcomma hspace =>
        rw [Bool.and_eq_true, beq_iff_eq] at hspace
        rw [List.dropWhile_cons_of_pos hspace.1]
        exact ih
      . by_cases hspace : isSpace c = true
        . rw [List.dropWhile_cons_of_pos hspace, List.dropWhile_cons_of_pos hspace]
          exact ih
        . rw [List.dropWhile_cons_of_neg hspace, List.dropWhile_cons_of_neg hspace]
          rfl

theorem head?_words (s : List Char) :
    (words s).head?.bind List.head? = (s.dropWhile isSpace).head? := by
  induction s with
  | nil => rfl
  | cons c s ih =>
    obtain ⟨pieces, hpieces, _⟩ := exists_cutAt isSpace s
    unfold words at ih ⊢
    rw [cutAt_cons]
    unfold cutAt.step
    split
    . next hspace =>
      rw [List.dropWhile_cons_of_pos hspace, List.filter_cons_of_neg (by simp)]
      exact ih
    . next hspace =>
      rw [List.dropWhile_cons_of_neg hspace, hpieces]
      dsimp only
      rw [List.filter_cons_of_pos (by simp)]
      rfl

theorem head?_tuples (s : List Char) :
    (tuples s).head?.bind List.head? = (s.dropWhile isSpace).head? := by
  unfold tuples
  rw [head?_words]
  apply dropWhile_tightenCommas

end Tuples

section Joined

variable {v w : List Char} {vs ws : List (List Char)}

theorem tightenCommas_congr {s t : List Char} (v : List Char) (h : tightenCommas s = tightenCommas t) :
    tightenCommas (v ++ s) = tightenCommas (v ++ t) := by
  unfold tightenCommas at h ⊢
  rw [List.foldr_append, List.foldr_append, h]

theorem intercalate_append_cons (v w : List Char) (ws : List (List Char)) :
    [' '].intercalate ((v ++ w) :: ws) = v ++ [' '].intercalate (w :: ws) := by
  cases ws with
  | nil => simp
  | cons w' ws => simp [List.intercalate_cons_cons]

/--
A word that begins with a comma is read as a part of the one in front of it.
-/
theorem tuples_intercalate_joined (hw : w.head? = some ',') :
    tuples ([' '].intercalate (vs ++ v :: w :: ws)) = tuples ([' '].intercalate (vs ++ (v ++ w) :: ws)) := by
  unfold tuples
  congr 1
  induction vs with
  | nil =>
    obtain ⟨w, rfl⟩ := List.head?_eq_some_iff.mp hw
    have hrest : [' '].intercalate ((',' :: w) :: ws) = ',' :: [' '].intercalate (w :: ws) :=
      intercalate_append_cons [','] w ws
    rw [List.nil_append, List.nil_append, List.intercalate_cons_cons, intercalate_append_cons, hrest,
      List.append_assoc]
    apply tightenCommas_congr
    rfl
  | cons u vs ih =>
    rw [List.cons_append, List.cons_append, List.intercalate_cons_of_ne_nil (by simp),
      List.intercalate_cons_of_ne_nil (by simp)]
    apply tightenCommas_congr
    apply ih

theorem pairwise_joined (hvs : ∀ u ∈ vs, IsSeparate u) (hv : IsSeparate v)
    (hws : (w :: ws).Pairwise Apart) (hne : w ≠ []) : (vs ++ (v ++ w) :: ws).Pairwise Apart := by
  rw [List.pairwise_cons] at hws
  obtain ⟨hw, hws⟩ := hws
  have hfirst : (v ++ w).head? ≠ some ',' := by
    rw [List.head?_append_of_ne_nil v hv.ne_nil]
    exact hv.first
  rw [List.pairwise_append]
  refine ⟨pairwise_apart hvs, ?_, ?_⟩
  . rw [List.pairwise_cons]
    refine ⟨?_, hws⟩
    intro u hu
    constructor
    . rw [List.getLast?_append_of_ne_nil v hne]
      exact (hw u hu).last
    . exact (hw u hu).first
  . intro u hu t ht
    constructor
    . exact (hvs u hu).last
    . cases List.mem_cons.mp ht with
      | inl heq =>
        rw [heq]
        exact hfirst
      | inr hmem => exact (hw t hmem).first

end Joined

theorem Position.ofTuple?_eq_none {t : List Char} (h : t.head? = some ',') : ofTuple? t = none := by
  obtain ⟨t, rfl⟩ := List.head?_eq_some_iff.mp h
  have hcut : cutAt (· == ',') (',' :: t) = [] :: cutAt (· == ',') t := by
    rfl
  unfold ofTuple?
  rw [hcut, List.mapM_cons]
  rfl

section Again

variable {s : List Char}

/--
Whether the first character of a text that is not white space is a comma.
-/
def beginsWithComma (s : List Char) : Bool := (s.dropWhile isSpace).head? == some ','

theorem length_readPositions (s : List Char) :
    (readPositions s).1.length + (readPositions s).2.length = (tuples s).length := by
  unfold readPositions
  dsimp only
  rw [List.length_map]
  induction tuples s with
  | nil => rfl
  | cons t ts ih =>
    cases hread : Position.ofTuple? t with
    | none =>
      rw [List.filterMap_cons_none hread, List.filter_cons_of_pos (by simp [hread]), List.length_cons,
        List.length_cons]
      omega
    | some p =>
      rw [List.filterMap_cons_some hread, List.filter_cons_of_neg (by simp [hread]), List.length_cons,
        List.length_cons]
      omega

theorem head?_ne_of_mem_tuples (h : beginsWithComma s = false) : ∀ t ∈ tuples s, t.head? ≠ some ',' := by
  unfold beginsWithComma at h
  rw [← head?_tuples] at h
  have hapart := pairwise_tuples s
  generalize tuples s = ts at h hapart
  cases ts with
  | nil => simp
  | cons t ts =>
    rw [List.pairwise_cons] at hapart
    rw [List.forall_mem_cons]
    constructor
    . simpa using h
    . intro t' ht'
      exact (hapart.1 t' ht').first

theorem map_toList_skipped (s : List Char) : (readPositions s).2.map String.toList
    = (tuples s).filter fun t => (Position.ofTuple? t).isNone := by
  unfold readPositions
  dsimp only
  rw [List.map_map]
  exact List.map_id'' (fun _ => String.toList_ofList) _

theorem isSeparate_of_isExact {positions : List Position} (h : ∀ p ∈ positions, p.IsExact) :
    ∀ w ∈ positions.map fun p => p.tuple.toList, IsSeparate w := by
  rw [List.forall_mem_map]
  intro p hp
  exact Position.isSeparate_tuple (h p hp)

theorem isWord_of_mem_skipped : ∀ t ∈ (readPositions s).2, IsWord t.toList := by
  intro t ht
  have hmem := List.mem_map_of_mem (f := String.toList) ht
  rw [map_toList_skipped] at hmem
  exact isWord_of_mem_tuples _ (List.mem_of_mem_filter hmem)

theorem ofTuple?_of_mem_skipped : ∀ t ∈ (readPositions s).2, Position.ofTuple? t.toList = none := by
  intro t ht
  have hmem := List.mem_map_of_mem (f := String.toList) ht
  rw [map_toList_skipped] at hmem
  simpa using List.of_mem_filter hmem

theorem pairwise_skipped (s : List Char) : ((readPositions s).2.map String.toList).Pairwise Apart := by
  rw [map_toList_skipped]
  exact (pairwise_tuples s).sublist List.filter_sublist

theorem pairwise_writtenTuples (hexact : ∀ p ∈ (readPositions s).1, p.IsExact)
    (h : (readPositions s).1 = [] ∨ beginsWithComma s = false) :
    (writtenTuples (readPositions s).1 (readPositions s).2).Pairwise Apart := by
  have hseparate := isSeparate_of_isExact hexact
  unfold writtenTuples
  rw [List.pairwise_append]
  refine ⟨pairwise_apart hseparate, pairwise_skipped s, ?_⟩
  intro v hv w hw
  constructor
  . exact (hseparate v hv).last
  . cases h with
    | inl hnone =>
      rw [hnone] at hv
      cases hv
    | inr hcomma =>
      rw [map_toList_skipped] at hw
      exact head?_ne_of_mem_tuples hcomma w (List.mem_of_mem_filter hw)

theorem exists_skipped_of_beginsWithComma (h : beginsWithComma s = true) :
    ∃ w ws, (readPositions s).2.map String.toList = w :: ws ∧ w.head? = some ',' := by
  unfold beginsWithComma at h
  rw [← head?_tuples, beq_iff_eq, Option.bind_eq_some_iff] at h
  obtain ⟨w, hw, hcomma⟩ := h
  obtain ⟨ws, hws⟩ := List.head?_eq_some_iff.mp hw
  have hnone : (Position.ofTuple? w).isNone = true := by
    rw [Position.ofTuple?_eq_none hcomma]
    rfl
  have hkept := List.filter_cons_of_pos (p := fun t => (Position.ofTuple? t).isNone) (l := ws) hnone
  exact ⟨w, _, by rw [map_toList_skipped, hws, hkept], hcomma⟩

end Again

/--
A tuple that begins with a comma is lost when it is written behind a position.
-/
theorem length_tuples_lt {positions : List Position} {skipped : List String} {w : List Char}
    {ws : List (List Char)} (hexact : ∀ p ∈ positions, p.IsExact)
    (hwords : ∀ t ∈ skipped, IsWord t.toList) (hskipped : skipped.map String.toList = w :: ws)
    (hapart : (w :: ws).Pairwise Apart) (hw : w.head? = some ',') (hsome : positions ≠ []) :
    (tuples (positionsText positions skipped).toList).length < positions.length + skipped.length := by
  obtain ⟨before, p, rfl⟩ := (List.eq_nil_or_concat' positions).resolve_left hsome
  have hall := isWord_of_mem_writtenTuples hexact hwords
  have hseparate := isSeparate_of_isExact hexact
  have hlength := congrArg List.length hskipped
  rw [toList_positionsText]
  unfold writtenTuples at hall ⊢
  simp only [hskipped, List.map_append, List.map_cons, List.map_nil, List.append_assoc,
    List.singleton_append, List.forall_mem_append, List.forall_mem_cons] at hall hseparate ⊢
  obtain ⟨hbefore, hlast, _⟩ := hseparate
  obtain ⟨hwbefore, hwlast, hww, hws⟩ := hall
  rw [tuples_intercalate_joined hw, tuples_intercalate]
  . simp only [List.length_append, List.length_map, List.length_cons, List.length_nil] at hlength ⊢
    omega
  . rw [List.forall_mem_append, List.forall_mem_cons]
    refine ⟨hwbefore, ⟨?_, ?_⟩, hws⟩
    . simp [hww.ne_nil]
    . rw [List.forall_mem_append]
      exact ⟨hwlast.notSpace, hww.notSpace⟩
  . exact pairwise_joined hbefore hlast hapart hww.ne_nil

theorem readPositions_again_iff {s : List Char} (hexact : ∀ p ∈ (readPositions s).1, p.IsExact) :
    readPositions (positionsText (readPositions s).1 (readPositions s).2).toList = readPositions s
      ↔ (readPositions s).1 = [] ∨ beginsWithComma s = false := by
  constructor
  . intro hagain
    by_contra hboth
    rw [not_or, Bool.not_eq_false] at hboth
    obtain ⟨hsome, hcomma⟩ := hboth
    obtain ⟨w, ws, hskipped, hw⟩ := exists_skipped_of_beginsWithComma hcomma
    have hapart := pairwise_skipped s
    rw [hskipped] at hapart
    have hlost := length_tuples_lt hexact isWord_of_mem_skipped hskipped hapart hw hsome
    rw [← length_readPositions, hagain] at hlost
    omega
  . intro h
    apply readPositions_writtenTuples hexact isWord_of_mem_skipped ofTuple?_of_mem_skipped
    exact pairwise_writtenTuples hexact h

namespace Element

variable {id id' : Nat} {text written : String}

theorem body_setText_coordinates : ((ofBody id (.coordinates [] [])).setText text).body
    = .coordinates (readPositions text.toList).1 (readPositions text.toList).2 := by
  rfl

theorem emissions_setText_coordinates : ((ofBody id (.coordinates [] [])).setText text).emissions
    = [.visit id .coordinates, .simple .coordinates ∅
        (positionsText (readPositions text.toList).1 (readPositions text.toList).2)] := by
  unfold setText storeText ofBody
  rw [emissions]
  rfl

theorem body_setText_eq_iff : ((ofBody id (.coordinates [] [])).setText written).body
      = ((ofBody id' (.coordinates [] [])).setText text).body
    ↔ readPositions written.toList = readPositions text.toList := by
  rw [body_setText_coordinates, body_setText_coordinates, Body.coordinates.injEq, ← Prod.ext_iff]

/--
What coordinates write of a text is read as the same positions and the same other tuples, in the same
order, exactly if no position is written or the text does not begin with a comma. This needs positions
whose numbers read back.
-/
theorem reads_written_iff (id id' : Nat) (text : String)
    (hexact : ∀ p ∈ (readPositions text.toList).1, p.IsExact) :
    ∃ written, ((ofBody id (.coordinates [] [])).setText text).emissions
        = [.visit id .coordinates, .simple .coordinates ∅ written]
      ∧ (((ofBody id' (.coordinates [] [])).setText written).body
          = ((ofBody id (.coordinates [] [])).setText text).body
        ↔ (readPositions text.toList).1 = [] ∨ beginsWithComma text.toList = false) := by
  refine ⟨_, emissions_setText_coordinates, ?_⟩
  rw [body_setText_eq_iff]
  apply readPositions_again_iff
  exact hexact

/--
White space around commas, empty components, four components and a comma at the end.
-/
theorem reads_written_skipped : ∃ written,
    ((ofBody 0 (.coordinates [] [])).setText "\n 1 , 2.5  x,,y 3,4,-5\t6,7,8,9 -0,1 6 ,").emissions
        = [.visit 0 .coordinates, .simple .coordinates ∅ written]
      ∧ ((ofBody 1 (.coordinates [] [])).setText written).body
        = ((ofBody 0 (.coordinates [] [])).setText
            "\n 1 , 2.5  x,,y 3,4,-5\t6,7,8,9 -0,1 6 ,").body := by
  obtain ⟨written, hwritten, hagain⟩ :=
    reads_written_iff 0 1 "\n 1 , 2.5  x,,y 3,4,-5\t6,7,8,9 -0,1 6 ," (by decide +kernel)
  exact ⟨written, hwritten, hagain.mpr (Or.inr (by decide +kernel))⟩

/--
A tuple that begins with a comma is written behind the position and then read as its altitude.
-/
theorem comma_read_as_altitude :
    ((ofBody 0 (.coordinates [] [])).setText ",1 2,3").emissions
        = [.visit 0 .coordinates, .simple .coordinates ∅ "2,3 ,1"]
      ∧ ((ofBody 0 (.coordinates [] [])).setText ",1 2,3").body
        = .coordinates [⟨2, 3, none⟩] [",1"]
      ∧ ((ofBody 1 (.coordinates [] [])).setText "2,3 ,1").body
        = .coordinates [⟨2, 3, some 1⟩] []
      ∧ ((ofBody 1 (.coordinates [] [])).setText "2,3 ,1").body
        ≠ ((ofBody 0 (.coordinates [] [])).setText ",1 2,3").body := by
  have hread : readPositions ",1 2,3".toList = ([⟨2, 3, none⟩], [",1"]) := by
    decide +kernel
  have hagain : readPositions "2,3 ,1".toList = ([⟨2, 3, some 1⟩], []) := by
    decide +kernel
  have hwritten : positionsText [⟨2, 3, none⟩] [",1"] = "2,3 ,1" := by
    decide +kernel
  refine ⟨?_, ?_, ?_, ?_⟩
  . rw [emissions_setText_coordinates, hread, hwritten]
  . rw [body_setText_coordinates, hread]
  . rw [body_setText_coordinates, hagain]
  . rw [Ne, body_setText_eq_iff, hread, hagain]
    simp

end Element

end KmlTree
