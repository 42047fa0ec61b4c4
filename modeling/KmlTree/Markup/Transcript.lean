import KmlTree.Markup.Reader

/-!
This module contains the reading of a text to its end. It ends because every event takes something off
the text (`Reader.length_next_lt`).
-/

namespace KmlTree

namespace Reader

theorem length_readToBracket_lt {r after : Reader} {content : List Char} {c : Char}
    {tail : List Char} (hc : r.rest = c :: tail) (hne : c ≠ '>')
    (h : r.readToBracket = (content, after)) : after.rest.length < r.rest.length := by
  simp only [readToBracket, advance, Prod.mk.injEq] at h
  have hle := length_dropWhile_le (· != '>') tail
  rw [← h.2, hc]
  simp only [List.dropWhile_cons, bne_iff_ne, ne_eq, hne, not_false_eq_true, if_true,
    List.length_drop, List.length_cons]
  omega

theorem length_readText_lt {r after : Reader} {e : Event} {c : Char} {tail : List Char}
    (hc : r.rest = c :: tail) (hne : c ≠ '<') (h : r.readText = .event e after) :
    after.rest.length < r.rest.length := by
  simp only [readText, advance, Reading.event.injEq] at h
  have hle := length_dropWhile_le (· != '<') tail
  rw [← h.2, hc]
  simp only [List.dropWhile_cons, bne_iff_ne, ne_eq, hne, not_false_eq_true, if_true,
    List.length_cons]
  omega

theorem length_readDeclaration_lt {r after : Reader} {e : Event} (h : r.readDeclaration = .event e after) :
    after.rest.length < r.rest.length := by
  unfold readDeclaration fail at h
  split at h
  . simp at h
  . split at h
    . simp at h
    . split at h
      . simp at h
      . next hscan =>
        have := length_lt_of_splitScan? hscan
        dsimp only at h
        split at h
        . split at h
          . simp only [Reading.event.injEq] at h
            rw [← h.2]
            exact this
          . simp at h
        . simp at h

theorem length_readClose_lt {r after : Reader} {e : Event} {tail : List Char}
    (hc : r.rest = '/' :: tail) (h : r.readClose = .event e after) :
    after.rest.length < r.rest.length := by
  have := length_readToBracket_lt hc (by decide) rfl
  unfold readClose fail at h
  dsimp only at h
  split at h
  . simp at h
  . split at h
    . simp only [Reading.event.injEq] at h
      rw [← h.2]
      exact this
    . simp at h

theorem length_readInstruction_lt {r after : Reader} {e : Event} {tail : List Char}
    (hc : r.rest = '?' :: tail) (h : r.readInstruction = .event e after) :
    after.rest.length < r.rest.length := by
  have := length_readToBracket_lt hc (by decide) rfl
  unfold readInstruction fail at h
  dsimp only at h
  split at h
  . simp only [Reading.event.injEq] at h
    rw [← h.2]
    exact this
  . simp at h

theorem length_readTag_lt {r after : Reader} {e : Event} (h : r.readTag = .event e after) :
    after.rest.length < r.rest.length := by
  unfold readTag fail at h
  split at h
  . simp at h
  . next hscan =>
    have := length_lt_of_splitScan? hscan
    dsimp only at h
    split at h <;>
    . simp only [Reading.event.injEq] at h
      rw [← h.2]
      exact this

theorem length_readMarkup_lt {r after : Reader} {e : Event} (h : r.readMarkup = .event e after) :
    after.rest.length < r.rest.length := by
  unfold readMarkup at h
  split at h
  . simp at h
  . exact length_readDeclaration_lt h
  . next hrest => exact length_readClose_lt hrest h
  . next hrest => exact length_readInstruction_lt hrest h
  . exact length_readTag_lt h

theorem length_next_lt {r after : Reader} {e : Event} (h : r.next = .event e after) :
    after.rest.length < r.rest.length := by
  unfold next at h
  split at h
  . simp at h
  . next hrest =>
    have := length_readMarkup_lt h
    rw [hrest]
    exact Nat.lt_succ_of_lt this
  . next hne hrest => exact length_readText_lt hrest (by rintro rfl; exact hne rfl) h

end Reader

/--
What a reader reads: the events with the reader after each of them, and how it ends.
-/
structure Transcript where
  events : List (Event × Reader)
  ending : Ending

def Reader.transcript (r : Reader) : Transcript :=
  match h : r.next with
  | .ending e => ⟨[], e⟩
  | .event e after =>
    have : after.rest.length < r.rest.length := Reader.length_next_lt h
    let rest := after.transcript
    ⟨(e, after) :: rest.events, rest.ending⟩
termination_by r.rest.length

end KmlTree
