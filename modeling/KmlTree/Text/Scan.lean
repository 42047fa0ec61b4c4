/-!
This module contains the ways to cut a text in two at the first place where something ends, and how
much shorter the rest is.
-/

namespace KmlTree

def isBlank (c : Char) : Bool :=
  c == ' ' || c == '\t' || c == '\r' || c == '\n'

/--
Cut a text at the first character at which an automaton stops. The automaton goes from state to state
and stops where there is no next one. The character itself is in neither part.
-/
def splitScan? {σ : Type} (step : σ → Char → Option σ) (s : σ) :
    List Char → Option (List Char × List Char)
  | [] => none
  | c :: rest =>
    match step s c with
    | none => some ([], rest)
    | some s => (splitScan? step s rest).map fun (before, after) => (c :: before, after)

theorem length_lt_of_splitScan? {σ : Type} {step : σ → Char → Option σ} {s : σ}
    {text before after : List Char} (h : splitScan? step s text = some (before, after)) :
    after.length < text.length := by
  induction text generalizing s before with
  | nil => simp [splitScan?] at h
  | cons c rest ih =>
    unfold splitScan? at h
    split at h
    . simp only [Option.some.injEq, Prod.mk.injEq] at h
      simp [h.2]
    . simp only [Option.map_eq_some_iff] at h
      obtain ⟨⟨before', after'⟩, hscan, heq⟩ := h
      simp only [Prod.mk.injEq] at heq
      obtain ⟨_, rfl⟩ := heq
      have := ih hscan
      simp only [List.length_cons]
      omega

theorem length_dropWhile_le {α : Type} (p : α → Bool) (l : List α) :
    (l.dropWhile p).length ≤ l.length :=
  (List.dropWhile_sublist p).length_le

end KmlTree
