import KmlTree.Document.Builder

/-!
This module contains the arithmetic of bytes in a text that is put together from parts: where a part
begins and ends, and which part a slice cuts out.
-/

namespace KmlTree

@[simp]
theorem byteLength_nil : byteLength [] = 0 := by
  rfl

@[simp]
theorem byteLength_cons (c : Char) (s : List Char) :
    byteLength (c :: s) = c.utf8Size + byteLength s := by
  rfl

@[simp]
theorem byteLength_append (s t : List Char) : byteLength (s ++ t) = byteLength s + byteLength t := by
  induction s with
  | nil => simp
  | cons c s ih =>
    simp only [List.cons_append, byteLength_cons, ih]
    omega

@[simp]
theorem byteLength_reverse (s : List Char) : byteLength s.reverse = byteLength s := by
  induction s with
  | nil => rfl
  | cons c s ih =>
    simp only [List.reverse_cons, byteLength_append, byteLength_cons, byteLength_nil, ih]
    omega

theorem byteLength_pos {s : List Char} (h : s ≠ []) : 0 < byteLength s := by
  cases s with
  | nil => exact absurd rfl h
  | cons c s =>
    have := c.utf8Size_pos
    simp only [byteLength_cons]
    omega

theorem splitBytes?_cons (n : Nat) (c : Char) (s : List Char) :
    splitBytes? (c.utf8Size + n) (c :: s) =
      (splitBytes? n s).map fun (before, after) => (c :: before, after) := by
  have := c.utf8Size_pos
  obtain ⟨m, hm⟩ : ∃ m, c.utf8Size + n = m + 1 := ⟨c.utf8Size + n - 1, by omega⟩
  have hle : c.utf8Size ≤ m + 1 := by omega
  have hsub : m + 1 - c.utf8Size = n := by omega
  rw [hm, splitBytes?, if_pos hle, hsub]

theorem splitBytes?_append (s t : List Char) :
    splitBytes? (byteLength s) (s ++ t) = some (s, t) := by
  induction s with
  | nil =>
    simp only [byteLength_nil, List.nil_append]
    unfold splitBytes?
    rfl
  | cons c s ih =>
    rw [byteLength_cons, List.cons_append]
    rw [splitBytes?_cons]
    rw [ih]
    rfl

theorem eq_append_of_splitBytes? {n : Nat} {s before after : List Char}
    (h : splitBytes? n s = some (before, after)) : s = before ++ after ∧ byteLength before = n := by
  induction s generalizing n before with
  | nil =>
    cases n with
    | zero =>
      unfold splitBytes? at h
      simp only [Option.some.injEq, Prod.mk.injEq] at h
      simp [← h.1, ← h.2]
    | succ n => simp [splitBytes?] at h
  | cons c s ih =>
    cases n with
    | zero =>
      unfold splitBytes? at h
      simp only [Option.some.injEq, Prod.mk.injEq] at h
      simp [← h.1, ← h.2]
    | succ n =>
      unfold splitBytes? at h
      split at h
      . simp only [Option.map_eq_some_iff] at h
        obtain ⟨⟨before', after'⟩, hsplit, heq⟩ := h
        simp only [Prod.mk.injEq] at heq
        obtain ⟨rfl, rfl⟩ := heq
        obtain ⟨hs, hn⟩ := ih hsplit
        refine ⟨by rw [hs, List.cons_append], ?_⟩
        rw [byteLength_cons, hn]
        omega
      . simp at h

theorem sliceBytes?_append (a b c : List Char) :
    sliceBytes? (byteLength a) (byteLength (a ++ b)) (a ++ b ++ c) = some b := by
  unfold sliceBytes?
  rw [splitBytes?_append]
  simp only [Option.bind_eq_bind, Option.bind_some]
  rw [splitBytes?_append]
  rfl

theorem eq_append_of_sliceBytes? {start stop : Nat} {s slice : List Char}
    (h : sliceBytes? start stop s = some slice) :
    ∃ a c, s = a ++ slice ++ c ∧ byteLength a = start ∧ byteLength (a ++ slice) = stop := by
  unfold sliceBytes? at h
  simp only [Option.bind_eq_bind, Option.bind_eq_some_iff] at h
  obtain ⟨⟨before, c⟩, hstop, ⟨a, slice'⟩, hstart, heq⟩ := h
  simp only [Option.pure_def, Option.some.injEq] at heq
  subst heq
  obtain ⟨rfl, hbefore⟩ := eq_append_of_splitBytes? hstop
  obtain ⟨rfl, ha⟩ := eq_append_of_splitBytes? hstart
  exact ⟨a, c, rfl, ha, hbefore⟩

namespace Builder

theorem lastBracket?_append (a b c : List Char) (h : '<' ∉ b) :
    lastBracket? (a ++ '<' :: b ++ c) (byteLength (a ++ '<' :: b)) = some (byteLength a) := by
  have hb : ∀ x ∈ b.reverse, (x != '<') = true := by
    intro x hx
    simp only [bne_iff_ne, ne_eq]
    rintro rfl
    exact h (List.mem_reverse.mp hx)
  unfold lastBracket?
  rw [splitBytes?_append]
  simp only [Option.map_some, List.reverse_append, List.reverse_cons, List.append_assoc,
    List.singleton_append]
  rw [List.dropWhile_append_of_pos hb]
  simp

end Builder

end KmlTree
