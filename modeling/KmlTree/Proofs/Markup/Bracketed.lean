import KmlTree.Proofs.Markup.Page

/-!
This module contains lists in which every opening item has a closing one, and what a writer makes of
instructions whose tags match: it only appends text, takes no counter below zero, and is behind them where
it was in front of them (`Writer.Page.putAll_wellBracketed`).
-/

namespace KmlTree

/--
Whether a list is put together from single items and from pairs of items around such lists.
-/
inductive Bracketed {α : Type} (isSingle : α → Prop) (isPair : α → α → Prop) : List α → Prop where
  | nil : Bracketed isSingle isPair []
  | single {a : α} (h : isSingle a) : Bracketed isSingle isPair [a]
  | around {a b : α} {l : List α} (h : isPair a b) (inside : Bracketed isSingle isPair l) :
    Bracketed isSingle isPair (a :: l ++ [b])
  | append {l m : List α} (hl : Bracketed isSingle isPair l) (hm : Bracketed isSingle isPair m) :
    Bracketed isSingle isPair (l ++ m)

namespace Bracketed

variable {α β : Type} {isSingle : α → Prop} {isPair : α → α → Prop}

theorem of_forall {l : List α} (h : ∀ a ∈ l, isSingle a) : Bracketed isSingle isPair l := by
  induction l with
  | nil => exact .nil
  | cons a l ih =>
    have hl := ih fun b hb => h b (List.mem_cons_of_mem a hb)
    exact (single (h a List.mem_cons_self)).append hl

theorem flatMap {l : List β} {f : β → List α} (h : ∀ b ∈ l, Bracketed isSingle isPair (f b)) :
    Bracketed isSingle isPair (l.flatMap f) := by
  induction l with
  | nil => exact .nil
  | cons b l ih =>
    rw [List.flatMap_cons]
    exact (h b List.mem_cons_self).append (ih fun c hc => h c (List.mem_cons_of_mem b hc))

/--
A translation that leaves out both items of a pair or none of them keeps the brackets of a list.
-/
theorem filterMap {isSingle' : β → Prop} {isPair' : β → β → Prop} {f : α → Option β} {l : List α}
    (h : Bracketed isSingle isPair l) (hsingle : ∀ a, isSingle a → ∀ b ∈ f a, isSingle' b)
    (hpair : ∀ a b, isPair a b → (f a = none ∧ f b = none)
      ∨ ∃ a' b', f a = some a' ∧ f b = some b' ∧ isPair' a' b') :
    Bracketed isSingle' isPair' (l.filterMap f) := by
  induction h with
  | nil => exact .nil
  | @single a ha =>
    rw [List.filterMap_cons]
    cases hf : f a with
    | none => exact .nil
    | some b => exact .single (hsingle a ha b hf)
  | @around a b l hab _ ih =>
    rw [List.filterMap_append, List.filterMap_cons, List.filterMap_cons]
    cases hpair a b hab with
    | inl hnone =>
      rw [hnone.1, hnone.2, List.filterMap_nil, List.append_nil]
      exact ih
    | inr hsome =>
      obtain ⟨a', b', ha, hb, hab'⟩ := hsome
      rw [ha, hb]
      exact .around hab' ih
  | append _ _ ihl ihm =>
    rw [List.filterMap_append]
    exact ihl.append ihm

end Bracketed

namespace Writer

namespace Instruction

/--
Whether an instruction writes something that is neither a start tag nor an end tag.
-/
inductive IsSingle : Instruction → Prop where
  | text (text : String) : IsSingle (.text text)
  | textElement (name : String) (attributes : Attributes) (text : String) :
    IsSingle (.textElement name attributes text)
  | raw (markup : String) : IsSingle (.raw markup)

/--
Whether two instructions open an element and close it, both on lines of its own or both inline.
-/
inductive IsPair : Instruction → Instruction → Prop where
  | tags (name : String) (attributes : Attributes) :
    IsPair (.startTag name attributes) (.endTag name)
  | inline (name : String) (attributes : Attributes) :
    IsPair (.startInline name attributes) (.endInline name)

end Instruction

def WellBracketed (is : List Instruction) : Prop :=
  Bracketed Instruction.IsSingle Instruction.IsPair is

namespace Cursor

/--
Whether an instruction takes no counter of the cursor below zero.
-/
def Admits (c : Cursor) : Instruction → Prop
  | .endTag _ => 0 < c.depth
  | .endInline _ => 0 < c.depth ∧ 0 < c.inlineDepth
  | _ => True

/--
Whether every one of a list of instructions takes no counter below zero where it is written.
-/
def AdmitsAll (c : Cursor) (is : List Instruction) : Prop :=
  ∀ before i after, is = before ++ i :: after → (layout c before).2.Admits i

variable {c c' : Cursor} {i j : Instruction} {is js : List Instruction}

theorem admitsAll_nil (c : Cursor) : c.AdmitsAll [] := by
  intro before i after h
  cases before <;> cases h

theorem admitsAll_cons : c.AdmitsAll (i :: is) ↔ c.Admits i ∧ (c.step i).2.AdmitsAll is := by
  constructor
  . intro h
    constructor
    . exact h [] i is rfl
    . rintro before j after rfl
      exact h (i :: before) j after rfl
  . rintro ⟨hfirst, hrest⟩ before j after h
    cases before with
    | nil =>
      cases h
      exact hfirst
    | cons k before =>
      cases h
      exact hrest before j after rfl

theorem admitsAll_append :
    c.AdmitsAll (is ++ js) ↔ c.AdmitsAll is ∧ (layout c is).2.AdmitsAll js := by
  induction is generalizing c with
  | nil =>
    have hnil := c.admitsAll_nil
    simp [layout, hnil]
  | cons i is ih =>
    rw [List.cons_append, admitsAll_cons, admitsAll_cons, ih, and_assoc]
    rfl

theorem admits_of_isSingle (h : i.IsSingle) : c.Admits i := by
  cases h <;> exact trivial

theorem step_of_isSingle (h : i.IsSingle) : (c.step i).2 = c := by
  cases h with
  | text | raw => rfl
  | textElement name attributes text =>
    rw [step]
    split <;> rfl

theorem admits_of_isPair (h : Instruction.IsPair i j) : c.Admits i ∧ (c.step i).2.Admits j := by
  cases h with
  | tags name attributes => exact ⟨trivial, Nat.succ_pos _⟩
  | inline name attributes => exact ⟨trivial, Nat.succ_pos _, Nat.succ_pos _⟩

theorem step_of_isPair (h : Instruction.IsPair i j) : ((c.step i).2.step j).2 = c := by
  cases h <;> rfl

theorem layout_wellBracketed (h : WellBracketed is) (c : Cursor) : (layout c is).2 = c := by
  induction h generalizing c with
  | nil => rfl
  | single hi => exact step_of_isSingle hi
  | @around i j is hpair _ ih =>
    rw [List.cons_append, layout]
    dsimp only
    rw [layout_append]
    dsimp only
    rw [ih]
    exact step_of_isPair hpair
  | append _ _ ih ih' => rw [layout_append, ih, ih']

theorem admitsAll_wellBracketed (h : WellBracketed is) (c : Cursor) : c.AdmitsAll is := by
  induction h generalizing c with
  | nil => exact c.admitsAll_nil
  | single hi => exact admitsAll_cons.mpr ⟨admits_of_isSingle hi, admitsAll_nil _⟩
  | @around i j is hpair hinside ih =>
    obtain ⟨hopen, hclose⟩ := admits_of_isPair (c := c) hpair
    rw [List.cons_append, admitsAll_cons, admitsAll_append, layout_wellBracketed hinside]
    exact ⟨hopen, ih _, admitsAll_cons.mpr ⟨hclose, admitsAll_nil _⟩⟩
  | append hfirst _ ih ih' =>
    rw [admitsAll_append, layout_wellBracketed hfirst]
    exact ⟨ih c, ih' c⟩

end Cursor

variable {is js : List Instruction}

theorem pieces_append (h : WellBracketed is) (c : Cursor) :
    (layout c (is ++ js)).1 = (layout c is).1 ++ (layout c js).1 := by
  rw [layout_append, Cursor.layout_wellBracketed h]

theorem pieces_single {i : Instruction} (h : i.IsSingle) (c : Cursor) :
    (c.step i).1 = c.piece i.markup := by
  cases h with
  | text | raw => rfl
  | textElement name attributes text =>
    rw [Cursor.step, Instruction.markup]
    split <;> rfl

theorem pieces_singles (h : ∀ i ∈ is, i.IsSingle) (c : Cursor) :
    (layout c is).1 = is.map fun i => c.piece i.markup := by
  induction is with
  | nil => rfl
  | cons i is ih =>
    have hi := h i List.mem_cons_self
    rw [layout]
    dsimp only
    rw [Cursor.step_of_isSingle hi, pieces_single hi, ih fun j hj => h j (List.mem_cons_of_mem i hj)]
    rfl

theorem pieces_tags (h : WellBracketed is) (c : Cursor) (name : String) (a : Attributes) :
    (layout c (.startTag name a :: (is ++ [.endTag name]))).1
      = c.piece (tagText name a ++ ">") :: (layout c.down is).1 ++ [c.piece ("</" ++ name ++ ">")] := by
  have hinside : (layout c.down (is ++ [.endTag name])).1 = _ := pieces_append h c.down
  rw [layout]
  exact congrArg (c.piece (tagText name a ++ ">") :: ·) hinside

theorem pieces_inline (h : WellBracketed is) (c : Cursor) (name : String) (a : Attributes) :
    (layout c (.startInline name a :: (is ++ [.endInline name]))).1
      = { c.piece (tagText name a ++ ">") with newline := false } :: (layout c.inline is).1
        ++ [{ c.piece ("</" ++ name ++ ">") with indents := 0 }] := by
  have hinside : (layout c.inline (is ++ [.endInline name])).1 = _ := pieces_append h c.inline
  rw [layout]
  exact congrArg ({ c.piece (tagText name a ++ ">") with newline := false } :: ·) hinside

theorem Page.putAll_wellBracketed (h : WellBracketed is) (p : Page) :
    p.putAll is = { p with text := p.text ++ render p.style (layout p.cursor is).1 } := by
  rw [putAll_eq, Cursor.layout_wellBracketed h]

end Writer

end KmlTree
