import KmlTree.Decimal.Integer
import KmlTree.Proofs.Text.Space
import Mathlib.Data.List.Induction
import Mathlib.Data.Nat.Digits.Defs

/-!
This module contains the reading of integers of 32 bits: which texts are read, and as what number
(`readInt32?_eq_some_iff`).
-/

namespace KmlTree

/--
The number that decimal digits denote by their places.
-/
def placeValue (digits : List Char) : Nat :=
  Nat.ofDigits 10 (digits.reverse.map fun c => c.toNat - '0'.toNat)

theorem placeValue_append (digits : List Char) (c : Char) :
    placeValue (digits ++ [c]) = placeValue digits * 10 + (c.toNat - '0'.toNat) := by
  unfold placeValue
  rw [List.reverse_append, List.reverse_singleton, List.singleton_append, List.map_cons]
  rw [Nat.ofDigits_cons]
  push_cast
  omega

theorem decimalDigit?_eq_some_iff {c : Char} {d : Nat} :
    decimalDigit? c = some d ↔ c.isDigit = true ∧ d = c.toNat - '0'.toNat := by
  have hrange : ('0' ≤ c ∧ c ≤ '9') ↔ c.isDigit = true := by
    simp [Char.isDigit, Char.le_def]
  unfold decimalDigit?
  rw [Option.ite_none_right_eq_some, hrange, Option.some.injEq, eq_comm (a := d)]

/--
Whether a text is one or more decimal digits that denote a number.
-/
structure IsNumeral (digits : List Char) (n : Nat) : Prop where
  ne_nil : digits ≠ []
  isDigit : ∀ c ∈ digits, c.isDigit = true
  value : n = placeValue digits

theorem foldlM_digits_iff {digits : List Char} {n : Nat} :
    digits.foldlM (fun n c => (decimalDigit? c).map (n * 10 + ·)) 0 = some n
      ↔ (∀ c ∈ digits, c.isDigit = true) ∧ n = placeValue digits := by
  induction digits using List.reverseRecOn generalizing n with
  | nil =>
    have hvalue : placeValue [] = 0 := by
      rfl
    rw [List.foldlM_nil, Option.pure_def, Option.some.injEq, hvalue, eq_comm]
    simp
  | append_singleton digits c ih =>
    have hlast (m : Nat) : [c].foldlM (fun n c => (decimalDigit? c).map (n * 10 + ·)) m
        = (decimalDigit? c).map (m * 10 + ·) := by
      rw [List.foldlM_cons]
      exact bind_pure _
    rw [List.foldlM_append, Option.bind_eq_bind, Option.bind_eq_some_iff, placeValue_append,
      List.forall_mem_append, List.forall_mem_singleton]
    constructor
    . rintro ⟨m, hm, hn⟩
      obtain ⟨hdigits, rfl⟩ := ih.mp hm
      rw [hlast, Option.map_eq_some_iff] at hn
      obtain ⟨d, hd, rfl⟩ := hn
      obtain ⟨hc, rfl⟩ := decimalDigit?_eq_some_iff.mp hd
      exact ⟨⟨hdigits, hc⟩, rfl⟩
    . rintro ⟨⟨hdigits, hc⟩, rfl⟩
      refine ⟨_, ih.mpr ⟨hdigits, rfl⟩, ?_⟩
      rw [hlast, decimalDigit?_eq_some_iff.mpr ⟨hc, rfl⟩, Option.map_some]

theorem readDigits?_eq_some_iff {digits : List Char} {n : Nat} :
    readDigits? digits = some n ↔ IsNumeral digits n := by
  unfold readDigits?
  split
  . next hempty =>
    have hnil := List.isEmpty_iff.mp hempty
    constructor
    . intro h
      cases h
    . intro h
      exact absurd hnil h.ne_nil
  . next hempty =>
    rw [foldlM_digits_iff]
    constructor
    . rintro ⟨hdigits, hvalue⟩
      exact ⟨fun hnil => hempty (List.isEmpty_iff.mpr hnil), hdigits, hvalue⟩
    . intro h
      exact ⟨h.isDigit, h.value⟩

/--
Whether a text is a number: an optional sign, and then one or more decimal digits.
-/
inductive SpellsInteger : List Char → Int → Prop where
  | unsigned {digits : List Char} {n : Nat} (h : IsNumeral digits n) : SpellsInteger digits n
  | plus {digits : List Char} {n : Nat} (h : IsNumeral digits n) : SpellsInteger ('+' :: digits) n
  | minus {digits : List Char} {n : Nat} (h : IsNumeral digits n) : SpellsInteger ('-' :: digits) (-n)

theorem IsNumeral.notSpace {digits : List Char} {n : Nat} (h : IsNumeral digits n) :
    ∀ c ∈ digits, isSpace c = false := by
  intro c hc
  exact isSpace_of_isDigit (h.isDigit c hc)

theorem SpellsInteger.notSpace {s : List Char} {n : Int} (h : SpellsInteger s n) :
    ∀ c ∈ s, isSpace c = false := by
  cases h with
  | unsigned h => exact h.notSpace
  | plus h => exact List.forall_mem_cons.mpr ⟨by decide, h.notSpace⟩
  | minus h => exact List.forall_mem_cons.mpr ⟨by decide, h.notSpace⟩

theorem readSign_of_isNumeral {digits : List Char} {n : Nat} (h : IsNumeral digits n) :
    readSign digits = (false, digits) := by
  unfold readSign
  split
  . next rest => cases h.isDigit '-' List.mem_cons_self
  . next rest => cases h.isDigit '+' List.mem_cons_self
  . rfl

theorem spellsInteger_iff {s : List Char} {n : Int} :
    SpellsInteger s n ↔ ∃ m : Nat, IsNumeral (readSign s).2 m
      ∧ n = if (readSign s).1 = true then -(m : Int) else m := by
  constructor
  . intro h
    cases h with
    | unsigned h =>
      rw [readSign_of_isNumeral h]
      exact ⟨_, h, rfl⟩
    | plus h => exact ⟨_, h, rfl⟩
    | minus h => exact ⟨_, h, rfl⟩
  . rintro ⟨m, hm, rfl⟩
    unfold readSign at *
    split at *
    . exact .minus hm
    . exact .plus hm
    . exact .unsigned hm

/--
A text is read if it is a number of 32 bits, and as that number.
-/
theorem readInt32?_eq_some_iff {s : List Char} {n : Int} :
    readInt32? s = some n ↔ SpellsInteger s n ∧ -2 ^ 31 ≤ n ∧ n ≤ 2 ^ 31 - 1 := by
  rw [spellsInteger_iff]
  unfold readInt32? minInt32 maxInt32
  simp only [Option.bind_eq_bind, Option.bind_eq_some_iff, readDigits?_eq_some_iff,
    Option.ite_none_right_eq_some, Option.some.injEq]
  constructor
  . rintro ⟨m, hm, hrange, rfl⟩
    exact ⟨⟨m, hm, rfl⟩, by omega⟩
  . rintro ⟨⟨m, hm, rfl⟩, hrange⟩
    exact ⟨m, hm, by omega, rfl⟩

end KmlTree
