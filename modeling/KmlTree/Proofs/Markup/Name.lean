import KmlTree.Markup.Reader
import Mathlib.Data.Bool.AllAny
import Mathlib.Tactic.Tauto

/-!
This module contains the names of XML, and that no character of a name means anything to the reader of a
tag.
-/

namespace KmlTree

/--
The code points that a name may begin with, as inclusive ranges in increasing order.
-/
def nameStartRanges : List (Nat × Nat) :=
  [(0x3a, 0x3a), (0x41, 0x5a), (0x5f, 0x5f), (0x61, 0x7a), (0xc0, 0xd6), (0xd8, 0xf6), (0xf8, 0x2ff),
   (0x370, 0x37d), (0x37f, 0x1fff), (0x200c, 0x200d), (0x2070, 0x218f), (0x2c00, 0x2fef),
   (0x3001, 0xd7ff), (0xf900, 0xfdcf), (0xfdf0, 0xfffd), (0x10000, 0xeffff)]

/--
The code points that a name may go on with but not begin with.
-/
def nameRanges : List (Nat × Nat) :=
  [(0x2d, 0x2e), (0x30, 0x39), (0xb7, 0xb7), (0x300, 0x36f), (0x203f, 0x2040)]

def isNameStart (c : Char) : Bool :=
  nameStartRanges.any fun (first, last) => first ≤ c.toNat && c.toNat ≤ last

def isNamePart (c : Char) : Bool :=
  isNameStart c || nameRanges.any fun (first, last) => first ≤ c.toNat && c.toNat ≤ last

def isXmlName : List Char → Bool
  | [] => false
  | c :: cs => isNameStart c && cs.all isNamePart

def tagDelimiters : List Char :=
  ['<', '>', '&', '=', '/', '!', '?', '\x22', '\x27', ' ', '\t', '\r', '\n']

theorem notMem_tagDelimiters {c : Char} (h : isNamePart c = true) : c ∉ tagDelimiters := by
  intro hmem
  have hall : ∀ d ∈ tagDelimiters, isNamePart d = false := by
    rw [← List.all_iff_forall_prop]
    decide
  rw [hall c hmem] at h
  cases h

theorem isNamePart_of_isXmlName {s : List Char} (h : isXmlName s = true) :
    ∀ c ∈ s, isNamePart c = true := by
  cases s with
  | nil => simp
  | cons c cs =>
    unfold isXmlName at h
    simp only [Bool.and_eq_true, List.all_eq_true] at h
    intro d hd
    cases List.mem_cons.mp hd with
    | inl heq =>
      subst heq
      unfold isNamePart
      rw [h.1, Bool.true_or]
    | inr hmem => exact h.2 d hmem

theorem notMem_tagDelimiters_of_isXmlName {s : List Char} (h : isXmlName s = true) :
    ∀ c ∈ s, c ∉ tagDelimiters := by
  intro c hc
  exact notMem_tagDelimiters (isNamePart_of_isXmlName h c hc)

theorem ne_nil_of_isXmlName {s : List Char} (h : isXmlName s = true) : s ≠ [] := by
  rintro rfl
  cases h

theorem ne_empty_of_isXmlName {name : String} (h : isXmlName name.toList = true) : name ≠ "" := by
  rintro rfl
  cases h

theorem isBlank_eq_false {c : Char} (h : c ∉ tagDelimiters) : isBlank c = false := by
  unfold isBlank
  simp only [Bool.or_eq_false_iff, beq_eq_false_iff_ne, ne_eq]
  unfold tagDelimiters at h
  simp only [List.mem_cons, not_or] at h
  tauto

theorem tagStep_eq_self {c : Char} (h : c ∉ tagDelimiters) : tagStep none c = some none := by
  unfold tagDelimiters at h
  simp only [List.mem_cons, not_or] at h
  simp [tagStep, h]

end KmlTree
