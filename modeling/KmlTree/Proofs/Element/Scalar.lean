import KmlTree.Element.Content
import KmlTree.Element.Scalar
import KmlTree.Proofs.Decimal.Integer

/-!
This module contains the reading of the text of a field as a value: what is read as an integer, that white
space around a value does not matter, and what becomes of a variable that is probed with
(`Element.conversion_laws`).
-/

namespace KmlTree

namespace Scalar

def type : Scalar → ScalarType
  | flag _ => .flag
  | number _ => .number
  | integer _ => .integer
  | enumerant _ => .enumerant
  | text _ => .text

theorem type_of_read? {kind : Kind} {s : String} {t : ScalarType} {value : Scalar}
    (h : read? kind s t = some value) : value.type = t := by
  cases t with
  | text =>
    unfold read? at h
    cases h
    rfl
  | _ =>
    unfold read? at h
    obtain ⟨_, _, rfl⟩ := Option.map_eq_some_iff.mp h
    rfl

/--
An integer is read if there is nothing but a number of 32 bits between the white space.
-/
theorem read?_integer_iff {kind : Kind} {s : String} {value : Scalar} :
    read? kind s .integer = some value
      ↔ ∃ n, value = .integer n ∧ (-2 ^ 31 ≤ n ∧ n ≤ 2 ^ 31 - 1)
        ∧ ∃ before number after, s.toList = before ++ number ++ after
          ∧ IsWhite before ∧ IsWhite after ∧ SpellsInteger number n := by
  unfold read?
  rw [Option.map_eq_some_iff]
  constructor
  . rintro ⟨n, hn, rfl⟩
    obtain ⟨hnumber, hrange⟩ := readInt32?_eq_some_iff.mp hn
    obtain ⟨before, after, hbefore, hafter, hs⟩ := exists_eq_trim s.toList
    exact ⟨n, rfl, hrange, before, _, after, hs, hbefore, hafter, hnumber⟩
  . rintro ⟨n, rfl, hrange, before, number, after, hs, hbefore, hafter, hnumber⟩
    refine ⟨n, ?_, rfl⟩
    rw [hs, trim_around number hbefore hafter, trim_eq_self hnumber.notSpace]
    exact readInt32?_eq_some_iff.mpr ⟨hnumber, hrange⟩

theorem read?_around {before after : List Char} (kind : Kind) (s : String) {t : ScalarType}
    (ht : t ≠ .text) (hbefore : IsWhite before) (hafter : IsWhite after) :
    read? kind (String.ofList before ++ s ++ String.ofList after) t = read? kind s t := by
  have htrim : trim (String.ofList before ++ s ++ String.ofList after).toList = trim s.toList := by
    rw [String.toList_append, String.toList_append, String.toList_ofList, String.toList_ofList]
    exact trim_around s.toList hbefore hafter
  unfold read?
  cases t with
  | text => exact absurd rfl ht
  | _ =>
    dsimp only
    rw [htrim]

end Scalar

/--
What a probe returns and leaves in a variable, by the conversion that it tries: the value that there is, or
that there is none and the variable as it was.
-/
inductive Probes {α : Type} (wrap : α → Scalar) (converted? : Option Scalar) (current : α) :
    Bool × α → Prop where
  | converted (value : α) (h : converted? = some (wrap value)) : Probes wrap converted? current (true, value)
  | missing (h : converted? = none) : Probes wrap converted? current (false, current)

theorem probes_overwrite {α : Type} {wrap : α → Scalar} {converted? : Option Scalar} {value? : Option α}
    (h : converted? = value?.map wrap) (current : α) :
    Probes wrap converted? current (overwrite value? current) := by
  cases value? with
  | none => exact .missing h
  | some value => exact .converted value h

namespace Element

theorem type_of_scalar? {e : Element} {t : ScalarType} {value : Scalar} (h : e.scalar? t = some value) :
    value.type = t := by
  unfold scalar? at h
  split at h
  . exact Scalar.type_of_read? h
  . cases h

/--
The conversions to the five types of values give values of those types.
-/
theorem scalar?_eq_map (e : Element) (t : ScalarType) :
    e.scalar? t = match t with
      | .flag => e.flag?.map .flag
      | .number => e.number?.map .number
      | .integer => e.integer?.map .integer
      | .enumerant => e.enumerantId?.map .enumerant
      | .text => e.text?.map .text := by
  unfold flag? number? integer? enumerantId? text?
  cases hvalue : e.scalar? t with
  | none => cases t <;> simp only [hvalue, Option.map_none]
  | some value =>
    obtain rfl := type_of_scalar? hvalue
    cases value <;> dsimp only [Scalar.type] at hvalue ⊢ <;> rw [hvalue, Option.map_some]

/--
What is read of a field, whatever else the field holds. An integer is read if there is nothing but a number
of 32 bits between the white space, and as that number. White space that is added around the text does not
change what is read, except that a text is read as it is. A probe says whether there is a value and writes
it, or leaves the variable as it was.
-/
theorem conversion_laws {e : Element} {kind : Kind} (h : e.body = .field kind) :
    (∀ value, e.scalar? .integer = some value
      ↔ ∃ n, value = .integer n ∧ (-2 ^ 31 ≤ n ∧ n ≤ 2 ^ 31 - 1)
        ∧ ∃ before number after, e.head.charData.toList = before ++ number ++ after
          ∧ IsWhite before ∧ IsWhite after ∧ SpellsInteger number n)
    ∧ (∀ before after, IsWhite before → IsWhite after → ∀ t, t ≠ .text →
      (e.storeText (String.ofList before ++ e.head.charData ++ String.ofList after)).scalar? t
        = e.scalar? t)
    ∧ e.scalar? .text = some (.text e.head.charData)
    ∧ (∀ current, Probes .flag (e.scalar? .flag) current (overwrite e.flag? current))
    ∧ (∀ current, Probes .number (e.scalar? .number) current (overwrite e.number? current))
    ∧ (∀ current, Probes .integer (e.scalar? .integer) current (overwrite e.integer? current))
    ∧ (∀ current, Probes .enumerant (e.scalar? .enumerant) current (overwrite e.enumerantId? current))
    ∧ ∀ current, Probes .text (e.scalar? .text) current (overwrite e.text? current) := by
  have hread (t : ScalarType) : e.scalar? t = Scalar.read? kind e.head.charData t := by
    unfold scalar?
    rw [h]
  refine ⟨?_, ?_, hread .text, fun current => ?_, fun current => ?_, fun current => ?_,
    fun current => ?_, fun current => ?_⟩
  . intro value
    rw [hread]
    exact Scalar.read?_integer_iff
  . intro before after hbefore hafter t ht
    have hstored : (e.storeText (String.ofList before ++ e.head.charData ++ String.ofList after)).scalar? t
        = Scalar.read? kind (String.ofList before ++ e.head.charData ++ String.ofList after) t := by
      unfold scalar? storeText
      rw [h]
    rw [hstored, hread]
    exact Scalar.read?_around kind _ ht hbefore hafter
  . exact probes_overwrite (e.scalar?_eq_map .flag) current
  . exact probes_overwrite (e.scalar?_eq_map .number) current
  . exact probes_overwrite (e.scalar?_eq_map .integer) current
  . exact probes_overwrite (e.scalar?_eq_map .enumerant) current
  . exact probes_overwrite (e.scalar?_eq_map .text) current

/--
The least integer of 32 bits, with zeros in front and then with white space around it.
-/
theorem conversion_laws_least :
    let e := ofText 0 .visibility "-002147483648"
    e.body = .field .visibility
      ∧ IsWhite ['\u00a0'] ∧ IsWhite ['\n', ' ']
      ∧ e.scalar? .integer = some (.integer (-2147483648))
      ∧ (e.storeText (String.ofList ['\u00a0'] ++ "-002147483648" ++ String.ofList ['\n', ' '])).scalar?
        .integer = some (.integer (-2147483648))
      ∧ overwrite e.integer? 7 = (true, -2147483648)
      ∧ overwrite e.flag? true = (false, true) := by
  intro e
  have hbody : e.body = .field .visibility := by
    rfl
  have hbefore : IsWhite ['\u00a0'] := List.forall_mem_singleton.mpr (by decide)
  have hafter : IsWhite ['\n', ' '] :=
    List.forall_mem_cons.mpr ⟨by decide, List.forall_mem_singleton.mpr (by decide)⟩
  obtain ⟨hinteger, haround, _⟩ := conversion_laws hbody
  have hnumeral : IsNumeral "002147483648".toList 2147483648 :=
    ⟨by decide, by simp, by decide⟩
  have hvalue : e.scalar? .integer = some (.integer (-2147483648)) :=
    (hinteger _).mpr ⟨_, rfl, by decide, [], _, [], by decide, .nil, .nil, .minus hnumeral⟩
  refine ⟨hbody, hbefore, hafter, hvalue, ?_, ?_, ?_⟩
  . exact (haround _ _ hbefore hafter .integer (by decide)).trans hvalue
  . decide +kernel
  . decide +kernel

end Element

end KmlTree
