import KmlTree.Decimal.Shortest
import KmlTree.Text.Digit

/-!
This module contains the decimal text of a double: writing it with as few digits as possible and
never with an exponent (`decimalText`), and reading it with or without one (`readDecimal?`).
-/

namespace KmlTree

namespace Decimal

/--
The digits of a decimal in positional notation. There is no point if there would be nothing but zeros
after it.
-/
def positional (d : Decimal) : List Char :=
  let digits := Nat.toDigits 10 d.coefficient
  match d.exponent with
  | .ofNat e => digits ++ List.replicate e '0'
  | .negSucc e =>
    let places := e + 1
    let digits := List.replicate (places + 1 - digits.length) '0' ++ digits
    let whole := digits.take (digits.length - places)
    let fraction := ((digits.drop (digits.length - places)).reverse.dropWhile (· == '0')).reverse
    if fraction.isEmpty then
      whole
    else
      whole ++ '.' :: fraction

/--
The bits of the double nearest to a decimal. A decimal that is far beyond the greatest double, or far
below the least, is not calculated.
-/
def toBits (d : Decimal) : Nat :=
  let decade := (Nat.toDigits 10 d.coefficient).length + d.exponent
  if d.coefficient = 0 ∨ decade < -330 then
    0
  else if decade > 330 then
    Binary64.infinityBits
  else
    match d.exponent with
    | .ofNat e => Binary64.nearest (d.coefficient * Nat.pow 10 e) 1
    | .negSucc e => Binary64.nearest d.coefficient (Nat.pow 10 (e + 1))

end Decimal

/--
The text of a double: the fewest digits that read back as it, always in positional notation.
-/
def decimalText (x : Float) : String :=
  let bits := x.toBits.toNat
  let negative := Binary64.signBit ≤ bits
  let bits := bits % Binary64.signBit
  let sign := if negative then "-" else ""
  if bits > Binary64.infinityBits then
    "NaN"
  else if bits = Binary64.infinityBits then
    sign ++ "inf"
  else if bits = 0 then
    sign ++ "0"
  else
    sign ++ String.ofList (Binary64.shortest (Binary64.magnitude bits)).positional

def doubleOfBits (negative : Bool) (bits : Nat) : Float :=
  Float.ofBits (UInt64.ofNat (if negative then Binary64.signBit + bits else bits))

/--
Read the exponent of a decimal, which may be missing: an `e` in either case, an optional sign, and
one or more digits.
-/
def readExponent? : List Char → Option Int
  | [] => some 0
  | c :: rest =>
    if c = 'e' ∨ c = 'E' then do
      let (negative, digits) := readSign rest
      let n ← readDigits? digits
      return if negative then -(n : Int) else n
    else
      none

/--
Read a decimal without its sign: digits with an optional point among or beside them, and an optional
exponent.
-/
def readUnsigned? (s : List Char) : Option Decimal := do
  let whole := s.takeWhile Char.isDigit
  let rest := s.dropWhile Char.isDigit
  let (fraction, rest) :=
    match rest with
    | '.' :: rest => (rest.takeWhile Char.isDigit, rest.dropWhile Char.isDigit)
    | rest => ([], rest)
  let coefficient ← readDigits? (whole ++ fraction)
  let exponent ← readExponent? rest
  return ⟨coefficient, exponent - fraction.length⟩

/--
Read a double: an optional sign and then a decimal, an infinity, or that it is not a number. The two
words are read in either case.
-/
def readDecimal? (s : List Char) : Option Float :=
  let (negative, s) := readSign s
  let word := s.map Char.toLower
  if word = "inf".toList ∨ word = "infinity".toList then
    some (doubleOfBits negative Binary64.infinityBits)
  else if word = "nan".toList then
    some (doubleOfBits negative (Binary64.infinityBits + Binary64.hiddenBit / 2))
  else
    (readUnsigned? s).map fun d => doubleOfBits negative d.toBits

end KmlTree
