import KmlTree.Decimal.Binary64

/-!
This module contains the search for the shortest decimal that denotes a double: the one with the
fewest digits among those that are nearer to it than to any other double, and of several the nearest.
-/

namespace KmlTree

/--
The number `coefficient * 10 ^ exponent`.
-/
structure Decimal where
  coefficient : Nat
  exponent : Int
deriving DecidableEq

namespace Binary64

/--
The numbers `lower / unit` to `upper / unit` around `value / unit`. The ends belong to it if it is
closed.
-/
structure Interval where
  lower : Nat
  value : Nat
  upper : Nat
  unit : Nat
  closed : Bool

namespace Interval

/--
The numbers that round to a positive double. The double below a power of two is only half as far
away as the one above, and the ends round to the double if its significand is even.
-/
def ofMagnitude (m : Magnitude) : Interval :=
  let narrow := m.significand = hiddenBit ∧ m.exponent ≠ minExponent
  let lower := 4 * m.significand - if narrow then 1 else 2
  let closed := m.significand % 2 == 0
  match m.exponent - 2 with
  | .ofNat e =>
    let f := Nat.pow 2 e
    ⟨lower * f, 4 * m.significand * f, (4 * m.significand + 2) * f, 1, closed⟩
  | .negSucc e =>
    ⟨lower, 4 * m.significand, 4 * m.significand + 2, Nat.pow 2 (e + 1), closed⟩

def scale (i : Interval) : Int → Interval
  | .ofNat e => { i with unit := i.unit * Nat.pow 10 e }
  | .negSucc e =>
    let f := Nat.pow 10 (e + 1)
    { i with lower := i.lower * f, value := i.value * f, upper := i.upper * f }

def holds (i : Interval) (n : Nat) : Bool :=
  if i.closed then
    i.lower ≤ n * i.unit && n * i.unit ≤ i.upper
  else
    i.lower < n * i.unit && n * i.unit < i.upper

/--
The integer in the interval that is nearest to the value, if there is one. Only the two neighbours of
the value need to be looked at. Halfway between them the upper one is taken.
-/
def nearest? (i : Interval) : Option Nat :=
  let below := i.value / i.unit
  let above := below + 1
  match i.holds below, i.holds above with
  | true, true =>
    if i.value - below * i.unit < above * i.unit - i.value then some below else some above
  | true, false => some below
  | false, true => some above
  | false, false => none

/--
The number of zeros between the decimal point and the first digit of the value, if it is less than
one.
-/
def leadingZeros (value unit : Nat) : Nat → Nat
  | 0 => 0
  | fuel + 1 => if unit ≤ value * 10 then 0 else leadingZeros (value * 10) unit fuel + 1

/--
The exponent `e` with `10 ^ (e - 1) ≤ value < 10 ^ e`.
-/
def decade (i : Interval) : Int :=
  if i.unit ≤ i.value then
    (Nat.toDigits 10 (i.value / i.unit)).length
  else
    -(leadingZeros i.value i.unit (i.unit.log2 + 1) : Int)

end Interval

/--
The shortest decimal that denotes a positive double. Seventeen digits always suffice.
-/
def shortest (m : Magnitude) : Decimal :=
  let i := Interval.ofMagnitude m
  let decade := i.decade
  let hit? (digits : Nat) : Option Decimal :=
    let exponent := decade - digits
    ((i.scale exponent).nearest?).map (⟨·, exponent⟩)
  ((List.range 17).findSome? fun n => hit? (n + 1)).getD ⟨0, 0⟩

end Binary64

end KmlTree
