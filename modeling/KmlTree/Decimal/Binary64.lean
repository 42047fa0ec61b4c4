/-!
This module contains the doubles of IEEE 754 as exact numbers: what number the bits of a finite
double stand for, and the bits of the double nearest to a quotient.
-/

namespace KmlTree.Binary64

/--
The number `significand * 2 ^ exponent`.
-/
structure Magnitude where
  significand : Nat
  exponent : Int
deriving DecidableEq

def minExponent : Int := -1074

def hiddenBit : Nat := 0x0010000000000000

def infinityBits : Nat := 0x7ff0000000000000

def signBit : Nat := 0x8000000000000000

def magnitude (bits : Nat) : Magnitude :=
  let fraction := bits % hiddenBit
  let biased := bits / hiddenBit
  if biased = 0 then
    ⟨fraction, minExponent⟩
  else
    ⟨hiddenBit + fraction, minExponent + (biased - 1 : Nat)⟩

/--
The quotient `num / den` divided by `2 ^ exponent`, as a numerator and a denominator.
-/
def scaled (num den : Nat) (exponent : Int) : Nat × Nat :=
  match exponent with
  | .ofNat e => (num, den * Nat.pow 2 e)
  | .negSucc e => (num * Nat.pow 2 (e + 1), den)

/--
The exponent of the doubles around a positive quotient `num / den`: it makes the significand less
than twice the hidden bit and, unless it is the least exponent, not less than the hidden bit.
-/
def exponentOf (num den : Nat) : Int :=
  let estimate : Int := (num.log2 : Int) - den.log2 - 53
  let (n, d) := scaled num den estimate
  let exponent := if n / d < 2 * hiddenBit then estimate else estimate + 1
  max minExponent exponent

def roundQuotient (num den : Nat) : Nat :=
  let whole := num / den
  let rest := num % den
  if 2 * rest > den ∨ (2 * rest = den ∧ whole % 2 = 1) then whole + 1 else whole

/--
The bits of the double nearest to `num / den`. A significand that is rounded up to the next power of
two carries into the bits of the exponent, as it should.
-/
def nearest (num den : Nat) : Nat :=
  if num = 0 then
    0
  else
    let exponent := exponentOf num den
    let (n, d) := scaled num den exponent
    min infinityBits ((exponent - minExponent).toNat * hiddenBit + roundQuotient n d)

end KmlTree.Binary64
