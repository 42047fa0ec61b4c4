import KmlTree.Text.Digit

/-!
This module contains the reading of integers of 32 bits.
-/

namespace KmlTree

def minInt32 : Int := -2147483648

def maxInt32 : Int := 2147483647

def readInt32? (s : List Char) : Option Int := do
  let (negative, digits) := readSign s
  let n ← readDigits? digits
  let value := if negative then -(n : Int) else (n : Int)
  if minInt32 ≤ value ∧ value ≤ maxInt32 then some value else none

end KmlTree
