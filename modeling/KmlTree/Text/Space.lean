/-!
This module contains the `White_Space` property of Unicode and the two ways text is cut by it:
removing the white space around a text and listing its words.
-/

namespace KmlTree

/--
The code points with the Unicode property `White_Space`, as inclusive ranges in increasing order.
-/
def spaceRanges : List (Nat × Nat) :=
  [(0x0009, 0x000d), (0x0020, 0x0020), (0x0085, 0x0085), (0x00a0, 0x00a0), (0x1680, 0x1680),
   (0x2000, 0x200a), (0x2028, 0x2029), (0x202f, 0x202f), (0x205f, 0x205f), (0x3000, 0x3000)]

def isSpace (c : Char) : Bool :=
  spaceRanges.any fun (first, last) => first ≤ c.toNat && c.toNat ≤ last

def trim (s : List Char) : List Char :=
  ((s.dropWhile isSpace).reverse.dropWhile isSpace).reverse

/--
Cut a text at every character that satisfies `p`. The pieces between two cuts that touch are empty,
so there is always one piece more than there are cuts.
-/
def cutAt (p : Char → Bool) (s : List Char) : List (List Char) :=
  s.foldr step [[]]
where
  step (c : Char) (pieces : List (List Char)) : List (List Char) :=
    if p c then
      [] :: pieces
    else
      match pieces with
      | [] => [[c]]
      | piece :: pieces => (c :: piece) :: pieces

/--
The maximal runs of characters that are not white space, in order.
-/
def words (s : List Char) : List (List Char) :=
  (cutAt isSpace s).filter fun piece => !piece.isEmpty

end KmlTree
