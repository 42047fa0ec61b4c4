/-!
This module contains the measures of text in UTF-8 bytes: how many bytes a text takes, what a
prefix of so many bytes is, and the first byte of a character.
-/

namespace KmlTree

def byteLength (s : List Char) : Nat :=
  s.foldr (fun c n => c.utf8Size + n) 0

/--
Split a text after its first `n` bytes. There is no such split if the text is shorter or if byte `n`
lies inside of a character.
-/
def splitBytes? : Nat → List Char → Option (List Char × List Char)
  | 0, s => some ([], s)
  | _ + 1, [] => none
  | n + 1, c :: rest =>
    if c.utf8Size ≤ n + 1 then
      (splitBytes? (n + 1 - c.utf8Size) rest).map fun (before, after) => (c :: before, after)
    else
      none

/--
The text from byte `start` to before byte `stop`, if both lie between two characters.
-/
def sliceBytes? (start stop : Nat) (s : List Char) : Option (List Char) := do
  let (before, _) ← splitBytes? stop s
  let (_, slice) ← splitBytes? start before
  return slice

def leadByte (c : Char) : Nat :=
  let n := c.toNat
  if n < 0x80 then
    n
  else if n < 0x800 then
    0xc0 + n / 0x40
  else if n < 0x10000 then
    0xe0 + n / 0x1000
  else
    0xf0 + n / 0x40000

end KmlTree
