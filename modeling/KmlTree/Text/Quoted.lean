import KmlTree.Text.Printable

/-!
This module contains the quoted form of a text, in which every character is visible.
-/

namespace KmlTree

def quotedCharacter (c : Char) : List Char :=
  match c with
  | '\x00' => ['\\', '0']
  | '\t' => ['\\', 't']
  | '\n' => ['\\', 'n']
  | '\r' => ['\\', 'r']
  | '\\' => ['\\', '\\']
  | '\x22' => ['\\', '\x22']
  | c =>
    if isPrintable c then
      [c]
    else
      ['\\', 'u', '\x7b'] ++ Nat.toDigits 16 c.toNat ++ ['\x7d']

/--
A text between double quotes, with the characters escaped that would not be visible or would end it.
-/
def quoted (s : String) : String :=
  String.ofList (['\x22'] ++ s.toList.flatMap quotedCharacter ++ ['\x22'])

end KmlTree
