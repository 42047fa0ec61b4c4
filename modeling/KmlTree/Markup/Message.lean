import KmlTree.Markup.Event
import KmlTree.Text.Quoted

/-!
This module contains the wording of everything that can be wrong with markup.
-/

namespace KmlTree

def rangeMessage (start stop : Nat) (what : String) : String :=
  "Error while escaping character at range " ++ toString start ++ ".." ++ toString stop ++ ": "
    ++ what

def byteText (byte : Nat) : String :=
  String.singleton (Char.ofNat byte)

def ReferenceError.message : ReferenceError → String
  | unterminated start stop => rangeMessage start stop "Cannot find ';' after '&'"
  | unrecognized start stop name =>
    rangeMessage start stop ("Unrecognized escape symbol: " ++ quoted name)
  | tooLongDecimal => "Cannot convert decimal to utf8"
  | tooLongHexadecimal => "Cannot convert hexadecimal to utf8"
  | invalidDecimal byte => "'" ++ byteText byte ++ "' is not a valid decimal character"
  | invalidHexadecimal byte => "'" ++ byteText byte ++ "' is not a valid hexadecimal character"
  | null start stop => rangeMessage start stop "Null character entity not allowed"
  | invalidCodePoint code => "'" ++ toString code ++ "' is not a valid codepoint"

def positionMessage (position : Nat) (what : String) : String :=
  "position " ++ toString position ++ ": " ++ what

def AttributeError.message : AttributeError → String
  | expectedEq position =>
    positionMessage position "attribute key must be directly followed by `=` or space"
  | expectedValue position =>
    positionMessage position "`=` must be followed by an attribute value"
  | unquotedValue position =>
    positionMessage position "attribute value must be enclosed in `\"` or `'`"
  | expectedQuote position quote =>
    positionMessage position
      ("missing closing quote `" ++ String.singleton quote ++ "` in attribute value")
  | duplicated position previous =>
    positionMessage position
      ("duplicated attribute, previous declaration at position " ++ toString previous)
  | reference error => error.message

def ReadError.message : ReadError → String
  | unexpectedEnd construct => "Unexpected EOF during reading " ++ construct
  | unknownDeclaration byte =>
    "Only Comment (`--`), CDATA (`[CDATA[`) and DOCTYPE (`DOCTYPE`) nodes can start with a '!', "
      ++ "but symbol `" ++ byteText byte ++ "` found"
  | emptyDoctype => "DOCTYPE declaration must not be empty"
  | mismatchedEnd expected found => "Expecting </" ++ expected ++ "> found </" ++ found ++ ">"

end KmlTree
