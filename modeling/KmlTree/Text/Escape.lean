import KmlTree.Text.Bytes
import KmlTree.Text.Digit

/-!
This module contains the references that stand for characters in markup: writing them (`escapeText`,
`escapeAttribute`) and resolving them (`unescape`).
-/

namespace KmlTree

/--
What a character is written as in character data. Quotes stand for themselves there.
-/
def textReference (c : Char) : List Char :=
  match c with
  | '<' => "&lt;".toList
  | '>' => "&gt;".toList
  | '&' => "&amp;".toList
  | c => [c]

def attributeReference (c : Char) : List Char :=
  match c with
  | '\x27' => "&apos;".toList
  | '\x22' => "&quot;".toList
  | c => textReference c

def escapeText (s : String) : String :=
  String.ofList (s.toList.flatMap textReference)

def escapeAttribute (s : String) : String :=
  String.ofList (s.toList.flatMap attributeReference)

/--
Why a text with references has no meaning. Offsets count bytes from the start of the text.
-/
inductive ReferenceError where
  /-- From `start` on there is a `&` that no `;` ends; the text ends at `stop`. -/
  | unterminated (start stop : Nat)
  /-- Between `start` and `stop` stands a name that is not predefined. -/
  | unrecognized (start stop : Nat) (name : String)
  | tooLongDecimal
  | tooLongHexadecimal
  | invalidDecimal (byte : Nat)
  | invalidHexadecimal (byte : Nat)
  | null (start stop : Nat)
  | invalidCodePoint (code : Nat)
deriving DecidableEq

def namedCharacter? (name : List Char) : Option Char :=
  if name = "lt".toList then some '<'
  else if name = "gt".toList then some '>'
  else if name = "amp".toList then some '&'
  else if name = "apos".toList then some '\x27'
  else if name = "quot".toList then some '\x22'
  else none

/--
The number that a list of digits denotes in a base; no digits denote zero. The first character that
is not a digit is an error, given by its first byte.
-/
def codePoint (base : Nat) (digit? : Char → Option Nat) (invalid : Nat → ReferenceError)
    (digits : List Char) : Except ReferenceError Nat :=
  digits.foldlM (fun code c =>
    match digit? c with
    | some d => .ok (code * base + d)
    | none => .error (invalid (leadByte c))) 0

/--
The number after the `#` of a reference: hexadecimal after an `x`, else decimal.
-/
def referenceNumber (number : List Char) : Except ReferenceError Nat :=
  match number with
  | 'x' :: digits =>
    if byteLength digits > 6 then
      .error .tooLongHexadecimal
    else
      codePoint 16 hexadecimalDigit? .invalidHexadecimal digits
  | digits =>
    if byteLength digits > 7 then
      .error .tooLongDecimal
    else
      codePoint 10 decimalDigit? .invalidDecimal digits

/--
The character that a reference denotes. `body` is what stands between the `&`, which is at the
offset `start`, and the `;`, which is at the offset `stop`.
-/
def resolveReference (start stop : Nat) (body : List Char) : Except ReferenceError Char :=
  match body with
  | '#' :: number => do
    let code ← referenceNumber number
    if code = 0 then
      .error (.null start stop)
    else if code.isValidChar then
      .ok (Char.ofNat code)
    else
      .error (.invalidCodePoint code)
  | name =>
    match namedCharacter? name with
    | some c => .ok c
    | none => .error (.unrecognized (start + 1) stop (String.ofList name))

/--
What a scan of a text with references has seen. `resolved` is the meaning of the text so far and
`pending` the body of the reference that the scan is in; both are kept in reverse.
-/
structure ReferenceScan where
  offset : Nat
  resolved : List Char
  pending : Option (Nat × List Char)

namespace ReferenceScan

def initial : ReferenceScan := ⟨0, [], none⟩

/--
Read one character of a text that takes `length` bytes.
-/
def step (length : Nat) (s : ReferenceScan) (c : Char) : Except ReferenceError ReferenceScan :=
  let offset := s.offset + c.utf8Size
  match s.pending with
  | none =>
    if c = '&' then
      .ok ⟨offset, s.resolved, some (s.offset, [])⟩
    else
      .ok ⟨offset, c :: s.resolved, none⟩
  | some (start, body) =>
    if c = ';' then do
      let denoted ← resolveReference start s.offset body.reverse
      return ⟨offset, denoted :: s.resolved, none⟩
    else if c = '&' then
      .error (.unterminated start length)
    else
      .ok ⟨offset, s.resolved, some (start, c :: body)⟩

def finish (length : Nat) (s : ReferenceScan) : Except ReferenceError (List Char) :=
  match s.pending with
  | none => .ok s.resolved.reverse
  | some (start, _) => .error (.unterminated start length)

end ReferenceScan

def unescape (s : List Char) : Except ReferenceError (List Char) := do
  let length := byteLength s
  let scan ← s.foldlM (ReferenceScan.step length) .initial
  scan.finish length

end KmlTree
