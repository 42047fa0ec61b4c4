import KmlTree.Markup.Declaration

/-!
This module contains the reader of markup. It cuts a text into events one at a time (`Reader.next`) and
keeps count of the bytes and of the names of the open tags. What stands between the angle brackets of a
start tag and what references mean is not looked at here.
-/

namespace KmlTree

/--
A reader in a text. `afterText` tells that the last event was text. The innermost open tag comes first.
-/
structure Reader where
  rest : List Char
  consumed : Nat
  afterText : Bool
  openNames : List String

/--
How reading ends: at the end of the text or with an error, both with a position in bytes.
-/
inductive Ending where
  | finished (position : Nat)
  | failed (position : Nat) (error : ReadError)
deriving DecidableEq

inductive Reading where
  | event (e : Event) (after : Reader)
  | ending (e : Ending)

/--
The automaton that finds the angle bracket at the end of a start tag. Its state is the quote that it is
inside of.
-/
def tagStep : Option Char → Char → Option (Option Char)
  | none, c =>
    if c = '>' then none
    else if c = '\x22' ∨ c = '\x27' then some (some c)
    else some none
  | some quote, c => if c = quote then some none else some (some quote)

namespace Reader

/--
A reader at the start of a text. A byte order mark is not part of the text and is not counted.
-/
def start (text : List Char) : Reader :=
  match text with
  | '\ufeff' :: rest => ⟨rest, 0, false, []⟩
  | rest => ⟨rest, 0, false, []⟩

/--
The place in the text, in bytes, that a report about the last event gives: behind the event, or one
byte before that if it was text that runs to the end.
-/
def position (r : Reader) : Nat :=
  if r.afterText && r.rest.isEmpty then r.consumed - 1 else r.consumed

def advance (r : Reader) (content : List Char) (delimiters : Nat) (after : List Char) : Reader :=
  { r with
    rest := after
    consumed := r.consumed + byteLength content + delimiters
    afterText := false }

def fail (position : Nat) (e : ReadError) : Reading :=
  .ending (.failed position e)

/--
Move behind the next closing angle bracket, or to the end if there is none: the content before it, and
the reader after it.
-/
def readToBracket (r : Reader) : List Char × Reader :=
  let content := r.rest.takeWhile (· != '>')
  let rest := r.rest.dropWhile (· != '>')
  (content, r.advance content (if rest.isEmpty then 0 else 1) (rest.drop 1))

/--
Read the text up to the next opening angle bracket, or to the end if there is none.
-/
def readText (r : Reader) : Reading :=
  let content := r.rest.takeWhile (· != '<')
  let after := r.advance content 0 (r.rest.dropWhile (· != '<'))
  .event (.text content) { after with afterText := true }

def readDeclaration (r : Reader) : Reading :=
  match r.rest.drop 1 with
  | [] => fail r.consumed (.unexpectedEnd "Bang")
  | c :: _ =>
    match Declaration.ofChar? c with
    | none => fail r.consumed (.unknownDeclaration (leadByte c))
    | some kind =>
      match splitScan? kind.step (0, 0) r.rest with
      | none => fail r.consumed (.unexpectedEnd kind.label)
      | some (content, after) =>
        let after := r.advance content 1 after
        if kind.opens content then
          match kind.event? content with
          | some e => .event e after
          | none => fail after.consumed .emptyDoctype
        else
          fail after.consumed (.unexpectedEnd kind.label)

/--
The name in an end tag. Blanks after it do not belong to it, unless there is nothing else.
-/
def closingName (content : List Char) : List Char :=
  let trimmed := (content.reverse.dropWhile isBlank).reverse
  if trimmed.isEmpty then content else trimmed

def readClose (r : Reader) : Reading :=
  let (content, after) := r.readToBracket
  let fault := after.consumed - byteLength content
  match r.openNames with
  | [] => fail fault (.mismatchedEnd "" (String.ofList (content.drop 1)))
  | expected :: names =>
    let found := String.ofList (closingName (content.drop 1))
    if found = expected then
      .event (.close expected) { after with openNames := names }
    else
      fail fault (.mismatchedEnd expected found)

def readInstruction (r : Reader) : Reading :=
  let (content, after) := r.readToBracket
  if content.length > 2 ∧ content.getLast? = some '?' then
    .event .aside after
  else
    fail (after.consumed - byteLength content) (.unexpectedEnd "XmlDecl")

def readTag (r : Reader) : Reading :=
  match splitScan? tagStep none r.rest with
  | none => fail r.consumed (.unexpectedEnd "Element")
  | some (content, after) =>
    let after := r.advance content 1 after
    if content.getLast? = some '/' then
      .event (.empty ⟨content.dropLast⟩) after
    else
      let tag : Tag := ⟨content⟩
      .event (.start tag) { after with openNames := tag.name :: r.openNames }

def readMarkup (r : Reader) : Reading :=
  match r.rest with
  | [] => .ending (.finished r.consumed)
  | '!' :: _ => r.readDeclaration
  | '/' :: _ => r.readClose
  | '?' :: _ => r.readInstruction
  | _ :: _ => r.readTag

def next (r : Reader) : Reading :=
  match r.rest with
  | [] => .ending (.finished r.consumed)
  | '<' :: rest => { r with rest := rest, consumed := r.consumed + 1 }.readMarkup
  | _ :: _ => r.readText

end Reader

end KmlTree
