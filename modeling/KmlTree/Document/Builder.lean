import KmlTree.Document.Error
import KmlTree.Element.Child
import KmlTree.Element.Content
import KmlTree.Markup.Transcript

/-!
This module contains the builder of a document. It consumes the events of a reader one after the other
and keeps the elements that are open, each with the text that has been found directly inside of it so
far. An element is offered to its parent when it closes. An element that is not of the catalog is
captured: nothing inside of it is looked at, and its markup is cut out of the text when it closes.
-/

namespace KmlTree

/--
An open element, and the text directly inside of it.
-/
structure Frame where
  element : Element
  text : String

/--
An element that is being captured: its name, how many elements of the same name are open inside of it,
and the byte at which its markup starts.
-/
structure Capture where
  name : String
  depth : Nat
  start : Nat
deriving DecidableEq

/--
The state of a builder. The innermost open element comes first, and `fresh` is the number that the next
element gets.
-/
structure Builder where
  stack : List Frame
  root : Option Element
  capture : Option Capture
  fresh : Nat

namespace Builder

def start (fresh : Nat) : Builder := ⟨[], none, none, fresh⟩

/--
Add text to the innermost open element. Outside of the root there is none, and the text is dropped.
-/
def pushText (b : Builder) (text : List Char) : Builder :=
  match b.stack with
  | [] => b
  | frame :: frames =>
    { b with stack := { frame with text := frame.text ++ String.ofList text } :: frames }

def offer (b : Builder) (child : Element) : Builder :=
  match b.stack with
  | [] => b
  | frame :: frames => { b with stack := { frame with element := frame.element.add child } :: frames }

/--
Close the innermost open element. It is offered to the one around it, or it is the root.
-/
def close (b : Builder) : Builder :=
  match b.stack with
  | [] => b
  | frame :: frames =>
    let element := frame.element.setText frame.text
    let b := { b with stack := frames }
    match frames with
    | [] => { b with root := some element }
    | _ :: _ => b.offer element

/--
Offer markup of the text from byte `start` to byte `stop` to the innermost open element.
-/
def offerMarkup (text : List Char) (start stop : Nat) (b : Builder) : Except ParseError Builder :=
  match sliceBytes? start stop text with
  | none => .error .splitCharacter
  | some markup =>
    let fragment := Element.ofBody b.fresh (.fragment (String.ofList markup))
    .ok ({ b with fresh := b.fresh + 1 }.offer fragment)

/--
The last byte before byte `stop` of a text at which there is an opening angle bracket, or the first
byte if there is none.
-/
def lastBracket? (text : List Char) (stop : Nat) : Option Nat :=
  (splitBytes? stop text).map fun (before, _) =>
    byteLength ((before.reverse.dropWhile (· != '<')).drop 1)

/--
Begin to capture the element of a tag that ends at byte `stop`. An empty element is captured at once.
-/
def beginCapture (text : List Char) (stop : Nat) (tag : Tag) (isEmpty : Bool) (b : Builder) :
    Except ParseError Builder :=
  match lastBracket? text stop with
  | none => .error .splitCharacter
  | some start =>
    if isEmpty then
      b.offerMarkup text start stop
    else
      .ok { b with capture := some ⟨tag.name, 0, start⟩ }

def push (b : Builder) (element : Element) (attributes : Attributes) : Builder :=
  let (xmlns, attributes) := attributes.cut "xmlns"
  let element :=
    match xmlns with
    | some xmlns => element.setXmlns xmlns
    | none => element
  { b with
    stack := ⟨element.takeAttributes attributes, ""⟩ :: b.stack
    fresh := b.fresh + 1 }

/--
Consume a start tag or the tag of an empty element that ends at byte `stop`.
-/
def enter (text : List Char) (limit stop : Nat) (tag : Tag) (isEmpty : Bool) (b : Builder) :
    Except ParseError Builder :=
  if b.stack.length + 1 > limit then
    .error (.nestingTooDeep limit)
  else if b.stack.isEmpty && b.root.isSome then
    .error .multipleRoots
  else
    match (Kind.ofTag? tag.name).bind (Element.create? b.fresh) with
    | none =>
      if b.stack.isEmpty then
        .error (.unknownRoot tag.name)
      else
        b.beginCapture text stop tag isEmpty
    | some element =>
      match tag.attributes with
      | .error e => .error (.markup stop (.attributes e))
      | .ok attributes =>
        let b := b.push element attributes
        .ok (if isEmpty then b.close else b)

def continueCapture (text : List Char) (stop : Nat) (c : Capture) (b : Builder) :
    Event → Except ParseError Builder
  | .start tag =>
    if tag.name = c.name then
      .ok { b with capture := some { c with depth := c.depth + 1 } }
    else
      .ok b
  | .close name =>
    if name = c.name then
      if c.depth = 0 then
        { b with capture := none }.offerMarkup text c.start stop
      else
        .ok { b with capture := some { c with depth := c.depth - 1 } }
    else
      .ok b
  | _ => .ok b

/--
Consume an event. `after` is the reader behind it.
-/
def step (text : List Char) (limit : Nat) (b : Builder) : Event × Reader → Except ParseError Builder
  | (e, after) =>
    match b.capture with
    | some c => b.continueCapture text after.position c e
    | none =>
      match e with
      | .text raw =>
        match unescape raw with
        | .error e => .error (.markup after.position (.reference e))
        | .ok content => .ok (b.pushText content)
      | .cdata content => .ok (b.pushText content)
      | .start tag => b.enter text limit after.position tag false
      | .empty tag => b.enter text limit after.position tag true
      | .close _ => .ok b.close
      | .aside => .ok b

/--
The root at the end of the reading, and the number that the next element gets.
-/
def finish (b : Builder) : Ending → Except ParseError (Element × Nat)
  | .failed position e => .error (.markup position (.read e))
  | .finished position =>
    match b.capture with
    | some c => .error (.markup position (.unclosedMarkup c.name))
    | none =>
      if b.stack.isEmpty then
        match b.root with
        | some root => .ok (root, b.fresh)
        | none => .error .noRoot
      else
        .error (.unclosedElements b.stack.length)

end Builder

end KmlTree
