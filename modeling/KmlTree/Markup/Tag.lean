import KmlTree.Attributes
import KmlTree.Text.Escape
import KmlTree.Text.Scan

/-!
This module contains the start tags of markup: the name of a tag and the reading of its attributes.
-/

namespace KmlTree

/--
A start tag or the tag of an empty element: what stands between the angle brackets, without the slash
of an empty element.
-/
structure Tag where
  content : List Char
deriving DecidableEq

/--
Why the attributes of a tag cannot be read. Positions count bytes from the start of the tag.
-/
inductive AttributeError where
  /-- A name is not followed by an equals sign but by what is at this position. -/
  | expectedEq (position : Nat)
  | expectedValue (position : Nat)
  | unquotedValue (position : Nat)
  | expectedQuote (position : Nat) (quote : Char)
  /-- The name at this position has been given at another one before. -/
  | duplicated (position previous : Nat)
  | reference (error : ReferenceError)
deriving DecidableEq

namespace Tag

def name (t : Tag) : String :=
  String.ofList (t.content.takeWhile fun c => !isBlank c)

/--
A place in a tag: how many bytes are before it, and what is after it.
-/
structure Cursor where
  offset : Nat
  rest : List Char

namespace Cursor

def taken (p : Char → Bool) (c : Cursor) : List Char := c.rest.takeWhile p

def skip (p : Char → Bool) (c : Cursor) : Cursor :=
  ⟨c.offset + byteLength (c.taken p), c.rest.dropWhile p⟩

theorem length_skip_le (p : Char → Bool) (c : Cursor) :
    (c.skip p).rest.length ≤ c.rest.length :=
  length_dropWhile_le p c.rest

end Cursor

/--
The name of an attribute goes on up to an equals sign or a blank, but its first character is part of
it in any case.
-/
def isNameCharacter (c : Char) : Bool :=
  c != '=' && !isBlank c

/--
Read an equals sign and a value in quotes, with blanks before both of them: the value and what comes
after it. `known` is the position at which the attribute has been given before, and `position` its
position now.
-/
def readValue (position : Nat) (known : Option Nat) (c : Cursor) :
    Except AttributeError (List Char × Cursor) :=
  let c := c.skip isBlank
  match c.rest with
  | '=' :: rest =>
    match known with
    | some previous => .error (.duplicated position previous)
    | none =>
      let c := Cursor.skip isBlank ⟨c.offset + 1, rest⟩
      match c.rest with
      | [] => .error (.expectedValue c.offset)
      | quote :: rest =>
        if quote = '\x22' ∨ quote = '\x27' then
          let start : Cursor := ⟨c.offset + 1, rest⟩
          let stop := start.skip (· != quote)
          match stop.rest with
          | [] => .error (.expectedQuote stop.offset quote)
          | _ :: rest => .ok (start.taken (· != quote), ⟨stop.offset + 1, rest⟩)
        else
          .error (.unquotedValue c.offset)
  | _ => .error (.expectedEq c.offset)

theorem length_readValue_le {position : Nat} {known : Option Nat} {c after : Cursor}
    {value : List Char} (h : readValue position known c = .ok (value, after)) :
    after.rest.length ≤ c.rest.length := by
  unfold readValue at h
  have hskip := c.length_skip_le isBlank
  dsimp only at h
  split at h
  . next rest hrest =>
    split at h
    . simp at h
    . have hvalue := Cursor.length_skip_le isBlank ⟨(c.skip isBlank).offset + 1, rest⟩
      split at h
      . simp at h
      . next quote rest' hrest' =>
        split at h
        . have hquote := Cursor.length_skip_le (· != quote)
            ⟨(Cursor.skip isBlank ⟨(c.skip isBlank).offset + 1, rest⟩).offset + 1, rest'⟩
          split at h
          . simp at h
          . next rest'' hrest'' =>
            simp only [Except.ok.injEq, Prod.mk.injEq] at h
            rw [← h.2]
            rw [hrest] at hskip
            rw [hrest'] at hvalue
            rw [hrest''] at hquote
            simp only [List.length_cons] at *
            omega
        . simp at h
  . simp at h

/--
Read the attributes from a place in a tag on. `seen` has the names before it with their positions. The
attributes are read and their values resolved one after the other, so that the first fault is the one
that is reported.
-/
def readAttributes (seen : List (String × Nat)) (c : Cursor) :
    Except AttributeError (List (String × String)) :=
  match hrest : (c.skip isBlank).rest with
  | [] => .ok []
  | first :: rest =>
    let position := (c.skip isBlank).offset
    let start : Cursor := ⟨position + first.utf8Size, rest⟩
    let name := String.ofList (first :: start.taken isNameCharacter)
    match hvalue : readValue position (seen.lookup name) (start.skip isNameCharacter) with
    | .error e => .error e
    | .ok (value, after) =>
      have : after.rest.length < c.rest.length := by
        have hvalue := length_readValue_le hvalue
        have hname := start.length_skip_le isNameCharacter
        have hblank := c.length_skip_le isBlank
        have hstart : start.rest.length = rest.length := rfl
        rw [hrest] at hblank
        simp only [List.length_cons] at hblank
        omega
      match unescape value with
      | .error e => .error (.reference e)
      | .ok value =>
        match readAttributes ((name, position) :: seen) after with
        | .error e => .error e
        | .ok pairs => .ok ((name, String.ofList value) :: pairs)
termination_by c.rest.length

def attributes (t : Tag) : Except AttributeError Attributes := do
  let isName := fun c => !isBlank c
  let pairs ← readAttributes [] (Cursor.skip isName ⟨0, t.content⟩)
  return Attributes.ofList pairs

end Tag

end KmlTree
