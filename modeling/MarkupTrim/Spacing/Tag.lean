import MarkupTrim.Inline
import MarkupTrim.Text.Blank
import MarkupTrim.Text.Slice

/-!
# Inline tags

Where the tags of inline elements stand in a text. Only two shapes count: an opening tag, seen as
`<name` and the blank, `/` or `>` that ends the name (or the end of the text), and a closing tag
`</name>`. Tags are taken from left to right, none over another. A name is a run of lower-case
letters, so at one place at most one inline name can stand.
-/

namespace MarkupTrim.Spacing

/-- The two shapes of inline tags. -/
inductive TagKind where
  /-- `<name` with what ends the name. -/
  | opening
  /-- `</name>`. -/
  | closing
deriving DecidableEq, Repr

/-- Whether a character ends the name in a tag. -/
def endsName (c : Char) : Bool := isBlank c || c == '/' || c == '>'

/-- The number of characters of the opening inline tag that a text starts with. What ends the name
is one of them. -/
def opening? : List Char → Option Nat
  | '<' :: rest =>
    let name := rest.takeWhile Char.isLower
    if isInline (String.ofList name) then
      match (rest.dropWhile Char.isLower).head? with
      | none => some (name.length + 1)
      | some c => if endsName c then some (name.length + 2) else none
    else none
  | _ => none

/-- The number of characters of the closing inline tag that a text starts with. -/
def closing? : List Char → Option Nat
  | '<' :: '/' :: rest =>
    let name := rest.takeWhile Char.isLower
    if isInline (String.ofList name) ∧ (rest.dropWhile Char.isLower).head? = some '>' then
      some (name.length + 3)
    else none
  | _ => none

/-- The inline tag that a text starts with: its kind and the number of its characters. -/
def leadingTag? (cs : List Char) : Option (TagKind × Nat) :=
  match opening? cs with
  | some count => some (.opening, count)
  | none => (closing? cs).map fun count => (.closing, count)

/-- An inline tag in a text: the bytes it takes up, and the characters on either side of it, which
are missing at the ends of the text. -/
structure InlineTag where
  kind : TagKind
  start : Nat
  stop : Nat
  before : Option Char
  after : Option Char
deriving DecidableEq, Repr

/-- The inline tags of what is left of a text, behind `offset` bytes and the character `before`.
The next `skip` characters are part of a tag already taken. -/
def tagsFrom (offset : Nat) (before : Option Char) : Nat → List Char → List InlineTag
  | _, [] => []
  | skip + 1, c :: cs => tagsFrom (offset + c.utf8Size) (some c) skip cs
  | 0, c :: cs =>
    match leadingTag? (c :: cs) with
    | none => tagsFrom (offset + c.utf8Size) (some c) 0 cs
    | some (kind, count) =>
      { kind, start := offset, stop := offset + Text.byteCount ((c :: cs).take count), before,
        after := ((c :: cs).drop count).head? } ::
        tagsFrom (offset + c.utf8Size) (some c) (count - 1) cs

/-- The inline tags of a text, from left to right, none over another. -/
def inlineTags (text : String) : List InlineTag := tagsFrom 0 none 0 text.toList

end MarkupTrim.Spacing
