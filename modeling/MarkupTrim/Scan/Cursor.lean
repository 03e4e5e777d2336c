import MarkupTrim.Scan.State
import MarkupTrim.Text.Slice

/-!
# Scanning a fragment

A fragment is scanned over its bytes. The bytes of `<` and `>` occur in UTF-8 as themselves only, so
the scan may look for them without decoding, and cut the fragment where it finds them. A cursor
stands where the last span ended; a step looks for the byte that ends the present state. A step that
finds `<` at the cursor moves nothing and only enters the tag, and the step after it moves on: so
twice as many steps as there are bytes take a scan to the end.
-/

namespace MarkupTrim.Scan

/-- A span by its place: the bytes from offset `start` up to `stop`. -/
structure Range where
  kind : Kind
  start : Nat
  stop : Nat
deriving DecidableEq, Repr

/-- A scan under way: its state, the number of bytes that are in spans already, the bytes ahead. -/
structure Cursor where
  state : State
  start : Nat
  ahead : List UInt8
deriving DecidableEq, Repr

namespace Cursor

/-- The cursor `count` bytes further on, in another state. -/
def advance (cursor : Cursor) (count : Nat) (state : State) : Cursor :=
  ⟨state, cursor.start + count, cursor.ahead.drop count⟩

/-- The next `count` bytes as a span, and no span if there are none. -/
def range? (cursor : Cursor) (kind : Kind) (count : Nat) : Option Range :=
  if count = 0 then none else some ⟨kind, cursor.start, cursor.start + count⟩

/-- One step of the scan: the span it completes, if any, and where it leaves the cursor. -/
def step (cursor : Cursor) : Option Range × Cursor :=
  match cursor.state with
  | .inText =>
    match cursor.ahead.findIdx? (· == '<'.toUInt8) with
    | some count => (cursor.range? .text count, cursor.advance count .inTag)
    | none =>
      (cursor.range? .text cursor.ahead.length, cursor.advance cursor.ahead.length .inText)
  | .inTag =>
    match cursor.ahead.findIdx? (· == '>'.toUInt8) with
    | some count => (cursor.range? .tag (count + 1), cursor.advance (count + 1) .inText)
    | none =>
      (cursor.range? .tag cursor.ahead.length, cursor.advance cursor.ahead.length .inTag)

/-- At most `steps` steps, fewer if the end is reached: the spans completed, in order, and where the
cursor stands then. -/
def run : Nat → Cursor → List Range × Cursor
  | 0, cursor => ([], cursor)
  | steps + 1, cursor =>
    if cursor.ahead.isEmpty then ([], cursor)
    else
      let (range, next) := cursor.step
      let (ranges, last) := run steps next
      (range.toList ++ ranges, last)

end Cursor

/-- The spans of a fragment by their places, and the state behind it, for a scan in `state`. -/
def ranges (fragment : String) (state : State) : List Range × State :=
  let bytes := Text.bytes fragment
  let (ranges, last) := Cursor.run (2 * bytes.length) ⟨state, 0, bytes⟩
  (ranges, last.state)

/-- The part of a fragment that a range stands for. -/
def Range.span (fragment : String) (range : Range) : Span :=
  ⟨range.kind, Text.slice fragment range.start range.stop⟩

/-- The spans of a fragment, in order, and the state behind it, for a scan that comes to the
fragment in `state`. -/
def classify (fragment : String) (state : State) : List Span × State :=
  let (ranges, last) := ranges fragment state
  (ranges.map (Range.span fragment), last)

end MarkupTrim.Scan
