import MarkupTrim.Spacing.Tag
import MarkupTrim.Text.Edit

/-!
# Gaps beside inline tags

Where a space belongs beside an inline tag and none stands: in front of an opening tag that directly
follows a character that is not blank, and behind a closing tag that a letter or digit of ASCII
directly follows. `repair` puts one space into each of these gaps and changes nothing else.
-/

namespace MarkupTrim.Spacing

/-- Where a space is missing beside a tag, as a byte offset. -/
def InlineTag.gap? (tag : InlineTag) : Option Nat :=
  match tag.kind with
  | .opening => if tag.before.any fun c => !isBlank c then some tag.start else none
  | .closing => if tag.after.any Char.isAlphanum then some tag.stop else none

/-- The byte offsets where a space is missing in a text, from left to right. -/
def gaps (text : String) : List Nat := (inlineTags text).filterMap InlineTag.gap?

/-- The pieces of a text from offset `copied` on, cut at the given offsets. -/
def cut (text : String) (copied : Nat) : List Nat → List String
  | [] => [Text.slice text copied text.utf8ByteSize]
  | gap :: rest => Text.slice text copied gap :: cut text gap rest

/-- The text with one space in each of its gaps; the text itself if it has none. -/
def repair (text : String) : Edit :=
  match gaps text with
  | [] => .kept text
  | found => .built (" ".intercalate (cut text 0 found))

theorem isKept_repair (text : String) : (repair text).isKept = (gaps text).isEmpty := by
  unfold repair
  split <;> simp_all

end MarkupTrim.Spacing
