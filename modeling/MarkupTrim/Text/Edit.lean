/-!
# Edited text

What an edit of a text gives back: a stretch of the text as it stands, which needs no storage of its
own, or a text built anew. Most fragments need no edit, so callers want to know which it was.
-/

namespace MarkupTrim

/-- The result of an edit. -/
inductive Edit where
  /-- A stretch of the edited text, possibly all of it. -/
  | kept (text : String)
  /-- A text built anew. -/
  | built (text : String)
deriving DecidableEq, Repr

namespace Edit

/-- The resulting text, however it came about. -/
def text : Edit → String
  | kept text | built text => text

/-- Whether the result is a stretch of the edited text. -/
def isKept : Edit → Bool
  | kept _ => true
  | built _ => false

@[simp] theorem text_kept (t : String) : (kept t).text = t := rfl
@[simp] theorem text_built (t : String) : (built t).text = t := rfl
@[simp] theorem isKept_kept (t : String) : (kept t).isKept = true := rfl
@[simp] theorem isKept_built (t : String) : (built t).isKept = false := rfl

end Edit

end MarkupTrim
