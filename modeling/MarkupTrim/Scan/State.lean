/-!
# The state of a scan

Markup is scanned on `<` and `>` alone. Text goes on up to a `<`, which opens a tag and belongs to
it; a tag goes on up to a `>`, which closes it and belongs to it. A `>` in text and a `<` in a tag
are characters like any other. Whether a tag is open is all that a scan carries from one fragment to
the next.
-/

namespace MarkupTrim.Scan

/-- Where a scan stands between two characters. -/
inductive State where
  /-- Outside of any tag. -/
  | inText
  /-- Behind a `<` whose `>` has not come yet. -/
  | inTag
deriving DecidableEq, Repr, Inhabited

/-- What a stretch of markup is. -/
inductive Kind where
  /-- Text between tags. -/
  | text
  /-- A tag, or the part of one that its fragment holds. -/
  | tag
deriving DecidableEq, Repr

/-- A stretch of a fragment that is all text or all of one tag. -/
structure Span where
  kind : Kind
  text : String
deriving DecidableEq, Repr

namespace State

/-- The state behind one more character. -/
def next : State → Char → State
  | inText, c => if c = '<' then inTag else inText
  | inTag, c => if c = '>' then inText else inTag

/-- The state behind a run of characters. -/
def after (state : State) (cs : List Char) : State := cs.foldl next state

/-- What a character is that a scan in this state meets. -/
def kindOf : State → Char → Kind
  | inText, c => if c = '<' then .tag else .text
  | inTag, _ => .tag

@[simp] theorem after_nil (state : State) : state.after [] = state := rfl

@[simp] theorem after_cons (state : State) (c : Char) (cs : List Char) :
    state.after (c :: cs) = (state.next c).after cs := rfl

theorem after_append (state : State) (as bs : List Char) :
    state.after (as ++ bs) = (state.after as).after bs := by
  simp [after]

theorem next_inText {c : Char} (hc : c ≠ '<') : inText.next c = .inText := by
  simp [next, hc]

theorem next_inTag {c : Char} (hc : c ≠ '>') : inTag.next c = .inTag := by
  simp [next, hc]

theorem kindOf_inText {c : Char} (hc : c ≠ '<') : inText.kindOf c = .text := by
  simp [kindOf, hc]

end State

end MarkupTrim.Scan
