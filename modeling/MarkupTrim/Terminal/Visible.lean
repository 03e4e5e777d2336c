import MarkupTrim.Text.Blank

/-!
# The visible part of a text

A terminal shows most characters and obeys the rest. A control character is an order by itself; an
escape (U+001B) opens a sequence, which is one order to its end, whatever characters it holds. The
visible part of a text is what is left without these. Layout counts as visible, and so does a form
feed.

What follows the escape tells the sequence's kind. After `[` come parameters, up to a final character
between `@` and `~`. After `]` comes a command, up to a bell. After `P` comes a head, written like
what follows `[`, and behind it data; after `X`, `^` or `_` data comes at once. Data ends with the
byte 9C, wherever in the UTF-8 form of a character it stands. Most other characters are a sequence
together with the escape; those between a space and `/` wait for a final one. The characters
U+0018 and U+001A break a sequence off, and so does an escape, which opens the next one.

Everything that is left is visible (`isVisible_of_mem_visible`), and a text that is visible throughout
stays as it is (`visible_eq_self`).
-/

namespace MarkupTrim.Terminal

/-- Whether a character is shown when it stands outside of any sequence: layout, a form feed, and
what is no control character of ASCII. -/
def isVisible (c : Char) : Bool := isLayout c || c == '\x0c' || (' ' ≤ c && c != '\x7f')

/-- How far the head of a sequence with data has come. -/
inductive Head where
  | start
  | parameters
  /-- What stands behind the parameters has come. -/
  | modifiers
deriving DecidableEq, Repr

/-- What a terminal is reading. -/
inductive State where
  /-- Text, which it shows. -/
  | text
  /-- What follows an escape. -/
  | escape
  /-- The final character of a sequence whose escape is followed by one of those up to `/`. -/
  | final
  /-- Parameters and the final character behind them. -/
  | parameters
  /-- A command, up to a bell. -/
  | command
  /-- A head, behind which data comes. -/
  | head (read : Head)
  /-- Data, up to the byte 9C. -/
  | data
deriving DecidableEq, Repr

namespace State

/-- The state behind a character that follows an escape. -/
def opened (c : Char) : State :=
  if c = '[' then parameters
  else if c = ']' then command
  else if c = 'P' then head .start
  else if c = 'X' ∨ c = '^' ∨ c = '_' then data
  else if ' ' ≤ c ∧ c ≤ '/' then final
  else if '0' ≤ c ∧ c ≤ '~' then text
  else escape

/-- The state behind a character of a head. Data behind a head that is not well formed is read like
any other. -/
def behindHead (read : Head) (c : Char) : State :=
  if '@' ≤ c ∧ c ≤ '~' then data
  else if ' ' ≤ c ∧ c ≤ '/' then head .modifiers
  else if '0' ≤ c ∧ c ≤ '?' then
    match read with
    | .start => head .parameters
    | .parameters => if c ≤ ';' then head .parameters else data
    | .modifiers => data
  else head read

/-- The state behind one more character. -/
def next (state : State) (c : Char) : State :=
  if c = '\x1b' then escape
  else if c = '\x18' ∨ c = '\x1a' then text
  else
    match state with
    | text => text
    | escape => opened c
    | final => if '0' ≤ c ∧ c ≤ '~' then text else final
    | parameters => if '@' ≤ c ∧ c ≤ '~' then text else parameters
    | command => if c = '\x07' then text else command
    | head read => behindHead read c
    | data => if (String.utf8EncodeChar c).contains 0x9c then text else data

/-- Whether a character is shown that is read in this state. Inside a sequence that is neither a
command nor one with data, layout is shown all the same. -/
def shows : State → Char → Bool
  | text, c => isVisible c
  | escape, c | final, c | parameters, c => isLayout c || c == '\x0c'
  | command, _ | head _, _ | data, _ => false

theorem isVisible_of_shows {state : State} {c : Char} (h : state.shows c = true) :
    isVisible c = true := by
  have layout (h : (isLayout c || c == '\x0c') = true) : isVisible c = true := by
    rw [isVisible, h, Bool.true_or]
  cases state with
  | text => exact h
  | escape | final | parameters => exact layout h
  | command | head | data => exact absurd h Bool.false_ne_true

end State

/-- The visible characters of a text that is read from `state` on. Once a character is shown, what
follows is shown too, up to the first character that is not visible; a sequence in which this
happens goes on there, unless a character behind ASCII was shown meanwhile, which breaks it off. -/
def visibleFrom (showing : Bool) (state : State) : List Char → List Char
  | [] => []
  | c :: cs =>
    if showing && isVisible c then
      c :: visibleFrom true (if c.toNat < 0x80 then state else .text) cs
    else if state.shows c then c :: visibleFrom true (state.next c) cs
    else visibleFrom false (state.next c) cs

def visible (text : String) : String := String.ofList (visibleFrom true .text text.toList)

theorem isVisible_of_mem_visibleFrom {showing : Bool} {state : State} {cs : List Char} {c : Char}
    (h : c ∈ visibleFrom showing state cs) : isVisible c = true := by
  induction cs generalizing showing state with
  | nil => exact absurd h List.not_mem_nil
  | cons d cs ih =>
    rw [visibleFrom] at h
    split at h
    · next hd =>
      rcases List.mem_cons.mp h with rfl | h
      · exact ((Bool.and_eq_true _ _).mp hd).2
      · exact ih h
    · split at h
      · next hd =>
        rcases List.mem_cons.mp h with rfl | h
        · exact State.isVisible_of_shows hd
        · exact ih h
      · exact ih h

/-- **Only visible characters** are left of a text. -/
theorem isVisible_of_mem_visible {text : String} {c : Char} (h : c ∈ (visible text).toList) :
    isVisible c = true := by
  rw [visible, String.toList_ofList] at h
  exact isVisible_of_mem_visibleFrom h

theorem visibleFrom_eq_self {cs : List Char} (h : ∀ c ∈ cs, isVisible c = true) :
    visibleFrom true .text cs = cs := by
  induction cs with
  | nil => rfl
  | cons c cs ih =>
    rw [visibleFrom, if_pos (by rw [h c List.mem_cons_self]; rfl), ite_self,
      ih fun d hd => h d (List.mem_cons_of_mem _ hd)]

/-- A text that is visible throughout stays as it is. -/
theorem visible_eq_self {text : String} (h : ∀ c ∈ text.toList, isVisible c = true) :
    visible text = text := by
  rw [visible, visibleFrom_eq_self h, String.ofList_toList]

end MarkupTrim.Terminal
