import MarkupTrim.Scan.State

/-!
# Events

What a document reports while it is processed, and the log line of each event: its level, the scope
it occurred in, the part of the program it comes from and its fields.
-/

namespace MarkupTrim

/-- What can happen to a document. -/
inductive Event where
  /-- An element was announced; an inline one arms the hint. -/
  | announced (name : String) (armed : Bool)
  /-- A fragment used up the hint, and got a leading space if it needed one. -/
  | hintConsumed (needsSpace : Bool)
  /-- A fragment was minified: its bytes, the bytes of the result, the state behind it. -/
  | fragmentMinified (input output : Nat) (state : Scan.State)
  /-- A whole text was minified. -/
  | textMinified (saved : Nat)
deriving DecidableEq, Repr

/-- A state as log lines name it. -/
def Scan.State.label : Scan.State → String
  | inText => "InText"
  | inTag => "InTag"

namespace Event

/-- The level an event is logged at: fragments are many, so they are only traced. -/
def level : Event → String
  | fragmentMinified .. => "TRACE"
  | _ => "DEBUG"

/-- An event and its fields in words. -/
def message : Event → String
  | announced name armed => s!"special element tag_name=\"{name}\" armed={armed}"
  | hintConsumed needsSpace => s!"consumed hyperlink hint needs_space={needsSpace}"
  | fragmentMinified input output state =>
    s!"minified fragment input={input} output={output} state={state.label}"
  | textMinified saved => s!"minified document saved={saved}"

/-- The log line of an event; `scope` names what it was part of, and is empty if it stands alone. -/
def line (scope : String) (event : Event) : String :=
  s!"{event.level} {scope}literal_minify::document: {event.message}"

end Event

end MarkupTrim
