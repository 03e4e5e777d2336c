import MarkupTrim.Collapse
import MarkupTrim.Document.Event
import MarkupTrim.Document.Mode
import MarkupTrim.Document.Stats
import MarkupTrim.Scan.Cursor
import MarkupTrim.Spacing.Gap

/-!
# Documents

A document is minified fragment by fragment, in order. Between fragments it keeps whether a tag is
open, whether a hint is pending, and its byte counts.

Each fragment is condensed (tags stay as they are, texts are collapsed), and then the spaces that
this cost beside inline tags are put back. Some hosts render certain elements themselves, so that
neither the element nor the whitespace around it reaches the document. Such a host announces the
element first: an announced inline element is answered with the space that goes in front of it and
arms the hint, and the next fragment gets a leading space if it starts with a letter or digit.
-/

namespace MarkupTrim

/-- A span without the whitespace that does not count: a tag stays as it is, text is collapsed. -/
def Scan.Span.condensed (span : Scan.Span) : String :=
  match span.kind with
  | .tag => span.text
  | .text => (collapse span.text).text

/-- The spans of a fragment condensed and joined, and the state behind the fragment. -/
def condense (fragment : String) (state : Scan.State) : String × Scan.State :=
  let (spans, last) := Scan.classify fragment state
  (String.join (spans.map Scan.Span.condensed), last)

/-- A fragment condensed and with its gaps repaired, and the state behind the fragment. -/
def minify (fragment : String) (state : Scan.State) : String × Scan.State :=
  let (condensed, last) := condense fragment state
  ((Spacing.repair condensed).text, last)

/-- A document under way. -/
structure Document where
  mode : Mode := .minify
  /-- Whether the fragments so far end within a tag. -/
  state : Scan.State := .inText
  /-- Whether the next fragment is checked for a missing leading space. -/
  hintPending : Bool := false
  stats : Stats := {}
deriving DecidableEq, Repr

/-- What a call on a document gives back: text to emit, the document after the call, and the events
of the call in order. -/
structure Reply where
  text : String
  document : Document
  events : List Event := []
deriving DecidableEq, Repr

/-- Whether a text starts with a letter or digit of ASCII. -/
def startsWithWord (text : String) : Bool := text.toList.head?.any Char.isAlphanum

namespace Document

/-- Processes the next fragment. An empty one changes nothing, and leaves the hint for the next. -/
def fragment (document : Document) (input : String) : Reply :=
  match document.mode with
  | .passThrough =>
    { text := input
      document :=
        if input.isEmpty then document
        else { document with stats := document.stats.count input input } }
  | .minify =>
    if input.isEmpty then { text := "", document }
    else
      let (minified, state) := minify input document.state
      let needsSpace := document.hintPending && startsWithWord minified
      let output := if needsSpace then " " ++ minified else minified
      { text := output
        document :=
          { document with state, hintPending := false, stats := document.stats.count input output }
        events :=
          (if document.hintPending then [.hintConsumed needsSpace] else []) ++
            [.fragmentMinified input.utf8ByteSize output.utf8ByteSize state] }

/-- Takes note that the host renders the element `name` next. The last announcement counts: one of a
block element takes back a hint. -/
def announce (document : Document) (name : String) : Reply :=
  match document.mode with
  | .passThrough => { text := "", document }
  | .minify =>
    let armed := isInline name
    { text := if armed then " " else ""
      document := { document with hintPending := armed }
      events := [.announced name armed] }

/-- The two calls a host makes. -/
inductive Call where
  /-- The next literal fragment. -/
  | fragment (input : String)
  /-- The host renders an element itself. -/
  | announce (name : String)
deriving DecidableEq, Repr

/-- Makes a call. -/
def call (document : Document) : Call → Reply
  | .fragment input => document.fragment input
  | .announce name => document.announce name

/-- Makes calls one after another; one reply each. -/
def run (document : Document) : List Call → List Reply
  | [] => []
  | next :: rest =>
    let reply := document.call next
    reply :: reply.document.run rest

/-- The document after a run of calls. -/
def after (document : Document) (calls : List Call) : Document :=
  calls.foldl (fun document next => (document.call next).document) document

end Document

/-- Minifies a text as a document of its own, in one fragment. -/
def minifyText (text : String) : Reply :=
  let reply := ({} : Document).fragment text
  { reply with events := reply.events ++ [.textMinified reply.document.stats.saved] }

/-- The scope that the events of minifying `text` are logged in. -/
def textScope (text : String) : String :=
  s!"minify_document\x7blen={text.utf8ByteSize}\x7d: "

end MarkupTrim
