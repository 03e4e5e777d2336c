import MarkupTrim.CommandLine.Settings
import MarkupTrim.CommandLine.Token
import MarkupTrim.Terminal.Visible
import MarkupTrim.Text.Paragraph

/-!
# Arguments

What a command line asks for: help, the version, or a run with certain settings; or what is wrong
with it. Options are read in order. What an option or a run of inputs brings is pending until
something else follows, and is judged only then, so that an option that does not exist is complained
of first. Help and the version are answered as soon as they are reached, whatever comes behind them.
-/

namespace MarkupTrim.CommandLine

/-- What can be wrong with a command line. -/
inductive UsageError where
  | noInputs
  /-- An option does not exist. -/
  | unexpectedArgument (written : String)
  /-- A flag is given a value. -/
  | unexpectedValue (flag : Flag) (value : String)
  /-- An option has no value, or an empty one. -/
  | missingValue (option : Valued)
  | emptyInput
  | repeatedFlag (flag : Flag)
  | repeatedOption (option : Valued)
deriving DecidableEq, Repr

/-- An option that takes a value, as usage errors name it. -/
def Valued.usage : Valued → String
  | output => "--output <OUTPUT>"
  | extensions => "--ext <EXTENSIONS>"

/-- The words for what is wrong with a command line, with the visible part of what they quote. -/
def UsageError.words : UsageError → String
  | noInputs => "error: the following required arguments were not provided:\n  <INPUTS>..."
  | unexpectedArgument written =>
    s!"error: unexpected argument '{Terminal.visible written}' found"
  | unexpectedValue flag value =>
    s!"error: unexpected value '{Terminal.visible value}' for '{flag.name}' found; " ++
      "no more were expected"
  | missingValue option =>
    s!"error: a value is required for '{option.usage}' but none was supplied"
  | emptyInput => "error: a value is required for '<INPUTS>...' but none was supplied"
  | repeatedFlag flag => s!"error: the argument '{flag.name}' cannot be used multiple times"
  | repeatedOption option => s!"error: the argument '{option.usage}' cannot be used multiple times"

/-- What is said about a command line that is wrong. It is one paragraph: an empty line in what is
quoted ends it. -/
def UsageError.message (error : UsageError) : String := firstParagraph error.words

def UsageError.exitStatus : Nat := 2

/-- What a command line asks for. -/
inductive Request where
  | help
  | version
  | run (settings : Settings)
  | refused (error : UsageError)
deriving DecidableEq, Repr

/-- What has been read and is not judged yet. -/
inductive Pending where
  | nothing
  /-- An option whose value may be the next argument. -/
  | awaiting (option : Valued)
  /-- An option that took the argument behind it as its value. -/
  | holding (option : Valued) (value : String)
  /-- Inputs, one behind the other. -/
  | inputs (paths : List String)
deriving DecidableEq, Repr

/-- A command line read up to some point. -/
structure Draft where
  inPlace : Bool := false
  output : Option String := none
  extensions : Option (List String) := none
  passThrough : Bool := false
  verbose : Bool := false
  inputs : List String := []
  pending : Pending := .nothing
deriving DecidableEq, Repr

namespace Draft

/-- Takes the value of an option. Extensions may be given again, and may be empty. -/
def accept (draft : Draft) : Valued → String → Except Request Draft
  | .output, value =>
    if draft.output.isSome then .error (.refused (.repeatedOption .output))
    else if value = "" then .error (.refused (.missingValue .output))
    else .ok { draft with output := some value }
  | .extensions, value =>
    .ok { draft with extensions := some (draft.extensions.getD [] ++ [value]) }

def settle (draft : Draft) : Except Request Draft :=
  let settled := { draft with pending := .nothing }
  match draft.pending with
  | .nothing => .ok settled
  | .awaiting option => .error (.refused (.missingValue option))
  | .holding option value => settled.accept option value
  | .inputs paths =>
    if paths.any (· == "") then .error (.refused .emptyInput)
    else .ok { settled with inputs := draft.inputs ++ paths }

/-- Sets a flag, or answers it. -/
def raise (draft : Draft) (flag : Flag) : Except Request Draft :=
  let once (given : Bool) (raised : Draft) : Except Request Draft :=
    if given then .error (.refused (.repeatedFlag flag)) else .ok raised
  match flag with
  | .help => .error .help
  | .version => .error .version
  | .inPlace => once draft.inPlace { draft with inPlace := true }
  | .passThrough => once draft.passThrough { draft with passThrough := true }
  | .verbose => once draft.verbose { draft with verbose := true }

/-- Adds an input to those pending. -/
def addInput (draft : Draft) (path : String) : Except Request Draft :=
  match draft.pending with
  | .inputs paths => .ok { draft with pending := .inputs (paths ++ [path]) }
  | _ => do return { ← draft.settle with pending := .inputs [path] }

def read (draft : Draft) : Token → Except Request Draft
  | .unknown written => .error (.refused (.unexpectedArgument written))
  | .flagValue flag value => .error (.refused (.unexpectedValue flag value))
  | .flag flag => do (← draft.settle).raise flag
  | .valued option none => do return { ← draft.settle with pending := .awaiting option }
  | .valued option (some value) => do (← draft.settle).accept option value
  | .operand text =>
    match draft.pending with
    | .awaiting option => .ok { draft with pending := .holding option text }
    | _ => draft.addInput text
  | .input path => draft.addInput path

/-- The settings of a command line that is read to its end. -/
def finish (draft : Draft) : Except Request Settings := do
  let settled ← draft.settle
  if settled.inputs.isEmpty then .error (.refused .noInputs)
  else
    return {
      inPlace := settled.inPlace
      output := settled.output
      extensions := settled.extensions.getD defaultExtensions
      passThrough := settled.passThrough
      verbose := settled.verbose
      inputs := settled.inputs }

end Draft

/-- What a command line asks for. -/
def request (arguments : List String) : Request :=
  match (tokens arguments).foldlM Draft.read {} >>= Draft.finish with
  | .ok settings => .run settings
  | .error answer => answer

end MarkupTrim.CommandLine
