/-!
# Tokens of a command line

What each argument of a command line is, seen by itself. An argument that starts with two dashes
names one option, and may bring its value behind a `=`. One that starts with one dash is a bundle of
letters, each an option; the letter of an option that takes a value ends the bundle, and what is
left of the bundle is that value. A lone dash is an operand, and so is everything behind the
argument `--`.
-/

namespace MarkupTrim.CommandLine

/-- The options that take no value. -/
inductive Flag where
  | inPlace
  | passThrough
  | verbose
  | help
  | version
deriving DecidableEq, Repr

/-- The options that take a value. -/
inductive Valued where
  | output
  | extensions
deriving DecidableEq, Repr

def Flag.name : Flag → String
  | inPlace => "--in-place"
  | passThrough => "--pass-through"
  | verbose => "--verbose"
  | help => "--help"
  | version => "--version"

def Valued.name : Valued → String
  | output => "--output"
  | extensions => "--ext"

def Flag.ofLetter? : Char → Option Flag
  | 'i' => some inPlace
  | 'v' => some verbose
  | 'h' => some help
  | 'V' => some version
  | _ => none

def Flag.ofName? (name : String) : Option Flag :=
  [inPlace, passThrough, verbose, help, version].find? (·.name == name)

def Valued.ofName? (name : String) : Option Valued :=
  [output, extensions].find? (·.name == name)

/-- What an argument, or a letter of one, is. -/
inductive Token where
  | flag (flag : Flag)
  /-- A flag with a value, which no flag takes. -/
  | flagValue (flag : Flag) (value : String)
  /-- An option that takes a value, with the value if the argument brings it. -/
  | valued (option : Valued) (value : Option String)
  /-- An option that does not exist, as it is written. -/
  | unknown (written : String)
  /-- An input, or the value that an option in front of it waits for. -/
  | operand (text : String)
  /-- An input, whatever stands in front of it. -/
  | input (path : String)
deriving DecidableEq, Repr

/-- The token of an argument that names one option, given without the value that `=` brings. -/
def Token.ofName (name : String) (value : Option String) : Token :=
  match Flag.ofName? name, Valued.ofName? name, value with
  | some raised, _, none => .flag raised
  | some raised, _, some value => .flagValue raised value
  | none, some option, _ => .valued option value
  | none, none, _ => .unknown name

/-- The tokens of a bundle of letters. A `=` between an option and its value is no part of it. -/
def Token.ofLetters : List Char → List Token
  | [] => []
  | 'o' :: rest =>
    match rest with
    | [] => [.valued .output none]
    | '=' :: value => [.valued .output (some (String.ofList value))]
    | value => [.valued .output (some (String.ofList value))]
  | letter :: rest =>
    match Flag.ofLetter? letter with
    | some raised => .flag raised :: ofLetters rest
    | none => [.unknown (String.ofList ['-', letter])]

/-- The tokens of an argument in front of any `--`. -/
def Token.ofArgument (argument : String) : List Token :=
  match argument.toList with
  | '-' :: '-' :: rest =>
    let name := String.ofList ('-' :: '-' :: rest.takeWhile (· != '='))
    match rest.dropWhile (· != '=') with
    | [] => [.ofName name none]
    | _ :: value => [.ofName name (some (String.ofList value))]
  | '-' :: letter :: rest => ofLetters (letter :: rest)
  | _ => [.operand argument]

def tokens : List String → List Token
  | [] => []
  | argument :: rest =>
    if argument = "--" then rest.map .input else Token.ofArgument argument ++ tokens rest

end MarkupTrim.CommandLine
