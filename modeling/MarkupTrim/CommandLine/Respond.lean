import MarkupTrim.CommandLine.Arguments
import MarkupTrim.CommandLine.Run

/-!
# The program

What the program answers to a command line.
-/

namespace MarkupTrim.CommandLine

/-- What is printed when help is asked for. -/
def helpText : String := "Minify markup and template files from the command line

Usage: literal-minify [OPTIONS] <INPUTS>...

Arguments:
  <INPUTS>...  Files or directories to minify

Options:
  -i, --in-place          Rewrite each file with its minified text
  -o, --output <OUTPUT>   Write the result here instead of stdout (single input file only)
      --ext <EXTENSIONS>  Extensions picked up when walking directories [default: html htm hbs cshtml]
      --pass-through      Leave the text untouched, as design-time tooling would see it
  -v, --verbose           Log debug output
  -h, --help              Print help
  -V, --version           Print version
"

/-- What is printed when the version is asked for. -/
def versionText : String := "literal-minify 0.1.0\n"

/-- The program's answer to a command line: a run's report, or what is wrong with the command line.
Asking for help or the version is a run that only prints. -/
def respond {m : Type → Type} [Monad m] [Files.Store m] (arguments : List String) :
    m (Except UsageError Report) :=
  match request arguments with
  | .help => return .ok { printed := helpText }
  | .version => return .ok { printed := versionText }
  | .refused error => return .error error
  | .run settings => .ok <$> run settings

end MarkupTrim.CommandLine
