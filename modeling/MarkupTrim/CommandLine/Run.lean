import MarkupTrim.CommandLine.Report
import MarkupTrim.CommandLine.Settings
import MarkupTrim.Document.Basic
import MarkupTrim.Files.Selection

/-!
# Runs

A run selects its files, then takes one after another: it reads the file, minifies its text as one
document, logs that, and puts the result where it belongs. The first failure ends the run; what was
written before stays.
-/

namespace MarkupTrim.CommandLine

open Files (Store)

variable {m : Type → Type} [Monad m] [Store m]

/-- Where the minified texts of a run go. -/
inductive Destination where
  /-- Each is printed, with a line feed behind it. -/
  | print
  /-- Each replaces the file it came from. -/
  | inPlace
  /-- They go to one file. -/
  | file (path : String)
deriving DecidableEq, Repr

/-- Where the minified texts go; an output file comes before all else. -/
def Settings.destination (settings : Settings) : Destination :=
  match settings.output with
  | some path => .file path
  | none => if settings.inPlace then .inPlace else .print

/-- The file that the minified text of `path` goes to, if it is not printed. -/
def Destination.target? (destination : Destination) (path : String) : Option String :=
  match destination with
  | print => none
  | inPlace => some path
  | file target => some target

/-- Puts the minified text of `path` where it belongs, and goes on with `next` if that worked. -/
def deliver (destination : Destination) (path text : String) (next : m Report) : m Report := do
  match destination.target? path with
  | none => return (← next).after (text ++ "\n") []
  | some target =>
    match ← Files.writeText target text with
    | .error cause => return { failure := some (.write target cause) }
    | .ok () => next

/-- Minifies the files at the given paths one after another. -/
def minifyFiles (mode : Mode) (destination : Destination) : List String → m Report
  | [] => return {}
  | path :: rest => do
    match ← Files.readText path with
    | .error cause => return { failure := some (.read path cause) }
    | .ok source =>
      let reply := ({ mode } : Document).fragment source
      let report ← deliver destination path reply.text (minifyFiles mode destination rest)
      return report.after "" [.minified path reply.document.stats]

def run (settings : Settings) : m Report := do
  if settings.output.isSome && settings.inPlace then return { failure := some .outputInPlace }
  let selection ← Files.choose settings.extensions settings.inputs
  let paths := selection.selected
  let skipped := selection.skipped.map LogEntry.skipped
  let report ←
    match selection.failure with
    | some error => pure { failure := some (.walk error) }
    | none =>
      if settings.output.isSome && paths.length != 1 then
        pure { failure := some (.outputCount paths.length) }
      else minifyFiles settings.mode settings.destination paths
  return report.after "" (if settings.verbose then skipped else [])

end MarkupTrim.CommandLine
