import MarkupTrim.Document.Mode

/-!
# Settings

What a run is asked to do.
-/

namespace MarkupTrim.CommandLine

/-- The extensions that are picked up when a directory is walked, unless others are asked for. -/
def defaultExtensions : List String := ["html", "htm", "hbs", "cshtml"]

/-- What a run is asked to do. -/
structure Settings where
  /-- Put the minified text of each file in its place. -/
  inPlace : Bool := false
  /-- Write the result to this file. -/
  output : Option String := none
  extensions : List String := defaultExtensions
  /-- Leave the text untouched. -/
  passThrough : Bool := false
  /-- Log which paths are skipped. -/
  verbose : Bool := false
  /-- The files and directories to minify. -/
  inputs : List String := []
deriving DecidableEq, Repr

/-- How the documents of a run are treated. -/
def Settings.mode (settings : Settings) : Mode :=
  if settings.passThrough then .passThrough else .minify

end MarkupTrim.CommandLine
