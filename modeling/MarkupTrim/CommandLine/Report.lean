import MarkupTrim.Document.Stats
import MarkupTrim.Files.Walk
import MarkupTrim.Terminal.Spelled
import MarkupTrim.Text.Blank

/-!
# Reports

What a run leaves behind besides the files it wrote: what it printed, its log, and the failure that
ended it, if one did. The failure comes last in the log and decides the exit status.
-/

namespace MarkupTrim.CommandLine

open Files (AccessError WalkError)

/-- What can end a run. -/
inductive Failure where
  /-- An output file and writing in place exclude each other. -/
  | outputInPlace
  /-- An output file takes the text of one file; this many were selected. -/
  | outputCount (found : Nat)
  | read (path : String) (cause : AccessError)
  | write (path : String) (cause : AccessError)
  /-- A directory could not be walked. -/
  | walk (error : WalkError)
deriving DecidableEq, Repr

def Failure.message : Failure → String
  | outputInPlace => "--output and --in-place cannot be combined"
  | outputCount found => s!"--output needs exactly one input file, found {found}"
  | read path cause => s!"failed to read {path}: {cause.message}"
  | write path cause => s!"failed to write {path}: {cause.message}"
  | walk error => s!"failed to walk directory: {error.message}"

/-- What the log holds of a failure, with control characters spelled out. -/
def Failure.record (failure : Failure) : String :=
  s!"ERROR literal_minify: {Terminal.spellOut failure.message}"

/-- What a run logs. -/
inductive LogEntry where
  /-- A walk met a path and passed it over. -/
  | skipped (path : String)
  /-- The text of a file was minified, with these byte counts. -/
  | minified (path : String) (stats : Stats)
deriving DecidableEq, Repr

/-- What the log holds of an entry. The path stands in it as it is. -/
def LogEntry.record : LogEntry → String
  | skipped path => s!"DEBUG literal_minify::files: skipped path={path}"
  | minified path stats =>
    s!"INFO literal_minify::files: minified path={path} before={stats.bytesIn} " ++
      s!"after={stats.bytesOut} saved={stats.saved}"

/-- What a run leaves behind besides the files it wrote. -/
structure Report where
  printed : String := ""
  entries : List LogEntry := []
  /-- What ended it early. -/
  failure : Option Failure := none
deriving DecidableEq, Repr

namespace Report

/-- The log, entry by entry; a failure comes last. -/
def records (report : Report) : List String :=
  report.entries.map LogEntry.record ++ report.failure.toList.map Failure.record

/-- The lines of the log. A record is one line, or more if a path in it holds line feeds. No line
ends in a blank. -/
def log (report : Report) : List String :=
  report.records.flatMap fun record =>
    (record.toList.splitOn '\n').map fun line => dropBlankEnd (String.ofList line)

def exitStatus (report : Report) : Nat := if report.failure.isSome then 1 else 0

/-- The report of what went before, and then of `report`. -/
def after (printed : String) (entries : List LogEntry) (report : Report) : Report :=
  { report with printed := printed ++ report.printed, entries := entries ++ report.entries }

end Report

end MarkupTrim.CommandLine
