import MarkupTrim.CommandLine.Respond

/-!
# The command line

The program on the files of the machine it runs on. What to do is decided by
`CommandLine.respond`; here it is given the files, and its answer is printed.
-/

namespace MarkupTrim.CommandLine

open Files (AccessError Entry Store WalkError join)

/-- The number of a system error, which some calls report negated. -/
def errorNumber (code : UInt32) : Nat := min code.toNat (-code).toNat

/-- The cause behind an error that the system reports. -/
def accessError (error : IO.Error) : AccessError :=
  let other := .other (toString error)
  match error with
  | .noFileOrDirectory .. => .missing
  | .inappropriateType _ code _ =>
    if errorNumber code = 20 then .notDirectory
    else if errorNumber code = 21 then .isDirectory
    else other
  | .invalidArgument _ code _ => if errorNumber code = 40 then .linkLoop else other
  | .permissionDenied _ code _ => if errorNumber code = 13 then .denied else other
  | _ => other

/-- The outcome of an action, with the cause if it fails. -/
def attempt {α : Type} (action : IO α) : IO (Except AccessError α) :=
  return (← action.toBaseIO).mapError accessError

/-- A path as the system takes it: from the working directory, unless it starts at the root. -/
def fromHere (path : String) := ({ root := path, fileName := "" } : IO.FS.DirEntry).root

/-- A walk that is under way, with what it has yielded. -/
abbrev Walking := ExceptT WalkError (StateT (Array Entry) IO)

/-- What an action on a path gives; the walk ends if it fails. -/
def ask {α : Type} (path : String) (action : IO α) : Walking α := do
  match ← (attempt action : IO _) with
  | .ok found => return found
  | .error cause => throw { path := path, cause }

/-- Yields an entry, and all that is below it if it is a directory. Of what kind the entries of a
directory are is asked before any of them is yielded. -/
partial def walkFrom (entry : Entry) (isDirectory : Bool) : Walking Unit := do
  modify (·.push entry)
  if isDirectory then
    let found ← ask entry.path (fromHere entry.path).readDir
    let sorted := found.toList.mergeSort (·.fileName ≤ ·.fileName)
    let below ← sorted.mapM fun child => do
      let path := join entry.path child.fileName
      let kind := (← ask path child.path.symlinkMetadata).type
      return (({ path, name := child.fileName, isFile := kind == .file } : Entry), kind == .dir)
    for (child, isDirectory) in below do
      walkFrom child isDirectory

instance : Store IO where
  isDirectory path := (fromHere path).isDir
  walk path := do
    let root : Entry := { path, name := "", isFile := false }
    match ← (walkFrom root true).run.run #[] with
    | (.ok (), entries) => return { entries := entries.toList }
    | (.error error, entries) => return { entries := entries.toList, failure := some error }
  read path := attempt (IO.FS.readBinFile path)
  write path contents := attempt (IO.FS.writeBinFile path contents)

end MarkupTrim.CommandLine

open MarkupTrim.CommandLine in
/-- Runs the program: the report goes to the standard streams, its failure into the exit status. -/
def main (arguments : List String) : IO UInt32 := do
  match ← (respond arguments : IO _) with
  | .error problem =>
    IO.eprintln problem.message
    return UsageError.exitStatus.toUInt32
  | .ok report =>
    IO.print report.printed
    for line in report.log do
      IO.eprintln line
    return report.exitStatus.toUInt32
