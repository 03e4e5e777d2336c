import MarkupTrim.Files.Store

/-!
# Selection

Which files to work on. A path that is given and is no directory is taken as it is, whether or not
it exists. A directory is walked, and the files below it that have one of the wanted extensions are
taken; the directory itself and all else below it are skipped. A walk that fails ends the selection.
-/

namespace MarkupTrim.Files

/-- What becomes of a path that selection meets. -/
inductive Choice where
  | selected (path : String)
  | skipped (path : String)
deriving DecidableEq, Repr

namespace Choice

def selected? : Choice → Option String
  | selected path => some path
  | skipped _ => none

def skipped? : Choice → Option String
  | selected _ => none
  | skipped path => some path

end Choice

/-- What becomes of an entry of a walk. -/
def Entry.choice (extensions : List String) (entry : Entry) : Choice :=
  if entry.isFile && hasExtension extensions entry.name then .selected entry.path
  else .skipped entry.path

/-- What comes of the paths that are given. -/
structure Selection where
  choices : List Choice := []
  /-- What ended it early. -/
  failure : Option WalkError := none
deriving DecidableEq, Repr

namespace Selection

def selected (selection : Selection) : List String := selection.choices.filterMap Choice.selected?

def skipped (selection : Selection) : List String := selection.choices.filterMap Choice.skipped?

end Selection

variable {m : Type → Type} [Monad m] [Store m]

/-- What becomes of a given path and of all below it, in the order of a walk. -/
def chooseFrom (extensions : List String) (input : String) : m Selection := do
  if ← Store.isDirectory input then
    let walk ← Store.walk input
    return { choices := walk.entries.map (Entry.choice extensions), failure := walk.failure }
  else return { choices := [.selected input] }

/-- What becomes of the given paths, one after another. -/
def choose (extensions : List String) : List String → m Selection
  | [] => return {}
  | input :: rest => do
    let first ← chooseFrom extensions input
    if first.failure.isSome then return first
    else
      let others ← choose extensions rest
      return { others with choices := first.choices ++ others.choices }

end MarkupTrim.Files
