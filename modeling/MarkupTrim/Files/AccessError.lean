/-!
# Access errors

Why a file cannot be read or written, and the words for it.
-/

namespace MarkupTrim.Files

/-- The cause of a failed access. -/
inductive AccessError where
  /-- Nothing is there. -/
  | missing
  /-- The path goes on below something that is not a directory. -/
  | notDirectory
  /-- A directory is there, where a file is asked for. -/
  | isDirectory
  /-- Too many symbolic links had to be followed. -/
  | linkLoop
  /-- A right to what is there is missing. -/
  | denied
  /-- The file is there, but its contents are not UTF-8. -/
  | notUtf8
  /-- Any other trouble that a file system reports, in its words. -/
  | other (description : String)
deriving DecidableEq, Repr

/-- The words for a cause. -/
def AccessError.message : AccessError → String
  | missing => "No such file or directory (os error 2)"
  | notDirectory => "Not a directory (os error 20)"
  | isDirectory => "Is a directory (os error 21)"
  | linkLoop => "Too many levels of symbolic links (os error 40)"
  | denied => "Permission denied (os error 13)"
  | notUtf8 => "stream did not contain valid UTF-8"
  | other description => description

end MarkupTrim.Files
