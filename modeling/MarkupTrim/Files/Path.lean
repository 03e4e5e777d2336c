/-!
# Paths

Paths as text. A path is names between slashes; a name may have an extension, which is what stands
behind its last dot, unless nothing stands in front of that dot.
-/

namespace MarkupTrim.Files

/-- What stands between the slashes of a path: nothing where two slashes meet, or where the path
starts or ends with one. -/
def components (path : String) : List String := (path.toList.splitOn '/').map String.ofList

/-- Whether a path is one from the root, wherever it is used. -/
def isAbsolute (path : String) : Bool := path.toList.head? == some '/'

/-- Whether a component names no entry and only stands for the directory reached so far. -/
def isHere (component : String) : Bool := component == "" || component == "."

/-- The path of `below` in a directory; a slash joins them unless the directory brings one. -/
def join (directory below : String) : String :=
  if directory.toList.getLast? = some '/' then directory ++ below else directory ++ "/" ++ below

/-- The extension of a file name. -/
def extension? (name : String) : Option String :=
  let reversed := name.toList.reverse
  match reversed.dropWhile (· != '.') with
  | _ :: _ :: _ => some (String.ofList (reversed.takeWhile (· != '.')).reverse)
  | _ => none

/-- Whether two texts are the same but for the case of the letters of ASCII. -/
def sameButCase (a b : String) : Bool := a.toList.map Char.toLower == b.toList.map Char.toLower

/-- Whether a file name has one of the extensions, in any case. -/
def hasExtension (extensions : List String) (name : String) : Bool :=
  (extension? name).any fun found => extensions.any (sameButCase found)

end MarkupTrim.Files
