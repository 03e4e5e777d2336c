import MarkupTrim.Files.Walk

/-!
# File stores

What the program asks of a file system, for any that can answer. A tree in memory is one of them.
-/

namespace MarkupTrim.Files

/-- A place where files are read and written. -/
class Store (m : Type → Type) where
  /-- Whether a path stands for a directory. -/
  isDirectory (path : String) : m Bool
  /-- The walk of a directory. -/
  walk (path : String) : m Walk
  read (path : String) : m (Except AccessError ByteArray)
  /-- Replaces a file, or makes it. -/
  write (path : String) (contents : ByteArray) : m (Except AccessError Unit)

/-- A tree in memory; a write that fails leaves it as it was. -/
instance : Store (StateM Tree) where
  isDirectory path := fun tree => (tree.isDirectory path, tree)
  walk path := fun tree => (tree.walk path, tree)
  read path := fun tree => (tree.read path, tree)
  write path contents := fun tree =>
    match tree.write path contents with
    | .ok written => (.ok (), written)
    | .error cause => (.error cause, tree)

def readText {m : Type → Type} [Monad m] [Store m] (path : String) :
    m (Except AccessError String) := do
  match ← Store.read path with
  | .error cause => return .error cause
  | .ok contents =>
    match String.fromUTF8? contents with
    | some text => return .ok text
    | none => return .error .notUtf8

/-- Replaces the text of a file, or makes the file. -/
def writeText {m : Type → Type} [Store m] (path text : String) : m (Except AccessError Unit) :=
  Store.write path text.toUTF8

end MarkupTrim.Files
