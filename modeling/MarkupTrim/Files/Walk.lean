import MarkupTrim.Files.Tree

/-!
# Walks

A walk of a directory yields the directory and all that is below it, each directory before what is
below it and siblings in the order of their names. Links below the directory are not followed. A
directory that cannot be listed ends the walk; it has been yielded by then.
-/

namespace MarkupTrim.Files

/-- What a walk yields. -/
structure Entry where
  /-- The path of the entry, starting with the path of the directory that is walked. -/
  path : String
  name : String
  /-- Whether the entry is a file, and no directory or link. -/
  isFile : Bool
deriving DecidableEq, Repr

/-- Why a walk ended early. -/
structure WalkError where
  /-- What could not be looked at, if that is known. -/
  path : Option String
  cause : AccessError
deriving DecidableEq, Repr

/-- The words for what ended a walk. -/
def WalkError.message (error : WalkError) : String :=
  match error.path with
  | some path => s!"IO error for operation on {path}: {error.cause.message}"
  | none => error.cause.message

/-- What comes of a walk: what it yields, and what ended it early. -/
structure Walk where
  entries : List Entry := []
  failure : Option WalkError := none
deriving DecidableEq, Repr

/-- The path of what the names lead to from a directory. -/
def pathOf (directory : String) : Location → String
  | [] => directory
  | name :: rest => join directory ("/".intercalate (name :: rest))

/-- What is found below a directory, as an entry. -/
def entryOf (directory : String) (found : Location × Node) : Entry where
  path := pathOf directory found.1
  name := found.1.getLast?.getD ""
  isFile := found.2 matches .file _

namespace Tree

/-- The nodes, with directories where the names lead through from `here`. -/
def listedAlong (nodes : Std.TreeMap Location Node) (here : Location) :
    List String → Std.TreeMap Location Node
  | [] => nodes
  | name :: rest =>
    listedAlong (nodes.insert (here ++ [name]) .directory) (here ++ [name]) rest

/-- All nodes below the root. -/
def listed (tree : Tree) : Std.TreeMap Location Node := listedAlong tree.nodes [] tree.current

/-- All that is below a location, as names from there on, in the order of a walk. -/
def below (tree : Tree) (here : Location) : List (Location × Node) :=
  tree.listed.toList.filterMap fun (found, node) =>
    let names := found.drop here.length
    if here.isPrefixOf found ∧ names ≠ [] then some (names, node) else none

/-- Why the directory that the names lead to from `here` cannot be listed, if it cannot. -/
def listingError? (tree : Tree) (here : Location) : List String → Option AccessError
  | [] => tree.refusal? here .read
  | name :: rest => tree.refusal? here .enter <|> tree.listingError? (here ++ [name]) rest

/-- What comes of a walk of the directory `here` that has still to yield what is given. -/
def walkAlong (tree : Tree) (directory : String) (here : Location) :
    List (Location × Node) → Walk
  | [] => {}
  | found :: rest =>
    let entry := entryOf directory found
    let failure? := if found.2 = .directory then tree.listingError? here found.1 else none
    match failure? with
    | some cause => { entries := [entry], failure := some { path := entry.path, cause } }
    | none =>
      let walk := tree.walkAlong directory here rest
      { walk with entries := entry :: walk.entries }

/-- All that there is to walk of the directory `here`. -/
def expanse (tree : Tree) (here : Location) : List (Location × Node) :=
  ([], .directory) :: tree.below here

/-- The walk of the directory that a path stands for. -/
def walk (tree : Tree) (path : String) : Walk :=
  match tree.locate .find path with
  | .error cause => { failure := some { path, cause } }
  | .ok here => tree.walkAlong path here (tree.expanse here)

/-- The files below the working directory: their paths from there, and their contents. -/
def files (tree : Tree) : List (String × ByteArray) :=
  (tree.below tree.current).filterMap fun (names, node) =>
    match node with
    | .file number => some ("/".intercalate names, tree.contents number)
    | _ => none

end Tree

end MarkupTrim.Files
