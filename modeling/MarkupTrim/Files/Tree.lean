import MarkupTrim.Files.AccessError
import MarkupTrim.Files.Path
import Std.Data.TreeMap

/-!
# File trees

A tree of directories, files and symbolic links below a root, held as a map from locations to nodes.
A location is the list of names that lead from the root to a node. Locations are ordered as lists, so
the map goes through a tree in the order of a walk: a directory, then all that is below it, and
siblings in the order of their names.

What a file contains is held apart from where it is: a node tells the number of a file, and two
locations with one number are two names of one file.

A path is looked up from the working directory, or from the root if it starts with a slash, and the
target of a link from the directory of the link or from the root. Links are followed on the way, also
the last one. A look-up that is to create a file accepts a last name that does not exist yet, and no
path that can only stand for a directory.
-/

namespace MarkupTrim.Files

/-- The names that lead from the root to a node. -/
abbrev Location := List String

/-- The directory above a location. The root is above itself. -/
def Location.parent (location : Location) : Location := location.dropLast

/-- What is found at a location. -/
inductive Node where
  | file (number : Nat)
  | directory
  | link (target : String)
deriving DecidableEq, Repr

/-- The smallest number above that of a node, if the node is a file. -/
def Node.bound : Node → Nat
  | file number => number + 1
  | _ => 0

/-- What one may be refused to do with a file or a directory. -/
inductive Right where
  /-- To read a file, or to list a directory. -/
  | read
  /-- To change a file, or to make an entry in a directory. -/
  | write
  /-- To go on from a directory to an entry of it. -/
  | enter
deriving DecidableEq, Repr

/-- A tree of files, and where in it the program works. The working directory and those above it are
always there. -/
structure Tree where
  nodes : Std.TreeMap Location Node := {}
  /-- What the file with a number contains. -/
  contents : Nat → ByteArray := fun _ => ⟨#[]⟩
  /-- The working directory. -/
  current : Location := ["work"]
  /-- Why a right is refused, where it is. -/
  refusal? : Location → Right → Option AccessError := fun _ _ => none

/-- What a path is looked up for. -/
inductive Purpose where
  | find
  /-- To write a file, which may not be there yet. -/
  | create
deriving DecidableEq, Repr

/-- The number of symbolic links that one look-up may follow. -/
def maxLinks : Nat := 40

/-- Where a path starts that is used in the directory `here`. -/
def start (here : Location) (path : String) : Location := if isAbsolute path then [] else here

namespace Tree

def node? (tree : Tree) (location : Location) : Option Node :=
  if location.isPrefixOf tree.current then some .directory else tree.nodes[location]?

/-! ### Looking up -/

/-- What the next component of a path comes to. -/
inductive Step where
  | refuse (cause : AccessError)
  /-- The look-up ends here. -/
  | arrive (location : Location)
  /-- The look-up goes on from this directory. -/
  | go (next : Location)
  | follow (target : String)
deriving DecidableEq, Repr

/-- What a name comes to that is not there: it is made if that is what the path is for. -/
def stepMissing (tree : Tree) (purpose : Purpose) (here : Location) (name : String)
    (rest : List String) : Step :=
  if purpose = .create ∧ rest = [] then
    match tree.refusal? here .write with
    | some cause => .refuse cause
    | none => .arrive (here ++ [name])
  else .refuse .missing

/-- What a name in the directory `here` comes to, with the components behind it. -/
def stepName (tree : Tree) (purpose : Purpose) (here : Location) (name : String)
    (rest : List String) : Step :=
  match tree.node? (here ++ [name]) with
  | none => tree.stepMissing purpose here name rest
  | some .directory => .go (here ++ [name])
  | some (.file _) => if rest = [] then .arrive (here ++ [name]) else .refuse .notDirectory
  | some (.link target) => .follow target

/-- What a component comes to in the directory `here`, with the components behind it. A last name
with slashes behind it cannot be created as a file, whatever is there. -/
def step (tree : Tree) (purpose : Purpose) (here : Location) (name : String) (rest : List String) :
    Step :=
  if name = "" then .go here
  else
    match tree.refusal? here .enter with
    | some cause => .refuse cause
    | none =>
      if name = "." then .go here
      else if name = ".." then .go here.parent
      else if purpose = .create ∧ rest ≠ [] ∧ rest.all (· == "") then .refuse .isDirectory
      else tree.stepName purpose here name rest

/-- The location that the components lead to from the directory `here`, where `follow` is what comes
of a link, given where its target starts and the components from there on. -/
def resolveWith (tree : Tree) (purpose : Purpose)
    (follow : Location → List String → Except AccessError Location) (here : Location) :
    List String → Except AccessError Location
  | [] =>
    match purpose with
    | .find => .ok here
    | .create => .error .isDirectory
  | name :: rest =>
    match tree.step purpose here name rest with
    | .refuse cause => .error cause
    | .arrive location => .ok location
    | .go next => tree.resolveWith purpose follow next rest
    | .follow target => follow (start here target) (components target ++ rest)

/-- The location that the components lead to from the directory `here`, with at most `links`
symbolic links followed. -/
def resolve (tree : Tree) (purpose : Purpose) : Nat → Location → List String →
    Except AccessError Location
  | 0 => tree.resolveWith purpose fun _ _ => .error .linkLoop
  | links + 1 => tree.resolveWith purpose (tree.resolve purpose links)

def locate (tree : Tree) (purpose : Purpose) (path : String) : Except AccessError Location :=
  if path = "" then .error .missing
  else tree.resolve purpose maxLinks (start tree.current path) (components path)

def isDirectory (tree : Tree) (path : String) : Bool :=
  match tree.locate .find path with
  | .ok location => tree.node? location == some .directory
  | .error _ => false

/-! ### Reading and writing -/

def permit (tree : Tree) (location : Location) (right : Right) : Except AccessError Unit :=
  match tree.refusal? location right with
  | some cause => .error cause
  | none => .ok ()

/-- The contents of the file that a path stands for. -/
def read (tree : Tree) (path : String) : Except AccessError ByteArray := do
  let location ← tree.locate .find path
  tree.permit location .read
  match tree.node? location with
  | some (.file number) => .ok (tree.contents number)
  | _ => .error .isDirectory

/-- The tree with the contents of a file replaced. -/
def fill (tree : Tree) (number : Nat) (contents : ByteArray) : Tree :=
  { tree with contents := fun other => if other = number then contents else tree.contents other }

/-- The smallest number above that of any file. -/
def freshNumber (tree : Tree) : Nat :=
  tree.nodes.toList.foldr (fun found bound => max found.2.bound bound) 0

/-- The tree with a new file at a location. -/
def make (tree : Tree) (location : Location) (contents : ByteArray) : Tree :=
  { tree.fill tree.freshNumber contents with
    nodes := tree.nodes.insert location (.file tree.freshNumber) }

/-- The tree with the file that a path stands for replaced, or made. -/
def write (tree : Tree) (path : String) (contents : ByteArray) : Except AccessError Tree := do
  let location ← tree.locate .create path
  match tree.node? location with
  | some (.file number) =>
    tree.permit location .write
    return tree.fill number contents
  | _ => return tree.make location contents

/-! ### Making trees -/

/-- The names in a path. -/
def names (path : String) : List String := (components path).filter fun name => !isHere name

/-- Makes the directories that the given names lead through from `here`, where there are none, and
tells where they lead. Links on the way are followed. -/
def makeDirectories (tree : Tree) (here : Location) : List String → Tree × Location
  | [] => (tree, here)
  | name :: rest =>
    match tree.resolve .find maxLinks here [name] with
    | .ok found => tree.makeDirectories found rest
    | .error _ =>
      makeDirectories { tree with nodes := tree.nodes.insertIfNew (here ++ [name]) .directory }
        (here ++ [name]) rest

/-- Adds a directory, with those that its path leads through. -/
def addDirectory (tree : Tree) (path : String) : Tree :=
  (tree.makeDirectories (start tree.current path) (names path)).1

/-- What can be added at the end of a path. -/
inductive Leaf where
  | file (contents : ByteArray)
  | link (target : String)

/-- Adds a file or a link, with the directories that its path leads through. -/
def addLeaf (tree : Tree) (path : String) (leaf : Leaf) : Tree :=
  let (made, directory) :=
    tree.makeDirectories (start tree.current path) (names path).dropLast
  let location := directory ++ (names path).getLast?.toList
  match leaf with
  | .file contents => made.make location contents
  | .link target => { made with nodes := made.nodes.insert location (.link target) }

end Tree

end MarkupTrim.Files
