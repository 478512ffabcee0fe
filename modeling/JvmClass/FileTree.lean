/-!
# A directory and what is written in it

A path is followed part by part, as a file system does: an empty part or a single dot stays where
it is, two dots go up, and all that is passed on the way has to be a directory.  `write?` makes the
directories that are missing, `read?` does not.
-/

namespace JvmClass

/-- What a name in a directory stands for. -/
inductive FileTree
  | file (contents : List UInt8)
  | directory (entries : List (String × FileTree))

namespace FileTree

def empty : FileTree := directory []

/-- The names on the way from the directory that the tree is of, outermost first.  The directory
above goes by two dots, and the root by a slash. -/
abbrev Place := List String

namespace Place

/-- The directory that a place is in. -/
def above (here : Place) : Place :=
  match here.getLast? with
  | none | some ".." => here ++ [".."]
  | some "/" => here
  | some _ => here.dropLast

/-- Where one part of a path leads. -/
def step (here : Place) (part : String) : Place :=
  if part = "" ∨ part = "." then here
  else if part = ".." then here.above
  else here ++ [part]

/-- Is this a place that no name leads down to?  There is a directory there. -/
def isAbove (here : Place) : Bool := here.all fun name => name == ".." || name == "/"

end Place

/-- The texts between the slashes of a path. -/
def splitPath : List Char → List (List Char)
  | [] => [[]]
  | c :: rest =>
    if c = '/' then
      [] :: splitPath rest
    else
      match splitPath rest with
      | [] => [[c]]
      | part :: parts => (c :: part) :: parts

/-- The parts of a path. -/
def partsOf (path : String) : List String := (splitPath path.toList).map String.ofList

/-- Where a path starts. -/
def startOf (path : String) : Place := if path.startsWith "/" then ["/"] else []

/-- No path is longer than this many bytes. -/
def maxPath : Nat := 4095

/-- No name is longer than this many bytes. -/
def maxName : Nat := 255

/-- What stands at a place. -/
def find? : FileTree → Place → Option FileTree
  | tree, [] => some tree
  | .file _, _ :: _ => none
  | .directory entries, name :: rest =>
    match entries.lookup name with
    | some entry => entry.find? rest
    | none => none

/-- Put something at a place, and directories on the way to it where nothing stands. -/
def put (new : FileTree) : FileTree → Place → FileTree
  | _, [] => new
  | .file contents, _ :: _ => .file contents
  | .directory entries, name :: rest =>
    let entry := (entries.lookup name).getD empty
    .directory ((name, put new entry rest) :: entries.filter (·.1 != name))

def isDirectory (tree : FileTree) (here : Place) : Bool :=
  here.isAbove || match tree.find? here with
    | some (.directory _) => true
    | _ => false

/-- The place that a path leads to, if all that it passes are directories. -/
def follow? (tree : FileTree) (here : Place) : List String → Option Place
  | [] => some here
  | part :: rest =>
    if tree.isDirectory here then tree.follow? (here.step part) rest else none

/-- Follow a path and make the directories on it that are missing. -/
def makeDirectories? (tree : FileTree) (here : Place) : List String → Option (FileTree × Place)
  | [] => some (tree, here)
  | part :: rest =>
    let next := here.step part
    if part.utf8ByteSize > maxName then none
    else if tree.isDirectory next then tree.makeDirectories? next rest
    else if (tree.find? next).isSome then none
    else (put empty tree next).makeDirectories? next rest

/-- The tree after a file is written in it, if the path allows that. -/
def write? (tree : FileTree) (path : String) (contents : List UInt8) : Option FileTree := do
  let parts := partsOf path
  let name := parts.getLast?.getD ""
  if path.utf8ByteSize > maxPath ∨ name.utf8ByteSize > maxName then none
  let (tree, here) ← tree.makeDirectories? (startOf path) parts.dropLast
  let place := here.step name
  if tree.isDirectory place then none
  return put (.file contents) tree place

/-- The contents of the file that a path leads to. -/
def read? (tree : FileTree) (path : String) : Option (List UInt8) := do
  if path.utf8ByteSize > maxPath then none
  let place ← tree.follow? (startOf path) (partsOf path)
  match tree.find? place with
  | some (.file contents) => some contents
  | _ => none

end FileTree

end JvmClass
