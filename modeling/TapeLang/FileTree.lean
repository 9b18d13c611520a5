import TapeLang.SystemError

/-!
# Files and how they are found

A file tree is a file with its octets or a directory with named entries. `FileTree.read` looks a
path up from a working directory and gives the octets of the file there, or the system's error.

A path is walked name by name and the first trouble on the way is the one reported: going on
behind a file, a name too long for any directory, a name that is not there. An empty name, as a
doubled or a final slash makes, stays in place like `.` does, but only in a directory.

What lies around the working directory is not known in detail. It consists of directories, so
that `..` leads somewhere, and no name is looked up there with success.
-/

namespace TapeLang

/-- A file or a directory. -/
inductive FileTree where
  /-- A file with its octets. -/
  | file (content : List UInt8)
  /-- A directory with its entries by name. -/
  | directory (entries : List (String × FileTree))

namespace FileTree

/-- The most octets a name can have. -/
def longestName : Nat := 255

/-- The most octets a path can have. -/
def longestPath : Nat := 4095

/-- The names that a path is made of, empty ones included. -/
def components (path : String) : List String :=
  let parts := path.toList.foldr
    (fun c parts => if c = '/' then [] :: parts else parts.modifyHead (c :: ·)) [[]]
  parts.map String.ofList

/-- Where a walk has come to. -/
inductive Place where
  /-- In the tree: at an entry, with the directories above it, the nearest first. -/
  | within (here : FileTree) (above : List FileTree)
  /-- In a directory around the tree. -/
  | around

/-- Goes on from a place by one name. The path is the whole one, for the error. -/
def Place.enter (path : String) (place : Place) (name : String) : Except SystemError Place :=
  match place with
  | .within (.file _) _ => .error (.notDirectory path)
  | .within (.directory entries) above =>
    if name = "" ∨ name = "." then .ok (.within (.directory entries) above)
    else if name = ".." then
      match above with
      | [] => .ok .around
      | parent :: above => .ok (.within parent above)
    else if longestName < name.utf8ByteSize then .error (.nameTooLong path)
    else
      match entries.lookup name with
      | some entry => .ok (.within entry (.directory entries :: above))
      | none => .error (.noEntry path)
  | .around =>
    if name = "" ∨ name = "." ∨ name = ".." then .ok .around
    else if longestName < name.utf8ByteSize then .error (.nameTooLong path)
    else .error (.noEntry path)

/-- Walks a path from a working directory. A path that begins with a slash starts at the top of
the system. -/
def locate (cwd : FileTree) (path : String) : Except SystemError Place :=
  let start := if path.toList.head? = some '/' then .around else .within cwd []
  (components path).foldlM (Place.enter path) start

/-- The octets of the file that a path leads to. -/
def read (cwd : FileTree) (path : String) : Except SystemError (List UInt8) :=
  if path = "" then .error (.noEntry path)
  else if longestPath < path.utf8ByteSize then .error (.nameTooLong path)
  else
    match locate cwd path with
    | .ok (.within (.file content) _) => .ok content
    | .ok _ => .error .isDirectory
    | .error e => .error e

end FileTree

end TapeLang
