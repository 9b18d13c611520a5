import TapeLang.Fault

/-!
# What the system refuses

Files and descriptors fail with errors of the operating system. Each has a symbolic code and a
text; the text begins with the code and ends with what was being done.
-/

namespace TapeLang

/-- An error of the operating system. -/
inductive SystemError where
  /-- No entry of that name. -/
  | noEntry (path : String)
  /-- A path that goes on behind something that is no directory. -/
  | notDirectory (path : String)
  /-- A name, or a whole path, that is longer than any can be. -/
  | nameTooLong (path : String)
  /-- A directory where a file was to be read. -/
  | isDirectory
  /-- A descriptor that is not open for reading. -/
  | unreadable
  /-- A descriptor that is not open for writing. -/
  | unwritable
deriving DecidableEq, Repr

namespace SystemError

/-- The symbolic code of an error. -/
def code : SystemError → String
  | .noEntry _ => "ENOENT"
  | .notDirectory _ => "ENOTDIR"
  | .nameTooLong _ => "ENAMETOOLONG"
  | .isDirectory => "EISDIR"
  | .unreadable => "EBADF"
  | .unwritable => "EBADF"

/-- What went wrong, in general terms. -/
def reason : SystemError → String
  | .noEntry _ => "no such file or directory"
  | .notDirectory _ => "not a directory"
  | .nameTooLong _ => "name too long"
  | .isDirectory => "illegal operation on a directory"
  | .unreadable => "bad file descriptor"
  | .unwritable => "bad file descriptor"

/-- What was being done. -/
def activity : SystemError → String
  | .noEntry path => "open '" ++ path ++ "'"
  | .notDirectory path => "open '" ++ path ++ "'"
  | .nameTooLong path => "open '" ++ path ++ "'"
  | .isDirectory => "read"
  | .unreadable => "read"
  | .unwritable => "write"

/-- The text of an error. -/
def message (e : SystemError) : String :=
  e.code ++ ": " ++ e.reason ++ ", " ++ e.activity

/-- The error as what a stream fails with. -/
def cause (e : SystemError) : Cause :=
  .error e.message (some (.text e.code))

end SystemError

end TapeLang
