/-!
# Files

The working directory as the program sees it: a directory of plain files, inside directories of which
nothing else is known. A path is walked name by name, as `Place.enter` says, and names what the walk
ends at. The first name at which the walk cannot go on decides how reading fails.
-/

namespace LazyLisp

/-- Why a file could not be read. -/
inductive FileError where
  | missing
  | directory
  | notDirectory
  | nameTooLong
  | other (message : String)
  deriving DecidableEq, Repr

/-- The system's words for it. -/
def FileError.message : FileError → String
  | .missing => "No such file or directory (os error 2)"
  | .directory => "Is a directory (os error 21)"
  | .notDirectory => "Not a directory (os error 20)"
  | .nameTooLong => "File name too long (os error 36)"
  | .other message => message

/-- The plain files of a directory, by name. -/
abbrev Directory := List (String × List UInt8)

/-- Where the walk along a path has come to. -/
inductive Place where
  /-- The working directory. -/
  | here
  /-- A directory around it. -/
  | above
  /-- A file with these bytes. -/
  | file (bytes : List UInt8)
  deriving DecidableEq, Repr

/-- The most bytes that a name may have. -/
def nameLimit : Nat := 255

/-- The most bytes that a path may have. -/
def pathLimit : Nat := 4095

namespace Place

/-- Follows one name. The empty name, as between two slashes or after the last one, and `.` stay
where they are, but only a directory has names in it, these two included. -/
def enter (d : Directory) : Place → String → Except FileError Place
  | .file _, _ => .error .notDirectory
  | place, "" => .ok place
  | place, "." => .ok place
  | _, ".." => .ok .above
  | place, name =>
    if nameLimit < name.utf8ByteSize then .error .nameTooLong
    else
      match place, d.lookup name with
      | .here, some bytes => .ok (.file bytes)
      | _, _ => .error .missing

end Place

namespace Directory

/-- Walks a path from the working directory or, if it starts with a slash, from the outermost one. -/
def walk (d : Directory) (path : String) : Except FileError Place :=
  let start := if path.toList.head? = some '/' then Place.above else .here
  ((path.toList.splitOn '/').map String.ofList).foldlM (Place.enter d) start

/-- The bytes of the file at a path. -/
def read (d : Directory) (path : String) : Except FileError (List UInt8) :=
  if path.isEmpty then .error .missing
  else if pathLimit < path.utf8ByteSize then .error .nameTooLong
  else
    match d.walk path with
    | .ok (.file bytes) => .ok bytes
    | .ok _ => .error .directory
    | .error e => .error e

end Directory

end LazyLisp
