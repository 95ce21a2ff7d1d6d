/-!
# Directories as values

Models are read from files, and results are written to files. A `Directory` is a directory tree
given by the texts of its files, so that such a run is a function of its input. Whatever lies
above the directory is unknown: no file is found there.

Paths start in the directory, so the empty path is the directory itself. Names are followed from
left to right. A step into what is missing, or into a file, ends there.
-/

namespace SetQubo

/-- Why a file cannot be read or written. -/
inductive FileError where
  /-- There is nothing of that name. -/
  | notFound
  /-- A directory is needed, and a file is there. -/
  | notDirectory
  /-- A file is needed, and a directory is there. -/
  | isDirectory
  /-- A name or the whole path is too long. -/
  | nameTooLong
  /-- A path holds the character NUL. -/
  | nulInName
  /-- The file may not be read. -/
  | denied
  /-- The bytes of the file are no text. -/
  | notText
  /-- Any other reason, in the words of the file system. -/
  | other (reason : String)
  deriving DecidableEq, Repr

/-- The message for an error. -/
def FileError.message : FileError → String
  | notFound => "No such file or directory (os error 2)"
  | notDirectory => "Not a directory (os error 20)"
  | isDirectory => "Is a directory (os error 21)"
  | nameTooLong => "File name too long (os error 36)"
  | nulInName => "file name contained an unexpected NUL byte"
  | denied => "Permission denied (os error 13)"
  | notText => "stream did not contain valid UTF-8"
  | other reason => reason

/-- A directory tree: the path of each file from the top, and its text. -/
structure Directory where
  /-- The names that lead to each file, and its text. -/
  files : List (List String × String)

namespace Directory

/-- A place in the tree, as the names that lead there; `none` is above the top. -/
abbrev Place := Option (List String)

/-- The directory whose files have the given paths and texts. -/
def ofFiles (files : List (String × String)) : Directory :=
  ⟨files.map fun (path, text) => (path.splitOn "/", text)⟩

/-- The text of the file at a place. -/
def textAt? (d : Directory) (names : List String) : Option String :=
  d.files.lookup names

/-- Whether there is a directory at a place. -/
def isDirectoryAt (d : Directory) (names : List String) : Bool :=
  names.isEmpty || d.files.any fun (path, _) => path ≠ names && names.isPrefixOf path

/-- The longest name, in bytes. -/
def maxName : Nat := 255

/-- The longest path, in bytes. -/
def maxPath : Nat := 4095

/-- Steps from one directory to another. -/
def step (d : Directory) (place : Place) (name : String) : Except FileError Place :=
  if name = "" ∨ name = "." then .ok place
  else if name = ".." then
    match place with
    | some (n :: ns) => .ok (some (n :: ns).dropLast)
    | _ => .ok none
  else if name.utf8ByteSize > maxName then .error .nameTooLong
  else
    match place with
    | none => .error .notFound
    | some names =>
      let names := names ++ [name]
      if d.isDirectoryAt names then .ok (some names)
      else if (d.textAt? names).isSome then .error .notDirectory
      else .error .notFound

/-- The place where a path starts, the directories that it passes through, and its last name. -/
def parsePath (path : String) : Except FileError (Place × List String × String) :=
  if path.contains '\x00' then .error .nulInName
  else if path.utf8ByteSize > maxPath then .error .nameTooLong
  else
    let start : Place := if path.startsWith "/" then none else some []
    let names := path.splitOn "/"
    .ok (start, names.dropLast, names.getLastD "")

/-- The text of the file that a path leads to. -/
def read (d : Directory) (path : String) : Except FileError String := do
  let (start, parents, name) ← parsePath path
  let place ← parents.foldlM d.step start
  if name = "" ∨ name = "." ∨ name = ".." then throw .isDirectory
  else if name.utf8ByteSize > maxName then throw .nameTooLong
  else
    match place with
    | none => throw .notFound
    | some names =>
      let names := names ++ [name]
      match d.textAt? names with
      | some text => return text
      | none => throw (if d.isDirectoryAt names then .isDirectory else .notFound)

/-- Whether a file can be written where a path leads. -/
def checkWrite (d : Directory) (path : String) : Except FileError Unit := do
  let trimmed := (path.dropEndWhile '/').toString
  let closed := trimmed ≠ path
  let (start, parents, name) ← parsePath (if trimmed = "" then path else trimmed)
  let place ← parents.foldlM d.step start
  if closed ∨ name = "" ∨ name = "." ∨ name = ".." then throw .isDirectory
  else if name.utf8ByteSize > maxName then throw .nameTooLong
  else
    match place with
    | none => return
    | some names => if d.isDirectoryAt (names ++ [name]) then throw .isDirectory

end Directory

end SetQubo
