import WordTemplate.Host.Path

/-!
# Files and directories

What stands at a path, and the ways in which there can be nothing. A `FileTree` is a tree of files
and directories without links; paths in it are followed name by name, so that the name before a
slash has to be that of a directory.
-/

namespace WordTemplate.Host

/-- Why something cannot be read or written. -/
inductive FileError where
  | notFound
  | notADirectory
  | isADirectory
  | other (message : String)
  deriving DecidableEq, Repr

def FileError.message : FileError → String
  | notFound => "No such file or directory (os error 2)"
  | notADirectory => "Not a directory (os error 20)"
  | isADirectory => "Is a directory (os error 21)"
  | other message => message

inductive Entry where
  | file (content : String)
  | directory
  deriving DecidableEq, Repr

/-- What is found at each path. -/
abbrev Files := Path → Except FileError Entry

namespace Files

variable (files : Files)

/-- Whether there is a file or directory at the path. -/
def doesExist (p : Path) : Bool :=
  (files p).toBool

/-- The content of a file. -/
def read (p : Path) : Except FileError String :=
  (files p).bind fun
    | .file content => .ok content
    | .directory => .error .isADirectory

/-- Whether a file can be written at the path: over a file, or new in a directory. A slash at the
end asks for a directory, whatever is there. -/
def checkWritable (p : Path) : Except FileError Unit :=
  if p.isEmpty then .error .notFound
  else
    let (above, name) := Path.divide p
    match files above with
    | .error e => .error e
    | .ok (.file _) => .error .notADirectory
    | .ok .directory =>
      if name ∈ ["", ".", ".."] ∨ ['/'].isSuffixOf p.toList then .error .isADirectory
      else match files p with
        | .ok (.file _) => .ok ()
        | .ok .directory => .error .isADirectory
        | .error .notFound => .ok ()
        | .error e => .error e

end Files

/-- A tree of files: the directories and files by the names on the way from the root. The root is a
directory in any case. -/
structure FileTree where
  entries : List (List String × Entry)
  deriving Repr

namespace FileTree

variable (t : FileTree)

/-- What is at the end of a way from the root. -/
def find (names : List String) : Except FileError Entry :=
  if names.isEmpty then .ok .directory
  else match t.entries.lookup names with
    | some e => .ok e
    | none => .error .notFound

/-- Follows names from a place. Each has to be looked up in a directory. -/
def follow (place : List String) : List String → Except FileError (List String)
  | [] => .ok place
  | name :: names =>
    match t.find place with
    | .error e => .error e
    | .ok (.file _) => .error .notADirectory
    | .ok .directory =>
      if name = "." then follow place names
      else if name = ".." then follow place.dropLast names
      else follow (place ++ [name]) names

/-- The files as they are seen from the directory `current`. A slash at the end of a path asks for
a directory. -/
def files (current : List String) : Files := fun p =>
  if p.isEmpty then .error .notFound
  else
    match t.follow (if Path.isAbsolute p then [] else current) (Path.names p) with
    | .error e => .error e
    | .ok place =>
      match t.find place with
      | .ok (.file content) =>
        if ['/'].isSuffixOf p.toList then .error .notADirectory else .ok (.file content)
      | found => found

/-- All beginnings of a list but the empty one, and the list itself last. -/
def beginnings : List String → List (List String)
  | [] => []
  | name :: names => [name] :: (beginnings names).map (name :: ·)

/-- Adds a file or directory, and the directories on the way to it that are missing. -/
def add (names : List String) (e : Entry) : FileTree :=
  let missing := (beginnings names.dropLast).filter fun way => (t.entries.lookup way).isNone
  ⟨(names, e) :: missing.map (·, .directory) ++ t.entries⟩

end FileTree

end WordTemplate.Host
