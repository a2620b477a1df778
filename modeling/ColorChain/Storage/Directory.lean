import ColorChain.Storage.Path
import ColorChain.Text.Utf8

/-!
# Directories

The files that a program sees, as a value. Looking up a path walks its names from the working
directory; every way the walk or the use of its end can fail has a cause of its own.
-/

namespace ColorChain.Storage

open Text

/-- Why a file cannot be used. -/
inductive FileFault where
  | notFound
  | notADirectory
  | isADirectory
  | notText
  | nullInName
deriving DecidableEq, Repr

def FileFault.message : FileFault → String
  | .notFound => "No such file or directory (os error 2)"
  | .notADirectory => "Not a directory (os error 20)"
  | .isADirectory => "Is a directory (os error 21)"
  | .notText => "stream did not contain valid UTF-8"
  | .nullInName => "file name contained an unexpected NUL byte"

/-- The files below a working directory, each under the names that lead to it. -/
structure Directory where
  files : List (List (List Char) × Bytes)

/-- What a path leads to. -/
inductive Place where
  | file (content : Bytes)
  | folder (location : List (List Char))
  /-- A folder above the working directory, of which only the way up is known. -/
  | outside

namespace Directory

/-- The directory that holds the given files and the folders that lead to them. -/
def ofFiles (files : List (String × Bytes)) : Directory :=
  ⟨files.map fun (path, content) =>
    ((names path.toList).filter fun name => name ≠ [] ∧ name ≠ ['.'], content)⟩

/-- What lies at a location below the working directory. -/
def at? (directory : Directory) (location : List (List Char)) : Option Place :=
  match directory.files.find? (·.1 = location) with
  | some (_, content) => some (.file content)
  | none =>
    if location = [] ∨ directory.files.any (location.isPrefixOf ·.1) then some (.folder location)
    else none

/-- One name further from a place. -/
def enter (directory : Directory) (place : Place) (name : List Char) : Except FileFault Place :=
  match place with
  | .file _ => .error .notADirectory
  | .outside => if name = [] ∨ name = ['.'] ∨ name = ['.', '.'] then .ok .outside else .error .notFound
  | .folder location =>
    if name = [] ∨ name = ['.'] then .ok place
    else if name = ['.', '.'] then
      .ok (if location = [] then .outside else .folder location.dropLast)
    else
      match directory.at? (location ++ [name]) with
      | some place => .ok place
      | none => .error .notFound

/-- The place at the end of a walk along `names`. -/
def walk (directory : Directory) (place : Place) : List (List Char) → Except FileFault Place
  | [] => .ok place
  | name :: rest => (directory.enter place name).bind fun next => directory.walk next rest

/-- Where a path begins: at the working directory, or outside if it begins with a slash. -/
def start (path : List Char) : Place :=
  if path.head? = some '/' then .outside else .folder []

/-- What a path leads to. -/
def locate (directory : Directory) (path : List Char) : Except FileFault Place :=
  if '\x00' ∈ path then .error .nullInName
  else if path = [] then .error .notFound
  else directory.walk (start path) (names path)

/-- The content of the file at a path. -/
def read (directory : Directory) (path : List Char) : Except FileFault Bytes :=
  match directory.locate path with
  | .error fault => .error fault
  | .ok (.file content) => .ok content
  | .ok _ => .error .isADirectory

/-- The content of the file at a path as text. -/
def readText (directory : Directory) (path : List Char) : Except FileFault (List Char) :=
  match directory.read path with
  | .error fault => .error fault
  | .ok content =>
    match decode content with
    | .ok text => .ok text
    | .error _ => .error .notText

/-- The directory after the file at a path has been given new content. The file is made if only its
last name is missing. -/
def write (directory : Directory) (path : List Char) (content : Bytes) :
    Except FileFault Directory :=
  match directory.locate path with
  | .ok (.file _) | .error .notFound =>
    let name := (names path).getLast?.getD []
    match directory.walk (start path) (names path).dropLast with
    | .error fault => .error fault
    | .ok (.file _) => .error .notADirectory
    | .ok .outside => .error .notFound
    | .ok (.folder location) =>
      if name = [] then .error (if path = [] then .notFound else .isADirectory)
      else
        let location := location ++ [name]
        .ok ⟨(location, content) :: directory.files.filter (·.1 ≠ location)⟩
  | .ok _ => .error .isADirectory
  | .error fault => .error fault

end Directory

end ColorChain.Storage
