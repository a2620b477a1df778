import ColorChain.Text.LowerCase

/-!
# Paths

A path is a text of names divided by slashes. The extension of a path is read off its last name.
-/

namespace ColorChain.Storage

/-- The names of a path in order, empty ones included. -/
def names (path : List Char) : List (List Char) := path.splitOn '/'

/-- The last name of a path, if it names an entry and not a folder by its place. Slashes and single
dots at the end do not count. -/
def fileName? (path : List Char) : Option (List Char) :=
  match ((names path).filter fun name => name ≠ [] ∧ name ≠ ['.']).getLast? with
  | some ['.', '.'] => none
  | found => found

/-- What follows the last dot of a name that does not begin the name. -/
def extension? (path : List Char) : Option (List Char) :=
  (fileName? path).bind fun name =>
    let tail := (name.reverse.takeWhile (· ≠ '.')).reverse
    if tail.length + 1 < name.length then some tail else none

/-- The extension of a path, empty if it has none. -/
def extension (path : List Char) : List Char := (extension? path).getD []

end ColorChain.Storage
