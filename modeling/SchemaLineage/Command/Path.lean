/-!
Paths as text: words between slashes. A single point stands for the directory that it is in, two
points for the one above, and empty words for nothing.
-/
namespace SchemaLineage.Path

def steps (path : String) : List (List Char) :=
  (path.toList.splitOn '/').filter (· ≠ [])

def parts (path : String) : List (List Char) :=
  (steps path).filter (· ≠ ['.'])

def endsInSlash (path : String) : Bool :=
  path.toList.getLast? = some '/'

/-- The name by which messages call a file: the last word of its path, or the whole path if that
does not end in a name. -/
def displayName (path : String) : String :=
  match (parts path).getLast? with
  | none => path
  | some part => if part = ['.', '.'] then path else String.ofList part

def trimParts (parts : List (List Char)) : List (List Char) :=
  (parts.reverse.dropWhile fun part => part = [] ∨ part = ['.']).reverse

/-- The path of the directory that holds a file; empty if it is the current one. -/
def parent (path : String) : String :=
  "/".intercalate ((trimParts (trimParts (path.toList.splitOn '/')).dropLast).map String.ofList)

end SchemaLineage.Path
