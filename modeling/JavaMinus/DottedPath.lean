/-
# Dotted paths

The path of an imported class is a row of names with dots between.  The last name is the one that
the program uses; assembly writes the whole path with slashes.
-/
namespace JavaMinus.DottedPath

def lastPart (path : String) : String :=
  String.ofList (path.toList.reverse.takeWhile (· != '.')).reverse

/-- The path with slashes in the places of its dots. -/
def slashed (path : String) : String :=
  path.map fun c => if c = '.' then '/' else c

end JavaMinus.DottedPath
