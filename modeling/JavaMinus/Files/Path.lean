/-
# Paths

A path is a text with slashes between its parts.  An empty part names nothing, a single dot names
the folder at hand, and two dots name the folder above.

The extension of a file name is what follows its last dot, provided something comes before that dot.
-/
namespace JavaMinus.Path

/-- Whether the path starts at the root of all files. -/
def isAbsolute (path : String) : Bool := path.toList.head? == some '/'

/-- Whether a slash ends the path, so that it can lead to a folder only. -/
def endsInSlash (path : String) : Bool := path.toList.getLast? == some '/'

/-- The parts between the slashes that are not empty. -/
def parts (path : String) : List String :=
  (cut [] path.toList).filter (!·.isEmpty)
where
  /-- Cuts at the slashes; the characters of the part at hand are kept in reverse. -/
  cut (part : List Char) : List Char → List String
    | [] => [String.ofList part.reverse]
    | '/' :: rest => String.ofList part.reverse :: cut [] rest
    | c :: rest => cut (c :: part) rest

/-- The parts that lead somewhere: single dots do not. -/
def names (path : String) : List String := (parts path).filter (· != ".")

/-- The paths of the folders that the last name of a path stands in, the nearest first. -/
def above (path : String) : List String :=
  let names := names path
  ((List.range names.length).drop 1).reverse.map fun count =>
    (if isAbsolute path then "/" else "") ++ "/".intercalate (names.take count)

/-- A path below a folder; an absolute path is where it is. -/
def join (folder path : String) : String :=
  if isAbsolute path then path
  else if folder.isEmpty || endsInSlash folder then folder ++ path
  else folder ++ "/" ++ path

/-- Characters without the slashes and single dots that they begin with.  The characters of a path
in reverse lose those that the path ends in. -/
def dropDots : List Char → List Char
  | '/' :: rest => dropDots rest
  | '.' :: '/' :: rest => dropDots rest
  | rest => rest

/-- The path from the folder at hand, without the single dots that it begins with. -/
def relative (path : String) : String :=
  if isAbsolute path then path else String.ofList (dropDots path.toList)

/-- The file name of a reversed path, reversed; dots alone are none. -/
def fileName (back : List Char) : List Char :=
  let name := (dropDots back).takeWhile (· != '/')
  if name = ['.'] ∨ name = ['.', '.'] then [] else name

/-- A reversed file name without its extension. -/
def stem (name : List Char) : List Char :=
  match name.dropWhile (· != '.') with
  | _ :: c :: rest => c :: rest
  | _ => name

/-- The number of characters of the extension of a reversed file name. -/
def extensionLength (name : List Char) : Nat := name.length - (stem name).length - 1

/-- A reversed path with an extension after the stem of its file name, or with the stem alone if the
extension is empty.  A path that names no file stays as it is. -/
def setExtension (extension : String) (back : List Char) : List Char :=
  match fileName back with
  | [] => back
  | name =>
      (if extension.isEmpty then [] else extension.toList.reverse ++ ['.']) ++ stem name ++
        (dropDots back).drop name.length

/-- The path with another extension for its file name.  As many characters as the old extension has
are first cut off the end of the path; if that leaves two dots, they name a folder, which takes no
extension. -/
def withExtension (path extension : String) : String :=
  let back := path.toList.reverse
  let bare := back.drop (extensionLength (fileName back))
  String.ofList (setExtension extension bare).reverse

end JavaMinus.Path
