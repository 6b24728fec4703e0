/-
# Access to files

What the compiler needs of the files around it: to read a file, to make a folder, to tell whether
something is a folder, and to write a file.  Each of the actions may fail with a fault.

A folder is made with the folders above it.  The path itself is tried first, and the folders above
it only if it fails for want of them, so the fault that is shown is the one nearest to the path.
-/
import JavaMinus.Files.Path

namespace JavaMinus

/-- Why a file or folder cannot be used. -/
inductive FileFault where
  | notFound
  | alreadyThere
  | notAFolder
  | isAFolder
  | nameTooLong
  | nulInPath
  | other (text : String)
deriving DecidableEq, Repr

/-- The text of a fault, with its number if it has one. -/
def FileFault.text : FileFault → String
  | .notFound => "No such file or directory (os error 2)"
  | .alreadyThere => "File exists (os error 17)"
  | .notAFolder => "Not a directory (os error 20)"
  | .isAFolder => "Is a directory (os error 21)"
  | .nameTooLong => "File name too long (os error 36)"
  | .nulInPath => "file name contained an unexpected NUL byte"
  | .other text => text

/-- The files that a program works on, inside a monad.  A folder is made in one that is there. -/
structure FileAccess (m : Type → Type) where
  read : String → m (Except FileFault String)
  makeFolder : String → m (Except FileFault Unit)
  isFolder : String → m Bool
  write : String → String → m (Except FileFault Unit)

namespace FileAccess

variable {m : Type → Type} [Monad m]

/-- Makes a folder unless it is there. -/
def ensureFolder (access : FileAccess m) (path : String) : m (Except FileFault Unit) := do
  match ← access.makeFolder path with
  | .ok () => pure (.ok ())
  | .error fault =>
      if ← access.isFolder path then pure (.ok ()) else pure (.error fault)

/-- Makes the first of some folders, each of which stands in the next one.  Where nothing is found
on the way to it, the others are made first in the same manner. -/
def ensureChain (access : FileAccess m) : List String → m (Except FileFault Unit)
  | [] => pure (.ok ())
  | path :: above => do
      match ← access.ensureFolder path with
      | .ok () => pure (.ok ())
      | .error .notFound => do
          match ← ensureChain access above with
          | .ok () => access.ensureFolder path
          | .error fault => pure (.error fault)
      | .error fault => pure (.error fault)

/-- Makes a folder and the folders above it.  No path is the folder at hand. -/
def makeFolders (access : FileAccess m) (path : String) : m (Except FileFault Unit) :=
  if path.isEmpty then pure (.ok ()) else access.ensureChain (path :: Path.above path)

end FileAccess

end JavaMinus
