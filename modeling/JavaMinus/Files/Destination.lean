/-
# Where a compilation goes

The files of a compilation stand in one folder and are named after the class: the assembly, and
before it the intermediate form where that is asked for.
-/
import JavaMinus.Compiler
import JavaMinus.Files.Access

namespace JavaMinus

/-- The folder of the files, and whether the intermediate form is one of them. -/
structure Destination where
  folder : String
  emitIr : Bool
deriving DecidableEq, Repr

namespace Destination

def path (d : Destination) (className extension : String) : String :=
  Path.join d.folder (Path.withExtension className extension)

def assemblyExtension : String := "j"

def irExtension : String := "ollir"

def assemblyPath (d : Destination) (className : String) : String :=
  d.path className assemblyExtension

/-- The files of a compilation, in the order in which they are written. -/
def files (d : Destination) (c : Compilation) : List (String × String) :=
  (if d.emitIr then [(d.path c.className irExtension, c.ir)] else []) ++
    [(d.assemblyPath c.className, c.assembly)]

variable {m : Type → Type} [Monad m]

/-- Writes files in order, up to the first that cannot be written. -/
def writeAll (access : FileAccess m) : List (String × String) → m (Except FileFault Unit)
  | [] => pure (.ok ())
  | (path, content) :: rest => do
      match ← access.write path content with
      | .ok () => writeAll access rest
      | .error fault => pure (.error fault)

/-- Makes the folder and writes the files of a compilation. -/
def save (access : FileAccess m) (d : Destination) (c : Compilation) :
    m (Except FileFault Unit) := do
  match ← access.makeFolders d.folder with
  | .ok () => writeAll access (d.files c)
  | .error fault => pure (.error fault)

/-- Compiles a source text and writes its files; the answer is the path of the assembly. -/
def compileTo (access : FileAccess m) (d : Destination) (source : String) :
    m (Except Error String) :=
  match Compiler.compile source with
  | .error e => pure (.error e)
  | .ok c => do
      match ← d.save access c with
      | .ok () => pure (.ok (d.assemblyPath c.className))
      | .error fault => pure (.error (.io fault.text))

end Destination

end JavaMinus
