/-
# Folders

A folder as a value: the files in it, each with its name and content, and the folders in it, each
with its name and what it holds in turn.  No name stands twice in a folder that is made by the
changes below, since each of them takes out what had the name before.
-/
namespace JavaMinus

inductive Folder where
  | empty
  | file (name content : String) (rest : Folder)
  | folder (name : String) (inner rest : Folder)
deriving DecidableEq, Repr

/-- What has a name in a folder. -/
inductive Folder.Entry where
  | file (content : String)
  | folder (inner : Folder)
deriving DecidableEq, Repr

namespace Folder

def find? (name : String) : Folder → Option Entry
  | .empty => none
  | .file other content rest => if other = name then some (.file content) else find? name rest
  | .folder other inner rest => if other = name then some (.folder inner) else find? name rest

/-- What the folder of a name holds: nothing if there is none. -/
def inside (f : Folder) (name : String) : Folder :=
  match f.find? name with
  | some (.folder inner) => inner
  | _ => .empty

/-- All but what has a name. -/
def erase (name : String) : Folder → Folder
  | .empty => .empty
  | .file other content rest =>
      if other = name then erase name rest else .file other content (erase name rest)
  | .folder other inner rest =>
      if other = name then erase name rest else .folder other inner (erase name rest)

def putFile (f : Folder) (name content : String) : Folder := .file name content (f.erase name)

def putFolder (f : Folder) (name : String) (inner : Folder) : Folder :=
  .folder name inner (f.erase name)

/-- Changes the folder that names lead to; where there is none, it is made. -/
def change (f : Folder → Folder) : List String → Folder → Folder
  | [], here => f here
  | name :: names, here => here.putFolder name (change f names (here.inside name))

/-- The files, also those in the folders, each with its path after a lead. -/
def toFiles (lead : String) : Folder → List (String × String)
  | .empty => []
  | .file name content rest => (lead ++ name, content) :: toFiles lead rest
  | .folder name inner rest => toFiles (lead ++ name ++ "/") inner ++ toFiles lead rest

end Folder

end JavaMinus
