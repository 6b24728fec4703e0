/-
# File trees

All files and folders as a value.  A path is followed part by part, from the root or from the
working folder, so each part but the last has to lead to a folder, also where the next part leads up
again.

Beside the working folder stand the folders that every system has.
-/
import JavaMinus.Files.Access
import JavaMinus.Files.Folder

namespace JavaMinus

/-- The folder at the root, and the names that lead from it to the working folder. -/
structure FileTree where
  root : Folder
  working : List String
deriving DecidableEq, Repr

namespace FileTree

/-- The names of the folders at the root. -/
def standardFolders : List String :=
  ["bin", "boot", "dev", "etc", "home", "lib", "media", "mnt", "opt", "proc", "root", "run",
    "sbin", "srv", "sys", "tmp", "usr", "var"]

/-- The tree without files in the working folder; of the devices it has the one that is empty. -/
def blank : FileTree where
  root :=
    let folders := standardFolders.foldl (·.putFolder · .empty) Folder.empty
    (folders.change (·.putFile "null" "") ["dev"]).change (·.putFolder "work" .empty) ["tmp"]
  working := ["tmp", "work"]

/-- Adds a file to the working folder, or to a folder in it. -/
def addFile (t : FileTree) (path content : String) : FileTree :=
  match (Path.names path).reverse with
  | [] => t
  | name :: above =>
      { t with root := t.root.change (·.putFile name content) (t.working ++ above.reverse) }

/-- The tree whose working folder holds the files that are given by their paths. -/
def ofFiles (files : List (String × String)) : FileTree :=
  files.foldl (fun t (path, content) => t.addFile path content) blank

/-- The files in the working folder and in the folders in it, each with its path from there. -/
def toFiles (t : FileTree) : List (String × String) :=
  (t.working.foldl Folder.inside t.root).toFiles ""

/-! ## Following paths -/

/-- Where one is on a path: the folder at hand, and the folders above it, the nearest first, each
with the name that leads down from it. -/
structure Trail where
  here : Folder
  above : List (String × Folder)

namespace Trail

/-- The names that lead from the root to the folder at hand. -/
def place (p : Trail) : List String := (p.above.map (·.1)).reverse

/-- Goes to the folder above; the root has itself above it. -/
def up (p : Trail) : Trail :=
  match p.above with
  | (_, folder) :: above => ⟨folder, above⟩
  | [] => p

/-- Goes to the folder of a name. -/
def down (p : Trail) (name : String) : Trail := ⟨p.here.inside name, (name, p.here) :: p.above⟩

/-- The most bytes that a name may have. -/
def nameLimit : Nat := 255

/-- What has a name in the folder at hand, if the name can be asked for at all. -/
def find? (p : Trail) (name : String) : Except FileFault (Option Folder.Entry) :=
  if nameLimit < name.utf8ByteSize then .error .nameTooLong else .ok (p.here.find? name)

/-- Follows a part of a path to a folder. -/
def enter (p : Trail) : String → Except FileFault Trail
  | "." => .ok p
  | ".." => .ok p.up
  | name => do
      match ← p.find? name with
      | some (.folder _) => .ok (p.down name)
      | some (.file _) => .error .notAFolder
      | none => .error .notFound

end Trail

def origin (t : FileTree) (path : String) : Trail :=
  if Path.isAbsolute path then ⟨t.root, []⟩ else t.working.foldl Trail.down ⟨t.root, []⟩

/-- What a path leads to: a folder, by dots or by nothing at all, or what has the last name, if
anything has it. -/
inductive Target where
  | folder
  | entry (stands : Trail) (name : String) (found : Option Folder.Entry)

/-- The most bytes that a path may have. -/
def pathLimit : Nat := 4095

/-- The fault of a path that cannot be followed from anywhere. -/
def fault? (path : String) : Option FileFault :=
  if path.toList.contains '\x00' then some .nulInPath
  else if path.isEmpty then some .notFound
  else if pathLimit < path.utf8ByteSize then some .nameTooLong
  else none

def locate (t : FileTree) (path : String) : Except FileFault Target := do
  match fault? path with
  | some fault => .error fault
  | none =>
      let parts := Path.parts path
      let stands ← parts.dropLast.foldlM Trail.enter (t.origin path)
      match parts.getLast? with
      | none => .ok .folder
      | some "." => .ok .folder
      | some ".." => .ok .folder
      | some name => do
          let found ← stands.find? name
          .ok (.entry stands name found)

/-! ## Actions -/

def read (t : FileTree) (path : String) : Except FileFault String := do
  match ← t.locate path with
  | .entry _ _ (some (.file content)) =>
      if Path.endsInSlash path then .error .notAFolder else .ok content
  | .entry _ _ none => .error .notFound
  | _ => .error .isAFolder

def isFolder (t : FileTree) (path : String) : Bool :=
  match t.locate path with
  | .ok .folder => true
  | .ok (.entry _ _ (some (.folder _))) => true
  | _ => false

/-- Makes a folder where nothing is yet. -/
def makeFolder (t : FileTree) (path : String) : Except FileFault FileTree := do
  match ← t.locate path with
  | .entry stands name none =>
      .ok { t with root := t.root.change (·.putFolder name .empty) stands.place }
  | _ => .error .alreadyThere

/-- Writes a file, over the one that is there. -/
def write (t : FileTree) (path content : String) : Except FileFault FileTree := do
  match ← t.locate path with
  | .folder => .error .isAFolder
  | .entry _ _ (some (.folder _)) => .error .isAFolder
  | .entry stands name _ =>
      if Path.endsInSlash path then .error .isAFolder
      else .ok { t with root := t.root.change (·.putFile name content) stands.place }

/-- A change of the tree, which stays as it is if the change fails. -/
def change (f : FileTree → Except FileFault FileTree) : StateM FileTree (Except FileFault Unit) :=
  fun t =>
    match f t with
    | .ok next => (.ok (), next)
    | .error fault => (.error fault, t)

def access : FileAccess (StateM FileTree) where
  read path := fun t => (t.read path, t)
  makeFolder path := change (·.makeFolder path)
  isFolder path := fun t => (t.isFolder path, t)
  write path content := change (·.write path content)

end FileTree

end JavaMinus
