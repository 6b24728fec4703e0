/-
# The command line program

Runs a command line on the files of the system.
-/
import JavaMinus.Command.Run

namespace JavaMinus

/-- The number of a fault, which the system may give with its sign turned. -/
def faultNumber (code : UInt32) : UInt32 := if code < 0x80000000 then code else 0 - code

/-- The fault that a failed action on a file shows. -/
def FileFault.ofFailure (failure : IO.Error) : FileFault :=
  match failure with
  | .noFileOrDirectory .. => .notFound
  | .alreadyExists .. => .alreadyThere
  | .inappropriateType _ code _ => if faultNumber code == 20 then .notAFolder else .isAFolder
  | .invalidArgument _ code _ =>
      if faultNumber code == 36 then .nameTooLong else .other (toString failure)
  | _ => .other (toString failure)

def attempt {α : Type} (action : IO α) : IO (Except FileFault α) := do
  match ← action.toBaseIO with
  | .ok a => pure (.ok a)
  | .error failure => pure (.error (.ofFailure failure))

def systemAccess : FileAccess IO where
  read path := attempt (IO.FS.readFile path)
  makeFolder path := attempt (IO.FS.createDir path)
  isFolder path := do ((← IO.currentDir) / path).isDir
  write path content := attempt (IO.FS.writeFile path content)

end JavaMinus

/-- Runs the words of the command line; the exit code is the outcome's. -/
def main (words : List String) : IO UInt32 := do
  let outcome ← JavaMinus.Command.runLine JavaMinus.systemAccess words
  IO.print outcome.output
  IO.eprint outcome.errors
  pure outcome.code.toUInt32
