/-
# Running a command

A command reads its file, works on the text and leaves an outcome: an exit code, the text for the
output and the text for errors.  Wrong words on the command line end with code 2, everything else
that goes wrong with code 1.  When the rules of the language are broken, the reports are shown, one
a line; any other error is shown in one line that says so.
-/
import JavaMinus.Command.Arguments
import JavaMinus.Files.Destination

namespace JavaMinus

/-- What a run leaves behind, its files aside. -/
structure Outcome where
  code : Nat
  output : String
  errors : String
deriving DecidableEq, Repr

namespace Outcome

/-- A run that prints a text and ends well. -/
def done (output : String) : Outcome := ⟨0, output, ""⟩

/-- Texts, each on a line. -/
def asLines (texts : List String) : String := String.join (texts.map (· ++ "\n"))

/-- The end of a run that an error stops. -/
def ofError : Error → Outcome
  | .semantic reports => ⟨1, "", asLines (reports.map Report.text)⟩
  | e => ⟨1, "", asLines ["Error: " ++ e.message]⟩

/-- The end of a run whose file cannot be read. -/
def unreadable (file : String) (fault : FileFault) : Outcome :=
  ⟨1, "", asLines ["Error: failed to read " ++ file, "", "Caused by:", "    " ++ fault.text]⟩

/-- The commands as a reader is told of them. -/
def usage : List String :=
  ["Usage:", "  compile FILE [-o DIR] [--emit-ir]", "  check FILE", "  ir FILE", "  jasmin FILE"]

/-- The end of a run that was called with wrong words. -/
def wrongUsage : Outcome := ⟨2, "", asLines usage⟩

/-- The outcome of a step that prints its answer. -/
def ofResult (print : String → String) : Except Error String → Outcome
  | .ok text => done (print text)
  | .error e => ofError e

/-- The reports of a checked program; an error among them fails the run. -/
def ofAnalysis (a : Analysis) : Outcome :=
  ⟨if a.hasErrors then 1 else 0, asLines (a.reports.map Report.text), ""⟩

end Outcome

namespace Command

variable {m : Type → Type} [Monad m]

/-- The folder that files go to where none is named. -/
def currentFolder : String := "."

def perform (access : FileAccess m) (action : Action) (text : String) : m Outcome :=
  match action with
  | .compile folder emitIr => do
      let destination : Destination := ⟨folder.getD currentFolder, emitIr⟩
      let path ← destination.compileTo access text
      pure (.ofResult (· ++ "\n") path)
  | .check =>
      match Compiler.analyze text with
      | .ok analysis => pure (.ofAnalysis analysis)
      | .error e => pure (.ofError e)
  | .ir => pure (.ofResult id (Compiler.generateIr text))
  | .assemble => pure (.ofResult id (Compiler.assemble text))

def run (access : FileAccess m) (c : Command) : m Outcome := do
  match ← access.read c.file with
  | .ok text => perform access c.action text
  | .error fault => pure (.unreadable c.file fault)

def runLine (access : FileAccess m) (words : List String) : m Outcome :=
  match ofArguments? words with
  | some c => c.run access
  | none => pure .wrongUsage

end Command

end JavaMinus
