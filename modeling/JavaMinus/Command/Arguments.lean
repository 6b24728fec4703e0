/-
# The words of the command line

    [-v] compile FILE [-o DIR] [--emit-ir]
    [-v] check FILE
    [-v] ir FILE
    [-v] jasmin FILE

A word that begins with a hyphen is an option, except the hyphen alone.  Short options may stand in
one word, and the value of one may follow it there, after an equals sign or at once; the value of a
long option may follow its name after an equals sign.  The verbose option may stand before the name
of the command and after it, each time once; the others may be given once.  After two hyphens every
word is a file.  No value and no file is the empty word.

The verbose option asks for a log of what is done; it changes nothing else.
-/
namespace JavaMinus

/-- What is to be done with the file. -/
inductive Action where
  | compile (folder : Option String) (emitIr : Bool)
  | check
  | ir
  | assemble
deriving DecidableEq, Repr

/-- A command: what is done, and with which file. -/
structure Command where
  action : Action
  file : String
  verbose : Bool
deriving DecidableEq, Repr

namespace Command

inductive Word where
  | plain (text : String)
  | long (name : String) (value : Option String)
  | short (letters : List Char)
  | endOfOptions
deriving DecidableEq, Repr

def Word.ofString (s : String) : Word :=
  match s.toList with
  | ['-', '-'] => .endOfOptions
  | '-' :: '-' :: rest =>
      let name := String.ofList (rest.takeWhile (· != '='))
      match rest.dropWhile (· != '=') with
      | _ :: value => .long name (some (String.ofList value))
      | [] => .long name none
  | '-' :: c :: rest => .short (c :: rest)
  | _ => .plain s

inductive Name where
  | compile | check | ir | jasmin
deriving DecidableEq, Repr

def Name.ofString? : String → Option Name
  | "compile" => some .compile
  | "check" => some .check
  | "ir" => some .ir
  | "jasmin" => some .jasmin
  | _ => none

/-- What the words have given so far. -/
structure Given where
  verbose : Bool
  emitIr : Bool
  folder : Option String
  files : List String
deriving DecidableEq, Repr

namespace Given

def nothing : Given := ⟨false, false, none, []⟩

/-- The verbose option, if it is the first one. -/
def setVerbose (g : Given) : Option Given :=
  if g.verbose then none else some { g with verbose := true }

/-- The option for the intermediate form, if it is the first one. -/
def setEmitIr (g : Given) : Option Given :=
  if g.emitIr then none else some { g with emitIr := true }

/-- The folder for the files, if it is the first one and not empty. -/
def setFolder (g : Given) (folder : String) : Option Given :=
  if folder.isEmpty || g.folder.isSome then none else some { g with folder := some folder }

def addFile (g : Given) (file : String) : Given := { g with files := g.files ++ [file] }

end Given

/-- Whether the command has the options that say where its files go. -/
def hasFolder : Option Name → Bool
  | some .compile => true
  | _ => false

/-- Reads short options; with what they give comes whether a value is still to follow. -/
def readShort (name : Option Name) (g : Given) : List Char → Option (Given × Bool)
  | [] => some (g, false)
  | 'v' :: rest => do
      let g ← g.setVerbose
      readShort name g rest
  | 'o' :: rest => do
      guard (hasFolder name)
      match rest with
      | [] => some (g, true)
      | '=' :: value => (g.setFolder (String.ofList value)).map (·, false)
      | value => (g.setFolder (String.ofList value)).map (·, false)
  | _ => none

/-- Reads a long option, likewise. -/
def readLong (name : Option Name) (g : Given) (option : String) (value : Option String) :
    Option (Given × Bool) :=
  match option, value with
  | "verbose", none => g.setVerbose.map (·, false)
  | "emit-ir", none => do
      guard (hasFolder name)
      g.setEmitIr.map (·, false)
  | "output", none => do
      guard (hasFolder name)
      some (g, true)
  | "output", some folder => do
      guard (hasFolder name)
      (g.setFolder folder).map (·, false)
  | _, _ => none

/-- Reads the words after the name of a command, the first of them as the value that is still to
follow, if one is. -/
def readWords (name : Name) : Given → Bool → List String → Option Given
  | g, awaiting, [] => if awaiting then none else some g
  | g, true, word :: words =>
      match Word.ofString word with
      | .plain value => (g.setFolder value).bind fun g => readWords name g false words
      | _ => none
  | g, false, word :: words =>
      match Word.ofString word with
      | .plain file => readWords name (g.addFile file) false words
      | .endOfOptions => some { g with files := g.files ++ words }
      | .short letters =>
          (readShort (some name) g letters).bind fun (g, awaiting) =>
            readWords name g awaiting words
      | .long option value =>
          (readLong (some name) g option value).bind fun (g, awaiting) =>
            readWords name g awaiting words

/-- Reads the words up to the name of the command. -/
def readName : Given → List String → Option (Name × Given × List String)
  | _, [] => none
  | g, word :: words =>
      match Word.ofString word with
      | .plain text => (Name.ofString? text).map (·, g, words)
      | .endOfOptions => none
      | .short letters => (readShort none g letters).bind fun (g, _) => readName g words
      | .long option value => (readLong none g option value).bind fun (g, _) => readName g words

/-- The action of a command. -/
def actionOf (g : Given) : Name → Action
  | .compile => .compile g.folder g.emitIr
  | .check => .check
  | .ir => .ir
  | .jasmin => .assemble

/-- The command of a command line, if its words are in order. -/
def ofArguments? (words : List String) : Option Command := do
  let (name, before, rest) ← readName .nothing words
  let given ← readWords name .nothing false rest
  match given.files with
  | [file] =>
      guard (!file.isEmpty)
      some ⟨actionOf given name, file, before.verbose || given.verbose⟩
  | _ => none

end Command

end JavaMinus
