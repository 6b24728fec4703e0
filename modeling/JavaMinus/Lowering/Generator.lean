/-
# The generator of the intermediate form

Lowering is an emission of lines.  Its state is where it is: the indentation, the method whose body
is being lowered, and how many temporaries and labels have been used in it.

A temporary has a name that means nothing else in the method.  The search for one goes up from the
counter, and since the names of a method are finitely many it ends; `firstFree` follows it by
crossing out the names it runs into.
-/
import JavaMinus.Emission
import JavaMinus.Error
import JavaMinus.Lowering.Value
import JavaMinus.Typing.SymbolTable

namespace JavaMinus

namespace Lowering

inductive Line where
  /-- A line as it is, at an indentation. -/
  | text (indent : Nat) (s : String)
  /-- An instruction, at an indentation. -/
  | code (indent : Nat) (i : Ir.Instruction)
  /-- A label, never indented. -/
  | label (name : String)
deriving DecidableEq, Repr

namespace Line

def blanks (indent : Nat) : String := String.ofList (List.replicate (4 * indent) ' ')

/-- The line with its line break; an empty line has no blanks. -/
def render : Line → String
  | .text indent s => if s.isEmpty then "\n" else blanks indent ++ s ++ "\n"
  | .code indent i => blanks indent ++ i.text ++ ";\n"
  | .label name => name ++ ":\n"

def renderAll (lines : List Line) : String := String.join (lines.map render)

end Line

structure Cursor where
  indent : Nat
  method : String
  temps : Nat
  labels : Nat
deriving DecidableEq, Repr

/-- The state of a fresh generator. -/
def Cursor.start : Cursor := ⟨0, "", 0, 0⟩

end Lowering

/-- A step of the generator. -/
abbrev Lowering (α : Type) : Type := Emission Error Lowering.Cursor Lowering.Line α

namespace Lowering

/-- Begins a method: its temporaries and labels are counted from zero. -/
def beginMethod (name : String) : Lowering Unit :=
  Emission.modifyState fun s => { s with method := name, temps := 0, labels := 0 }

def setIndent (f : Nat → Nat) : Lowering Unit :=
  Emission.modifyState fun s => { s with indent := f s.indent }

def emitText (s : String) : Lowering Unit := do
  let cursor ← Emission.state
  Emission.write (.text cursor.indent s)

def emit (i : Ir.Instruction) : Lowering Unit := do
  let cursor ← Emission.state
  Emission.write (.code cursor.indent i)

def emitLabel (name : String) : Lowering Unit :=
  Emission.write (.label name)

/-! ## Temporaries and labels -/

def tempName (n : Nat) : String := "tmp" ++ toString n

/-- The first number from `n` on whose temporary is not taken. -/
def firstFree (n : Nat) (taken : List String) : Nat :=
  if tempName n ∈ taken then firstFree (n + 1) (taken.erase (tempName n)) else n
termination_by taken.length
decreasing_by
  rename_i h
  have := List.length_pos_of_mem h
  rw [List.length_erase_of_mem h]
  omega

/-- A new temporary of the current method. -/
def newTemp (table : SymbolTable) : Lowering String := do
  let cursor ← Emission.state
  let n := firstFree cursor.temps (table.visibleNames cursor.method)
  Emission.modifyState fun s => { s with temps := n + 1 }
  pure (tempName n)

/-- A new number for labels; all labels of one statement share it. -/
def newLabel : Lowering Nat := do
  let cursor ← Emission.state
  Emission.modifyState fun s => { s with labels := s.labels + 1 }
  pure cursor.labels

/-- What a name means in the current method. -/
def lookup (table : SymbolTable) (name : String) : Lowering (Option Lookup) := do
  let cursor ← Emission.state
  pure (table.lookup cursor.method name)

/-- Stores the result of an instruction in a new temporary. -/
def bind (table : SymbolTable) (rhs : Ir.Instruction) (type : Ty) : Lowering Value := do
  let name ← newTemp table
  emit (.assign (.var name type.lowered) type.lowered rhs)
  pure (.var name type)

end Lowering

end JavaMinus
