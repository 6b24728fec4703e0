/-
# Lowering a program

The lines of a whole unit: imports, the class with its fields, a constructor that calls the one of
the superclass, and the methods.  A method that returns nothing and does not end in a return gets
one.

The head of a method shows the parameters of the first method of that name.
-/
import JavaMinus.Lowering.Statement

namespace JavaMinus.Lowering

open Source

/-- Writes lines one level deeper. -/
def indented (m : Lowering Unit) : Lowering Unit := do
  setIndent (· + 1)
  m
  setIndent (· - 1)

def fieldOf (s : Symbol) : Ir.Field where
  name := s.name
  access := .privateAccess
  isStatic := false
  isFinal := false
  type := s.type.lowered

/-- The head of a method, its body left out. -/
def headOf (table : SymbolTable) (m : Method) : Ir.Method where
  name := m.name
  access := .publicAccess
  isStatic := m.isStatic
  isFinal := false
  isConstructor := false
  params := ((table.parameters? m.name).getD []).map (·.lowered)
  returnType := if m.isMain then .void else m.returnType.lowered
  body := []
  trailing := []

def constructorHead (table : SymbolTable) : Ir.Method where
  name := table.className
  access := .publicAccess
  isStatic := false
  isFinal := false
  isConstructor := true
  params := []
  returnType := .void
  body := []
  trailing := []

def classHead (table : SymbolTable) : Ir.ClassUnit where
  imports := table.imports
  name := table.className
  access := .publicAccess
  superClass := table.superClass
  fields := table.fields.map fieldOf
  methods := []

/-- The call of the superclass's constructor. -/
def superCall : Ir.Instruction :=
  .call ⟨.invokeSpecial, some thisOperand, some "<init>", [], .void⟩

/-- Whether the last statement is a return. -/
def endsWithReturn (body : List Stmt) : Bool :=
  match body.getLast? with
  | some (.return ..) => true
  | _ => false

def emitTexts : List String → Lowering Unit
  | [] => pure ()
  | s :: ss => do
      emitText s
      emitTexts ss

def emitBlock (head : String) (body : Lowering Unit) : Lowering Unit := do
  emitText head
  indented body
  emitText "\x7d"

/-- Lowers a body, with a return at its end if one is due. -/
def lowerBody (table : SymbolTable) (m : Method) : Lowering Unit := do
  lowerStmts table m.body
  if !endsWithReturn m.body && (m.isMain || m.returnType.isVoid) then emit .returnVoid else pure ()

def lowerMethod (table : SymbolTable) (m : Method) : Lowering Unit := do
  beginMethod m.name
  emitBlock (headOf table m).headText (lowerBody table m)

/-- Lowers methods in a row, each after an empty line. -/
def lowerMethods (table : SymbolTable) : List Method → Lowering Unit
  | [] => pure ()
  | m :: ms => do
      emitText ""
      lowerMethod table m
      lowerMethods table ms

def lowerMembers (table : SymbolTable) (methods : List Method) : Lowering Unit := do
  emitTexts (table.fields.map fun f => (fieldOf f).text)
  emitText ""
  emitBlock (constructorHead table).headText (emit superCall)
  lowerMethods table methods

def lowerProgram (table : SymbolTable) (p : Program) : Lowering Unit := do
  emitTexts (table.imports.map Ir.importText)
  if table.imports.isEmpty then pure () else emitText ""
  emitBlock (classHead table).headText (lowerMembers table p.methods)

def irText (table : SymbolTable) (p : Program) : Except Error String :=
  let r := (lowerProgram table p).run .start
  r.outcome.map fun () => Line.renderAll r.written

end JavaMinus.Lowering
