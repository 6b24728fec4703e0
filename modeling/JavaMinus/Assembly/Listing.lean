/-
# Listings

The assembly of a class: its name and superclass, its fields, and its methods with the depth of the
operand stack and the number of registers that each needs.  A method is listed on its own, from the
class names and the method alone.

A method gets a `return` at its end if its code has none, or if it returns nothing and labels stand
after its last instruction.  A class without a constructor gets one that calls its superclass's.
-/
import JavaMinus.Assembly.Code

namespace JavaMinus.Assembly

open Ir

structure FieldListing where
  access : Access
  isStatic : Bool
  isFinal : Bool
  name : String
  type : Descriptor
deriving DecidableEq, Repr

/-- A listed method: its head, what it needs, and its lines. -/
structure MethodListing where
  access : Access
  isStatic : Bool
  isFinal : Bool
  name : String
  params : List Descriptor
  result : Descriptor
  stackLimit : Nat
  localsLimit : Nat
  code : List CodeLine
deriving DecidableEq, Repr

structure ClassListing where
  access : Access
  name : String
  super : String
  fields : List FieldListing
  methods : List MethodListing
  /-- The constructor that the class gets because it has none. -/
  added : Option MethodListing
deriving DecidableEq, Repr

/-! ## Methods -/

def constructorName : String := "<init>"

/-- Whether a method needs a `return` after its code. -/
def needsReturn (m : Method) (code : List CodeLine) : Bool :=
  !code.any (·.isReturn) || (!m.trailing.isEmpty && m.returnType == .void)

def lowerMethod (f : Frame) (m : Method) : Assembling Unit := do
  lowerBody f m.body
  Assembling.emitLabels m.trailing

namespace MethodListing

def ofMethod (names : ClassNames) (m : Method) : Except Error MethodListing :=
  let frame : Frame := ⟨names, .ofMethod m⟩
  let r := (lowerMethod frame m).run .start
  r.outcome.map fun () =>
    { access := m.access
      isStatic := m.isStatic
      isFinal := m.isFinal
      name := if m.isConstructor then constructorName else m.name
      params := m.params.map fun e => names.descriptor e.type
      result := names.descriptor m.returnType
      stackLimit := r.state.stack.max
      localsLimit := frame.registers.size
      code := r.written ++ if needsReturn m r.written then [.op .returnVoid] else [] }

/-- The constructor of a class that has none. -/
def defaultConstructor (super : String) : MethodListing where
  access := .publicAccess
  isStatic := false
  isFinal := false
  name := constructorName
  params := []
  result := .void
  stackLimit := 1
  localsLimit := 1
  code :=
    [.op (.load .reference 0), .op (.invoke .special super constructorName [] .void),
      .op .returnVoid]

def ofMethods (names : ClassNames) : List Method → Except Error (List MethodListing)
  | [] => .ok []
  | m :: ms => do
      let listing ← ofMethod names m
      let listings ← ofMethods names ms
      pure (listing :: listings)

def text (m : MethodListing) : String :=
  ".method " ++ modifiersText m.access m.isStatic m.isFinal ++ m.name ++
    Opcode.methodDescriptor m.params m.result ++ "\n\t.limit stack " ++ toString m.stackLimit ++
    "\n\t.limit locals " ++ toString m.localsLimit ++ "\n" ++ CodeLine.renderAll m.code ++
    ".end method\n"

end MethodListing

/-! ## Classes -/

namespace FieldListing

def ofField (names : ClassNames) (f : Field) : FieldListing where
  access := f.access
  isStatic := f.isStatic
  isFinal := f.isFinal
  name := f.name
  type := names.descriptor f.type

def text (f : FieldListing) : String :=
  ".field " ++ modifiersText f.access f.isStatic f.isFinal ++ f.name ++ " " ++ f.type.text ++ "\n"

end FieldListing

namespace ClassListing

def ofUnit (u : ClassUnit) : Except Error ClassListing :=
  let names := ClassNames.ofUnit u
  (MethodListing.ofMethods names u.methods).map fun methods =>
    { access := u.access
      name := u.name
      super := names.super
      fields := u.fields.map (.ofField names)
      methods := methods
      added :=
        if u.methods.any (·.isConstructor) then none
        else some (.defaultConstructor names.super) }

/-- The text before the methods. -/
def headText (c : ClassListing) : String :=
  ".class " ++ modifiersText c.access false false ++ c.name ++ "\n.super " ++ c.super ++ "\n\n" ++
    String.join (c.fields.map FieldListing.text) ++ (if c.fields.isEmpty then "" else "\n")

def text (c : ClassListing) : String :=
  c.headText ++ String.join (c.methods.map fun m => m.text ++ "\n") ++
    (c.added.map MethodListing.text).getD ""

end ClassListing

end JavaMinus.Assembly

def JavaMinus.Ir.ClassUnit.assembly (u : Ir.ClassUnit) : Except Error String :=
  (Assembly.ClassListing.ofUnit u).map Assembly.ClassListing.text
