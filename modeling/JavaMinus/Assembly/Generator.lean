/-
# The generator as one run

The assembly of a class as one run over its methods, which carries everything along that it works
with: registers, the depth of the stack, the number of the next label, whether a return has been
written, and the lines.  A method begins by setting all of it anew, and at its end the lines are
taken out.

The flag says that a return has been lowered, not that a line is one; a return may be the right side
of an assignment.
-/
import JavaMinus.Assembly.Listing

namespace JavaMinus

open Ir

/-- Whether lowering the instruction lowers a return. -/
def Ir.Instruction.returns : Instruction → Bool
  | .assign _ _ rhs => rhs.returns
  | .return .. | .returnVoid => true
  | _ => false

namespace Assembly

/-- What the generator carries along. -/
structure Generator where
  registers : Registers
  tracker : Tracker
  returned : Bool
  code : List CodeLine
deriving DecidableEq, Repr

/-- A generator that has not begun a method yet. -/
def Generator.fresh : Generator := ⟨.empty, .start, false, []⟩

def Generator.listing (names : ClassNames) (m : Method) (g : Generator) : MethodListing where
  access := m.access
  isStatic := m.isStatic
  isFinal := m.isFinal
  name := if m.isConstructor then constructorName else m.name
  params := m.params.map fun e => names.descriptor e.type
  result := names.descriptor m.returnType
  stackLimit := g.tracker.stack.max
  localsLimit := g.registers.size
  code := g.code

/-- A step of the generator, which may stop. -/
abbrev Generating (α : Type) : Type := StateT Generator (Except Error) α

namespace Generating

def beginMethod (m : Method) : Generating Unit :=
  set { Generator.fresh with registers := .ofMethod m }

/-- Takes a step of a method, with the registers as they are. -/
def step (names : ClassNames) (m : Frame → Assembling Unit) : Generating Unit := fun g =>
  let r := (m ⟨names, g.registers⟩).run g.tracker
  r.outcome.map fun () => ((), { g with tracker := r.state, code := g.code ++ r.written })

def instruction (names : ClassNames) (i : Instruction) : Generating Unit := do
  step names fun f => lower f false i
  if i.returns then modify fun g => { g with returned := true }

/-- Lowers instructions with their labels. -/
def body (names : ClassNames) : List Labeled → Generating Unit
  | [] => pure ()
  | l :: ls => do
      step names fun _ => Assembling.emitLabels l.labels
      instruction names l.instruction
      body names ls

/-- Ends a method: writes a return if one is due, and takes the lines out. -/
def endMethod (names : ClassNames) (m : Method) : Generating String := do
  let g ← get
  let due := !g.returned || (!m.trailing.isEmpty && m.returnType == .void)
  let g := { g with code := g.code ++ if due then [CodeLine.op .returnVoid] else [] }
  set { g with code := [] }
  pure (g.listing names m).text

def method (names : ClassNames) (m : Method) : Generating String := do
  beginMethod m
  body names m.body
  step names fun _ => Assembling.emitLabels m.trailing
  endMethod names m

/-- The text of a method by a generator that has done nothing else. -/
def alone (names : ClassNames) (m : Method) : Except Error String :=
  ((method names m).run .fresh).map Prod.fst

/-- The texts of methods in order. -/
def methods (names : ClassNames) : List Method → Generating (List String)
  | [] => pure []
  | m :: ms => do
      let text ← method names m
      let texts ← methods names ms
      pure (text :: texts)

end Generating

end Assembly

/-- The text of a class from the texts of its methods.  Of the methods of the unit itself it only
matters whether one is a constructor. -/
def Ir.ClassUnit.classText (u : ClassUnit) (methods : List String) : String :=
  let names := Assembly.ClassNames.ofUnit u
  let head : Assembly.ClassListing :=
    { access := u.access
      name := u.name
      super := names.super
      fields := u.fields.map (.ofField names)
      methods := []
      added := none }
  head.headText ++ String.join (methods.map (· ++ "\n")) ++
    if u.methods.any (·.isConstructor) then ""
    else (Assembly.MethodListing.defaultConstructor names.super).text

/-- The text of a class by the generator. -/
def Assembly.Generating.ofUnit (u : ClassUnit) : Generating String := do
  let texts ← methods (.ofUnit u) u.methods
  pure (u.classText texts)

end JavaMinus
