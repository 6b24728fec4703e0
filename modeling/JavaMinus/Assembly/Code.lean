/-
# Instructions in assembly

Each instruction of the intermediate form becomes a few lines.  The generator follows the depth of
the operand stack and numbers its own labels, from zero in each method.

There is no opcode that leaves the outcome of a comparison, so one that is needed as a value is made
by a branch over two constants:

        (a - b)                         (a + b - 2)
        iflt ComparisonThenN            iflt ComparisonThenN
        iconst_0                        iconst_1
        goto ComparisonEndIfN           goto ComparisonEndIfN
    ComparisonThenN:                ComparisonThenN:
        iconst_1                        iconst_0
    ComparisonEndIfN:               ComparisonEndIfN:

on the left `a < b`, on the right the conjunction, whose operands are zero or one.
-/
import JavaMinus.Assembly.Opcode
import JavaMinus.Assembly.Registers
import JavaMinus.Assembly.StackDepth
import JavaMinus.Emission
import JavaMinus.Ir.Printer
import JavaMinus.Ir.Shape

namespace JavaMinus.Assembly

open Ir

/-- What is followed along the lines of a method. -/
structure Tracker where
  stack : StackDepth
  labels : Nat
deriving DecidableEq, Repr

def Tracker.start : Tracker := ⟨.empty, 0⟩

/-- What does not change within a method. -/
structure Frame where
  names : ClassNames
  registers : Registers
deriving DecidableEq, Repr

/-- A step of the generator. -/
abbrev Assembling (α : Type) : Type := Emission Error Tracker CodeLine α

namespace Assembling

/-- Writes an opcode and follows its effect on the stack. -/
def emit (op : Opcode) : Assembling Unit := do
  Emission.write (.op op)
  let tracker ← Emission.state
  let popped ← Emission.lift (tracker.stack.pop op.pops)
  Emission.modifyState fun t => { t with stack := popped.push op.pushes }

/-- Writes an opcode whose effect has been counted on another path. -/
def emitUncounted (op : Opcode) : Assembling Unit := Emission.write (.op op)

def emitLabel (name : String) : Assembling Unit := Emission.write (.label name)

def emitLabels : List String → Assembling Unit
  | [] => pure ()
  | name :: names => do
      emitLabel name
      emitLabels names

def newLabel : Assembling Nat := do
  let tracker ← Emission.state
  Emission.modifyState fun t => { t with labels := t.labels + 1 }
  pure tracker.labels

/-- Stops at a construct that has no assembly. -/
def refuse {α : Type} (c : Construct) : Assembling α := Emission.fail (.unsupported c)

end Assembling

open Assembling

/-! ## Operands -/

/-- The register of a variable. -/
def slot (f : Frame) (name : String) : Assembling Slot :=
  Emission.need (.internal (.noRegister name)) (f.registers.find? name)

/-- Loads the variable in a register. -/
def loadSlot (s : Slot) : Assembling Unit := emit (.load (.ofType s.type) s.register)

/-- Loads the receiver, which is in the first register. -/
def loadReceiver : Assembling Unit := emit (.load .reference 0)

/-- Loads a literal; one of a numeric type has to be a number. -/
def loadLiteral (value : String) (t : ElementType) : Assembling Unit :=
  if t.isNumeric then do
    let number ← Emission.need (.internal (.invalidLiteral value)) (numeral? value)
    emit (.constant number)
  else emit (.constantText value)

/-- Loads a variable or the receiver. -/
def loadVar (f : Frame) (name : String) (t : ElementType) : Assembling Unit :=
  if t = .this || name == "this" then loadReceiver
  else do
    let s ← slot f name
    loadSlot s

/-- Loads an operand; for an element of an array, the array, the index and then the element. -/
def load (f : Frame) : Element → Assembling Unit
  | .literal value t => loadLiteral value t
  | .var name t => loadVar f name t
  | .item array index t => do
      let s ← slot f array
      loadSlot s
      load f index
      emit (.loadItem (.ofType t))

/-- Loads operands in order. -/
def loadAll (f : Frame) : List Element → Assembling Unit
  | [] => pure ()
  | e :: es => do
      load f e
      loadAll f es

/-- Stores into a variable, by the type that its register has. -/
def store (f : Frame) (name : String) : Assembling Unit := do
  let s ← slot f name
  emit (.store (.ofType s.type) s.register)

/-! ## Operators -/

/-- Leaves one of two numbers, chosen by a branch on the number on top.  One of the two is pushed in
any run, so one is counted. -/
def choose (comparison : Comparison) (thenLabel endLabel : String) (taken other : Int32) :
    Assembling Unit := do
  emit (.branch comparison thenLabel)
  emit (.constant other)
  emit (.goto endLabel)
  emitLabel thenLabel
  emitUncounted (.constant taken)
  emitLabel endLabel

/-- Leaves one of two numbers, with the labels of comparisons. -/
def chooseCompared (comparison : Comparison) (taken other : Int32) : Assembling Unit := do
  let n ← newLabel
  choose comparison ("ComparisonThen" ++ toString n) ("ComparisonEndIf" ++ toString n) taken other

/-- The comparison that a difference is put to, for an operator that compares. -/
def comparison? : Operator → Option Comparison
  | .lt => some .lt
  | .lte => some .le
  | .gt => some .gt
  | .gte => some .ge
  | .eq => some .eq
  | .neq => some .ne
  | _ => none

def arithmetic? : Operator → Option Arithmetic
  | .add => some .add
  | .sub => some .subtract
  | .mul => some .multiply
  | .div => some .divide
  | .or => some .bitOr
  | _ => none

/-- Applies an operator to the two numbers on top. -/
def applyOperator (op : Operator) : Assembling Unit :=
  match arithmetic? op, comparison? op with
  | some a, _ => emit (.arithmetic a)
  | none, some c => do
      emit (.arithmetic .subtract)
      chooseCompared c 1 0
  | none, none =>
      if op = .and then do
        emit (.arithmetic .add)
        emit (.constant 2)
        emit (.arithmetic .subtract)
        chooseCompared .lt 0 1
      else refuse (.binaryOperator op.title)

/-- An operator between two operands. -/
def binary (f : Frame) (lhs : Element) (op : Operator) (rhs : Element) : Assembling Unit := do
  load f lhs
  load f rhs
  applyOperator op

/-- An operator before an operand. -/
def unary (f : Frame) (op : Operator) (operand : Element) : Assembling Unit :=
  if op = .not then do
    load f operand
    let n ← newLabel
    choose .ne ("NotThen" ++ toString n) ("NotEndIf" ++ toString n) 0 1
  else refuse (.unaryOperator op.title)

/-! ## Fields and calls -/

/-- The class that an operand's methods and fields belong to. -/
def owner (f : Frame) (e : Element) : Assembling String :=
  Emission.need (.unsupported (.noOwner e.type.text)) (f.names.owner? e.type)

def fieldName (field : Element) : String := field.name?.getD ""

def getField (f : Frame) (object field : Element) : Assembling Unit := do
  load f object
  let className ← owner f object
  emit (.getField className (fieldName field) (f.names.descriptor field.type))

def putField (f : Frame) (object field value : Element) : Assembling Unit := do
  load f object
  load f value
  let className ← owner f object
  emit (.putField className (fieldName field) (f.names.descriptor field.type))

/-- A creation; only objects and arrays of integers can be created. -/
def create (f : Frame) (c : Call) : Assembling Unit :=
  match c.returnType with
  | .object className => emit (.newObject (f.names.resolve className))
  | .array .int32 =>
      match c.args with
      | [size] => do
          load f size
          emit .newArray
      | _ => refuse .multiDimensionalArray
  | other => refuse (.allocation other.text)

/-- The class that a static call is made to: the one that the name stands for. -/
def staticOwner (f : Frame) (target : Element) : String :=
  match target.name? with
  | none | some "this" => f.names.self
  | some name => f.names.resolve name

/-- The class that a call is made to, by the way it is made; a special call on the receiver is made
to the superclass. -/
def calledClass (f : Frame) (how : Invocation) (target : Element) : Assembling String :=
  match how with
  | .special => if target.type = .this then pure f.names.super else owner f target
  | .virtual => owner f target
  | .static => pure (staticOwner f target)

def invoke (f : Frame) (how : Invocation) (c : Call) : Assembling Unit := do
  let target ← Emission.need (.unsupported .callWithoutTarget) c.target
  let method ← Emission.need (.unsupported .callWithoutMethod) c.method
  let className ← calledClass f how target
  if how = .static then pure () else load f target
  loadAll f c.args
  emit (.invoke how className method (c.args.map fun e => f.names.descriptor e.type)
    (f.names.descriptor c.returnType))

/-- What a call does before its result is used or dropped. -/
def callBody (f : Frame) (c : Call) : Assembling Unit :=
  match c.kind with
  | .new => create f c
  | .invokeSpecial => invoke f .special c
  | .invokeVirtual => invoke f .virtual c
  | .invokeStatic => invoke f .static c
  | .loadConstant => do
      let operand ← Emission.need (.unsupported .constantWithoutOperand) c.target
      load f operand
  | .arrayLength => do
      let array ← Emission.need (.unsupported .lengthWithoutOperand) c.target
      load f array
      emit .arrayLength

/-- A call; a result that is not wanted is dropped. -/
def call (f : Frame) (c : Call) (wanted : Bool) : Assembling Unit := do
  callBody f c
  if wanted || c.returnType = .void then pure () else emit .pop

/-! ## Jumps -/

/-- Jumps to a label if the condition holds. -/
def branch (f : Frame) (condition : Instruction) (label : String) : Assembling Unit :=
  match condition with
  | .binary lhs ⟨op, _⟩ rhs =>
      match op, comparison? op with
      | _, some c => do
          load f lhs
          load f rhs
          emit (.arithmetic .subtract)
          emit (.branch c label)
      | .and, none => do
          let n ← newLabel
          let otherwise := "FalseAND" ++ toString n
          load f lhs
          emit (.branch .eq otherwise)
          load f rhs
          emit (.branch .eq otherwise)
          emit (.goto label)
          emitLabel otherwise
      | .or, none => do
          load f lhs
          emit (.branch .ne label)
          load f rhs
          emit (.branch .ne label)
      | op, none => refuse (.branchOnOperator op.title)
  | .unary ⟨.not, _⟩ operand => do
      load f operand
      emit (.branch .eq label)
  | .single operand => do
      load f operand
      emit (.branch .ne label)
  | other => refuse (.branchCondition (Shape.ofInstruction other))

/-- Returns a value, by the kind of its own type. -/
def returnValue (f : Frame) (value : Element) : Assembling Unit := do
  load f value
  emit (.returnValue (.ofType value.type))

/-! ## Assignments -/

def isVar (name : String) : Element → Bool
  | .var other _ => other == name
  | _ => false

/-- The constant of a sum of the variable and a constant. -/
def addedConstant? (name : String) : Instruction → Option Int32
  | .binary lhs ⟨.add, _⟩ rhs =>
      if isVar name lhs then rhs.value? else if isVar name rhs then lhs.value? else none
  | _ => none

/-- The register and the constant, if the assignment adds a constant of one byte to an integer
variable. -/
def increment? (f : Frame) (name : String) (rhs : Instruction) : Option (Nat × Int32) := do
  let amount ← addedConstant? name rhs
  guard (-128 ≤ amount.toInt ∧ amount.toInt ≤ 127)
  let s ← f.registers.find? name
  guard (s.type = .int32)
  pure (s.register, amount)

/-- Lowers an instruction.  The result of a call stays on the stack where it is wanted, that is, on
the right of an assignment. -/
def lower (f : Frame) (wanted : Bool) : Instruction → Assembling Unit
  | .assign (.var name _) _ rhs =>
      match increment? f name rhs with
      | some (register, amount) => emit (.increment register amount)
      | none => do
          lower f true rhs
          store f name
  | .assign (.item array index t) _ rhs => do
      loadVar f array (.array t)
      load f index
      lower f true rhs
      emit (.storeItem (.ofType t))
  | .assign (.literal value _) _ _ => refuse (.assignmentToLiteral value)
  | .binary lhs operation rhs => binary f lhs operation.op rhs
  | .unary operation operand => unary f operation.op operand
  | .single operand => load f operand
  | .call c => call f c wanted
  | .getField object field => getField f object field
  | .putField object field value => putField f object field value
  | .goto label => emit (.goto label)
  | .branch condition label => branch f condition label
  | .return _ value => returnValue f value
  | .returnVoid => emit .returnVoid

def lowerBody (f : Frame) : List Labeled → Assembling Unit
  | [] => pure ()
  | l :: ls => do
      emitLabels l.labels
      lower f false l.instruction
      lowerBody f ls

end JavaMinus.Assembly
