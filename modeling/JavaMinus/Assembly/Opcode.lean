/-
# The instructions of the stack machine

An opcode takes its operands from the operand stack and leaves its result there.  How many values it
takes and leaves is part of what it is, and so are the places it can go on at.

    constant, load             ⟶ v
    store                    v ⟶
    add, subtract, …       a b ⟶ c
    loadItem               a i ⟶ v
    storeItem            a i v ⟶
    branch                   v ⟶           to the label if `v` compares with zero as asked
    invoke      receiver args… ⟶ result    without a receiver if static, without a result if void

Integers and booleans are numbers, and everything else is a reference; the two kinds have opcodes of
their own.
-/
import JavaMinus.Assembly.ClassNames

namespace JavaMinus.Assembly

/-- The kinds of values. -/
inductive Kind where
  | number
  | reference
deriving DecidableEq, Repr

namespace Kind

def ofType (t : Ir.ElementType) : Kind := if t.isNumeric then .number else .reference

/-- The letter that opcodes of the kind begin with. -/
def letter : Kind → String
  | .number => "i"
  | .reference => "a"

end Kind

/-- How a number compares with zero. -/
inductive Comparison where
  | lt | le | gt | ge | eq | ne
deriving DecidableEq, Repr

/-- How the comparison shows in the name of its branch. -/
def Comparison.suffix : Comparison → String
  | .lt => "lt"
  | .le => "le"
  | .gt => "gt"
  | .ge => "ge"
  | .eq => "eq"
  | .ne => "ne"

/-- The operations on two numbers. -/
inductive Arithmetic where
  | add | subtract | multiply | divide | bitOr
deriving DecidableEq, Repr

/-- The opcode of the operation. -/
def Arithmetic.text : Arithmetic → String
  | .add => "iadd"
  | .subtract => "isub"
  | .multiply => "imul"
  | .divide => "idiv"
  | .bitOr => "ior"

/-- The ways to call a method. -/
inductive Invocation where
  | special
  | virtual
  | static
deriving DecidableEq, Repr

namespace Invocation

/-- The opcode of the call. -/
def text : Invocation → String
  | .special => "invokespecial"
  | .virtual => "invokevirtual"
  | .static => "invokestatic"

/-- The number of values below the arguments. -/
def receivers : Invocation → Nat
  | .static => 0
  | _ => 1

end Invocation

inductive Opcode where
  | constant (value : Int32)
  /-- A constant that is not a number, as the text writes it. -/
  | constantText (value : String)
  | load (kind : Kind) (register : Nat)
  | store (kind : Kind) (register : Nat)
  /-- Adds to a register without the stack. -/
  | increment (register : Nat) (amount : Int32)
  | arithmetic (op : Arithmetic)
  | loadItem (kind : Kind)
  | storeItem (kind : Kind)
  | arrayLength
  /-- Creates an array of numbers. -/
  | newArray
  | newObject (className : String)
  | getField (owner name : String) (type : Descriptor)
  | putField (owner name : String) (type : Descriptor)
  | invoke (how : Invocation) (owner method : String) (params : List Descriptor)
      (result : Descriptor)
  | pop
  | goto (label : String)
  | branch (comparison : Comparison) (label : String)
  | returnValue (kind : Kind)
  | returnVoid
deriving DecidableEq, Repr

namespace Opcode

/-- The number of values taken from the stack. -/
def pops : Opcode → Nat
  | .constant _ | .constantText _ | .load .. | .increment .. | .newObject _ | .goto _ => 0
  | .store .. | .arrayLength | .newArray | .getField .. | .pop | .branch .. | .returnValue _ => 1
  | .arithmetic _ | .loadItem _ | .putField .. => 2
  | .storeItem _ => 3
  | .invoke how _ _ params _ => params.length + how.receivers
  | .returnVoid => 0

/-- The number of values left on the stack. -/
def pushes : Opcode → Nat
  | .constant _ | .constantText _ | .load .. | .arithmetic _ | .loadItem _ | .arrayLength
  | .newArray | .newObject _ | .getField .. => 1
  | .store .. | .increment .. | .storeItem _ | .putField .. | .pop | .goto _ | .branch ..
  | .returnValue _ | .returnVoid => 0
  | .invoke _ _ _ _ result => if result = .void then 0 else 1

/-- Whether the method ends here. -/
def isReturn : Opcode → Bool
  | .returnValue _ | .returnVoid => true
  | _ => false

/-- The label where the machine may go on. -/
def target? : Opcode → Option String
  | .goto label | .branch _ label => some label
  | _ => none

/-! ## The text -/

/-- An opcode name and a register; the first four registers are part of the name. -/
def withRegister (name : String) (register : Nat) : String :=
  name ++ (if register ≤ 3 then "_" else " ") ++ toString register

/-- The shortest opcode that leaves a number. -/
def constantForm (value : Int32) : String :=
  let v := value.toInt
  let name :=
    if v = -1 then "iconst_m"
    else if 0 ≤ v ∧ v ≤ 5 then "iconst_"
    else if -128 ≤ v ∧ v ≤ 127 then "bipush "
    else if -32768 ≤ v ∧ v ≤ 32767 then "sipush "
    else "ldc "
  name ++ toString (if v = -1 then 1 else v)

def methodDescriptor (params : List Descriptor) (result : Descriptor) : String :=
  "(" ++ String.join (params.map Descriptor.text) ++ ")" ++ result.text

/-- The instruction as it is written. -/
def text : Opcode → String
  | .constant value => constantForm value
  | .constantText value => "ldc " ++ value
  | .load kind register => withRegister (kind.letter ++ "load") register
  | .store kind register => withRegister (kind.letter ++ "store") register
  | .increment register amount => "iinc " ++ toString register ++ " " ++ toString amount.toInt
  | .arithmetic op => op.text
  | .loadItem kind => kind.letter ++ "aload"
  | .storeItem kind => kind.letter ++ "astore"
  | .arrayLength => "arraylength"
  | .newArray => "newarray int"
  | .newObject className => "new " ++ className
  | .getField owner name type => "getfield " ++ owner ++ "/" ++ name ++ " " ++ type.text
  | .putField owner name type => "putfield " ++ owner ++ "/" ++ name ++ " " ++ type.text
  | .invoke how owner method params result =>
      how.text ++ " " ++ owner ++ "/" ++ method ++ methodDescriptor params result
  | .pop => "pop"
  | .goto label => "goto " ++ label
  | .branch comparison label => "if" ++ comparison.suffix ++ " " ++ label
  | .returnValue kind => kind.letter ++ "return"
  | .returnVoid => "return"

end Opcode

inductive CodeLine where
  | op (opcode : Opcode)
  | label (name : String)
deriving DecidableEq, Repr

namespace CodeLine

def render : CodeLine → String
  | .op opcode => "\t" ++ opcode.text ++ "\n"
  | .label name => name ++ ":\n"

def renderAll (lines : List CodeLine) : String := String.join (lines.map render)

def isReturn : CodeLine → Bool
  | .op opcode => opcode.isReturn
  | .label _ => false

end CodeLine

end JavaMinus.Assembly
