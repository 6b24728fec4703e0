/-
# Values of lowered expressions

Lowering an expression leaves a value: an operand of the intermediate form with the source type of
the expression, and the number it stands for if it is a constant.  A boolean constant stands for
zero or one.

An operator between two constants is computed here, on 32-bit words that wrap around; only a
division by zero is left to the machine.
-/
import JavaMinus.Ir.Printer
import JavaMinus.Source.Program

namespace JavaMinus

open Source

/-- The operand type of a source type. -/
def Ty.lowered (t : Ty) : Ir.ElementType :=
  if t.isArray then .array (base t.name) else base t.name
where
  /-- The type of a name, the array mark aside. -/
  base : String → Ir.ElementType
    | "int" => .int32
    | "boolean" => .boolean
    | "void" => .void
    | "static void" => .void
    | "String" => .string
    | other => .object other

/-- A variable operand of a source type. -/
def Symbol.lowered (s : Symbol) : Ir.Element := .var s.name s.type.lowered

namespace Lowering

/-- The receiver as an operand. -/
def thisOperand : Ir.Element := .var "this" .this

/-- What a lowered expression leaves. -/
structure Value where
  operand : Ir.Element
  type : Ty
  /-- The number, if the value is a constant. -/
  literal : Option Int32
deriving DecidableEq, Repr

namespace Value

/-- The operand as it is written. -/
def text (v : Value) : String := v.operand.text

/-- Whether the value is known. -/
def isConstant (v : Value) : Bool := v.literal.isSome

/-- Whether the value is an element of an array, still to be read. -/
def isIndexed (v : Value) : Bool :=
  match v.operand with
  | .item .. => true
  | _ => false

def int (n : Int32) : Value := ⟨.literal (toString n.toInt) .int32, .int, some n⟩

/-- The word of a truth value. -/
def ofBool (b : Bool) : Int32 := if b then 1 else 0

/-- A truth value. -/
def bool (b : Bool) : Value :=
  ⟨.literal (toString (ofBool b).toInt) .boolean, .boolean, some (ofBool b)⟩

/-- The constant of a type; anything but a boolean is an integer. -/
def constant (n : Int32) (type : Ty) : Value :=
  if type.isBoolean then bool (n != 0) else int n

def var (name : String) (type : Ty) : Value := ⟨.var name type.lowered, type, none⟩

/-- The receiver, an object of a class. -/
def this (className : String) : Value := ⟨thisOperand, .ofClass className, none⟩

/-- The word that stands for an operand before a bracket. -/
def arrayName (v : Value) : String :=
  match v.operand with
  | .literal value _ => value
  | .var name _ => name
  | .item array _ _ => array

/-- An element of an array. -/
def item (array index : Value) : Value :=
  ⟨.item array.arrayName index.operand array.type.element.lowered, array.type.element, none⟩

end Value

/-- What can stand on the right of an assignment: a value, or an operation with its type. -/
inductive Rhs where
  | value (v : Value)
  | operation (i : Ir.Instruction) (type : Ty)
deriving DecidableEq, Repr

/-- The instruction that a right side is. -/
def Rhs.instruction : Rhs → Ir.Instruction
  | .value v => .single v.operand
  | .operation i _ => i

/-- Computes an operator on constants; nothing if that divides by zero. -/
def fold (op : BinaryOp) (a b : Int32) : Option Int32 :=
  match op with
  | .add => some (a + b)
  | .sub => some (a - b)
  | .mul => some (a * b)
  | .div => if b = 0 then none else some (a / b)
  | .lt => some (Value.ofBool (a < b))
  | .and => some (Value.ofBool (1 ≤ a && 1 ≤ b))

end Lowering

def Source.BinaryOp.lowered : BinaryOp → Ir.Operator
  | .add => .add
  | .sub => .sub
  | .mul => .mul
  | .div => .div
  | .lt => .lt
  | .and => .and

end JavaMinus
