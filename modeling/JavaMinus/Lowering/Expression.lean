/-
# Lowering expressions

Everything is lowered to the right side of an assignment, which is left to the caller to place: as a
right side, as a value (`asValue`, an operation goes to a temporary) or as an operand that is no
array element either (`asOperand`).

Operands of operators and of negations may be array elements; arrays, indices, sizes, receivers and
arguments may not.  A call on the own class takes its parameter and return types from the class; any
other call returns what its context expects, and nothing if that expects nothing.
-/
import JavaMinus.Lowering.Generator

namespace JavaMinus.Lowering

open Source

def asValue (table : SymbolTable) : Rhs → Lowering Value
  | .value v => pure v
  | .operation i type => bind table i type

/-- A right side as an operand that is no array element. -/
def asOperand (table : SymbolTable) (rhs : Rhs) : Lowering Value := do
  let v ← asValue table rhs
  if v.isIndexed then bind table (.single v.operand) v.type else pure v

/-- A name: a variable, or the reading of a field. -/
def lowerName (table : SymbolTable) (name : String) : Lowering Rhs := do
  let found ← lookup table name
  let found ← Emission.need (.internal (.unresolvedIdentifier name)) found
  let type := found.symbol.type
  if found.origin = .field then
    pure (.operation (.getField thisOperand (.var name type.lowered)) type)
  else pure (.value (.var name type))

/-- An operator on two values: a constant if both are and it can be computed. -/
def lowerBinary (op : BinaryOp) (left right : Value) : Rhs :=
  let folded := do fold op (← left.literal) (← right.literal)
  match folded with
  | some n => .value (.constant n op.resultType)
  | none =>
      .operation (.binary left.operand ⟨op.lowered, op.resultType.lowered⟩ right.operand)
        op.resultType

/-- The negation of a value. -/
def lowerNot (v : Value) : Rhs :=
  match v.literal with
  | some n => .value (.bool (n == 0))
  | none => .operation (.unary ⟨.not, .boolean⟩ v.operand) .boolean

/-- The creation of an object: the object in a temporary, and the call of its constructor. -/
def lowerNewObject (table : SymbolTable) (className : String) : Lowering Rhs := do
  let type := Ty.ofClass className
  let v ← bind table
    (.call ⟨.new, some (.var className (.classRef className)), none, [], type.lowered⟩) type
  emit (.call ⟨.invokeSpecial, some v.operand, some "<init>", [], .void⟩)
  pure (.value v)

def lengthOf (array : Value) : Ir.Instruction :=
  .call ⟨.arrayLength, some array.operand, none, [], .int32⟩

/-- A new array of a size. -/
def arrayOf (size : Value) : Ir.Instruction :=
  .call ⟨.new, none, none, [size.operand], .array .int32⟩

/-- What a call is made on: how it is dispatched, the operand, and its type if it is a value. -/
structure Receiver where
  kind : Ir.CallKind
  operand : Ir.Element
  type : Option Ty

def Receiver.ofValue (v : Value) : Receiver := ⟨.invokeVirtual, v.operand, some v.type⟩

def Receiver.ofClass (name : String) : Receiver :=
  ⟨.invokeStatic, .var name (.classRef name), none⟩

/-- The signature of a method if the receiver is an object of the own class. -/
def Receiver.signature? (table : SymbolTable) (r : Receiver) (method : String) :
    Option Signature :=
  if r.type = some (.ofClass table.className) then table.method? method else none

/-- The type under which a call returns. -/
def callType (declared : Option Signature) (expected : Option Ty) : Ty :=
  ((declared.map (·.returnType)).or expected).getD .void

/-- The class that a call's target names, if it is a name that means nothing in the method. -/
def targetClass? (table : SymbolTable) (target : Expr) : Lowering (Option String) :=
  match target.asName? with
  | some name => do
      let found ← lookup table name
      pure (if found.isNone then some name else none)
  | none => pure none

mutual

/-- Lowers an expression to a right side, for a context that expects a type. -/
def lowerRhs (table : SymbolTable) : Expr → Option Ty → Lowering Rhs
  | .int _ n, _ => pure (.value (.int n))
  | .bool _ b, _ => pure (.value (.bool b))
  | .this _, _ => pure (.value (.this table.className))
  | .name _ name, _ => lowerName table name
  | .paren _ inner, expected => lowerRhs table inner expected
  | .binary _ op lhs rhs, _ => do
      let left ← asValue table (← lowerRhs table lhs (some op.operandType))
      let right ← asValue table (← lowerRhs table rhs (some op.operandType))
      pure (lowerBinary op left right)
  | .not _ operand, _ => do
      let v ← asValue table (← lowerRhs table operand (some .boolean))
      pure (lowerNot v)
  | .index _ array index, _ => do
      let a ← asOperand table (← lowerRhs table array (some .intArray))
      let i ← asOperand table (← lowerRhs table index (some .int))
      pure (.value (.item a i))
  | .length _ array, _ => do
      let a ← asOperand table (← lowerRhs table array (some .intArray))
      let v ← bind table (lengthOf a) .int
      pure (.value v)
  | .newArray _ size, _ => do
      let n ← asOperand table (← lowerRhs table size (some .int))
      let v ← bind table (arrayOf n) .intArray
      pure (.value v)
  | .newObject _ className, _ => lowerNewObject table className
  | .call _ target method args, expected => do
      let named ← targetClass? table target
      let receiver ←
        match named with
        | some name => pure (Receiver.ofClass name)
        | none => do
            let v ← asOperand table (← lowerRhs table target none)
            pure (Receiver.ofValue v)
      let declared := receiver.signature? table method
      let operands ← lowerArguments table args ((declared.map (·.params)).getD [])
      let type := callType declared expected
      pure (.operation
        (.call ⟨receiver.kind, some receiver.operand, some method, operands, type.lowered⟩) type)

/-- Lowers arguments, each for the type of its parameter if there is one. -/
def lowerArguments (table : SymbolTable) : List Expr → List Symbol → Lowering (List Ir.Element)
  | [], _ => pure []
  | arg :: args, params => do
      let v ← asOperand table (← lowerRhs table arg (params.head?.map (·.type)))
      let more ← lowerArguments table args params.tail
      pure (v.operand :: more)

end

def lowerValue (table : SymbolTable) (e : Expr) (expected : Option Ty) : Lowering Value := do
  asValue table (← lowerRhs table e expected)

/-- Lowers an expression to an operand that is no array element. -/
def lowerOperand (table : SymbolTable) (e : Expr) (expected : Option Ty) : Lowering Value := do
  asOperand table (← lowerRhs table e expected)

end JavaMinus.Lowering
