/-
# The intermediate form

Between a program and its assembly stands a class unit: fields and methods whose bodies are
three-address instructions with labels.  Every operand carries its type.  There is a text for it,
which `Ir.Printer` writes and `Ir.Parser` reads.
-/
import JavaMinus.Character

namespace JavaMinus.Ir

/-- Who may use a member. -/
inductive Access where
  | publicAccess
  | privateAccess
  | protectedAccess
  | defaultAccess
deriving DecidableEq, Repr

namespace Access

def ofWord? : String → Option Access
  | "public" => some .publicAccess
  | "private" => some .privateAccess
  | "protected" => some .protectedAccess
  | "default" => some .defaultAccess
  | _ => none

/-- The modifier word; default access has none. -/
def keyword? : Access → Option String
  | .publicAccess => some "public"
  | .privateAccess => some "private"
  | .protectedAccess => some "protected"
  | .defaultAccess => none

end Access

inductive ElementType where
  | int32
  | boolean
  | string
  | array (element : ElementType)
  | object (className : String)
  /-- A bare class name, the target of a static call or a creation. -/
  | classRef (className : String)
  | this
  | void
deriving DecidableEq, Repr, Inhabited

namespace ElementType

/-- Integers and booleans are handled as numbers, everything else as references. -/
def isNumeric : ElementType → Bool
  | .int32 | .boolean => true
  | _ => false

def isArray : ElementType → Bool
  | .array _ => true
  | _ => false

/-- The type that a word of the text stands for, where it is not the word for arrays. -/
def ofWord : String → ElementType
  | "i32" => .int32
  | "bool" => .boolean
  | "V" => .void
  | "String" => .string
  | word => .object word

/-- The type as it is written after a dot. -/
def text : ElementType → String
  | .int32 => "i32"
  | .boolean => "bool"
  | .string => "String"
  | .array element => "array." ++ element.text
  | .object className => className
  | .classRef className => className
  | .this => "this"
  | .void => "V"

end ElementType

/-- The 32-bit value of a decimal numeral: a sign or none, then digits, in range. -/
def numeral? (text : String) : Option Int32 :=
  match text.toList with
  | '-' :: ds => ranged ds (-1)
  | '+' :: ds => ranged ds 1
  | ds => ranged ds 1
where
  ranged (ds : List Char) (sign : Int) : Option Int32 :=
    if ds.isEmpty || !ds.all Char.isDigit then none
    else
      let v := sign * (Character.decimal ds : Nat)
      if -2147483648 ≤ v ∧ v ≤ 2147483647 then some (Int32.ofInt v) else none

inductive Element where
  /-- A number, or a text in its quotes. -/
  | literal (value : String) (type : ElementType)
  | var (name : String) (type : ElementType)
  /-- An element of an array, with the type of the element. -/
  | item (array : String) (index : Element) (type : ElementType)
deriving DecidableEq, Repr, Inhabited

namespace Element

/-- The type of the operand; that of an element of an array is the type of the element. -/
def type : Element → ElementType
  | .literal _ t | .var _ t | .item _ _ t => t

/-- The variable that the operand is or is part of. -/
def name? : Element → Option String
  | .literal _ _ => none
  | .var name _ | .item name _ _ => some name

/-- The value of a literal of a numeric type. -/
def value? : Element → Option Int32
  | .literal value t => if t.isNumeric then numeral? value else none
  | _ => none

end Element

inductive Operator where
  | add | sub | mul | div | lt | lte | gt | gte | eq | neq | and | or | not
deriving DecidableEq, Repr

namespace Operator

def all : List Operator :=
  [.add, .sub, .mul, .div, .lt, .lte, .gt, .gte, .eq, .neq, .and, .or, .not]

def symbol : Operator → String
  | .add => "+"
  | .sub => "-"
  | .mul => "*"
  | .div => "/"
  | .lt => "<"
  | .lte => "<="
  | .gt => ">"
  | .gte => ">="
  | .eq => "=="
  | .neq => "!="
  | .and => "&&"
  | .or => "||"
  | .not => "!"

/-- The name under which messages show the operator. -/
def title : Operator → String
  | .add => "Add"
  | .sub => "Sub"
  | .mul => "Mul"
  | .div => "Div"
  | .lt => "Lt"
  | .lte => "Lte"
  | .gt => "Gt"
  | .gte => "Gte"
  | .eq => "Eq"
  | .neq => "Neq"
  | .and => "And"
  | .or => "Or"
  | .not => "Not"

def ofSymbol? (s : String) : Option Operator :=
  all.find? (fun op => op.symbol == s)

/-- Whether the operator compares two numbers. -/
def isRelational : Operator → Bool
  | .lt | .lte | .gt | .gte | .eq | .neq => true
  | _ => false

end Operator

/-- An operator and the type of its result. -/
structure Operation where
  op : Operator
  type : ElementType
deriving DecidableEq, Repr

/-- The instructions that are written like calls. -/
inductive CallKind where
  | new
  | invokeSpecial
  | invokeVirtual
  | invokeStatic
  | loadConstant
  | arrayLength
deriving DecidableEq, Repr

namespace CallKind

def all : List CallKind :=
  [.new, .invokeSpecial, .invokeVirtual, .invokeStatic, .loadConstant, .arrayLength]

def word : CallKind → String
  | .new => "new"
  | .invokeSpecial => "invokespecial"
  | .invokeVirtual => "invokevirtual"
  | .invokeStatic => "invokestatic"
  | .loadConstant => "ldc"
  | .arrayLength => "arraylength"

def ofWord? (w : String) : Option CallKind :=
  all.find? (fun k => k.word == w)

/-- Whether a method is called, so that its name is given. -/
def isInvocation : CallKind → Bool
  | .invokeSpecial | .invokeVirtual | .invokeStatic => true
  | _ => false

end CallKind

/-- A call, or an instruction written like one. -/
structure Call where
  kind : CallKind
  /-- The receiver, the class of a static call, or what is created; a new array has none. -/
  target : Option Element
  /-- The name of the method, without quotes. -/
  method : Option String
  args : List Element
  returnType : ElementType
deriving DecidableEq, Repr

inductive Instruction where
  | assign (dest : Element) (type : ElementType) (rhs : Instruction)
  | binary (lhs : Element) (operation : Operation) (rhs : Element)
  | unary (operation : Operation) (operand : Element)
  | single (operand : Element)
  | call (c : Call)
  | getField (object field : Element)
  | putField (object field value : Element)
  | goto (label : String)
  | branch (condition : Instruction) (label : String)
  /-- Returns a value; the type is the one written, which need not be the value's. -/
  | return (type : ElementType) (value : Element)
  | returnVoid
deriving DecidableEq, Repr, Inhabited

/-- An instruction and the labels before it. -/
structure Labeled where
  labels : List String
  instruction : Instruction
deriving DecidableEq, Repr

structure Field where
  name : String
  access : Access
  isStatic : Bool
  isFinal : Bool
  type : ElementType
deriving DecidableEq, Repr

/-- A method or a constructor. -/
structure Method where
  name : String
  access : Access
  isStatic : Bool
  isFinal : Bool
  isConstructor : Bool
  params : List Element
  returnType : ElementType
  body : List Labeled
  /-- The labels after the last instruction. -/
  trailing : List String
deriving DecidableEq, Repr

/-- A class with the imports before it. -/
structure ClassUnit where
  imports : List String
  name : String
  access : Access
  superClass : Option String
  fields : List Field
  methods : List Method
deriving DecidableEq, Repr

end JavaMinus.Ir
