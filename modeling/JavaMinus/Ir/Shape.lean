/-
# The shape of an instruction

Messages show an instruction that they refuse by its shape: what it is called, then its parts, each
with its label where it has one.
-/
import JavaMinus.Ir.Unit

namespace JavaMinus.Ir.Shape

/-- A text in quotes; quotes, backslashes and control characters are escaped. -/
def quoted (s : String) : String := "\"" ++ String.join (s.toList.map escaped) ++ "\""
where
  escaped : Char → String
    | '"' => "\\\""
    | '\\' => "\\\\"
    | '\n' => "\\n"
    | '\r' => "\\r"
    | '\t' => "\\t"
    | c => c.toString

/-- A name with one part. -/
def wrapped (name part : String) : String := name ++ "(" ++ part ++ ")"

/-- A name with labelled parts. -/
def labelled (name : String) (parts : List (String × String)) : String :=
  name ++ " \x7b " ++ ", ".intercalate (parts.map fun (label, part) => label ++ ": " ++ part) ++
    " \x7d"

def optional : Option String → String
  | some part => wrapped "Some" part
  | none => "None"

def ofType : ElementType → String
  | .int32 => "Int32"
  | .boolean => "Boolean"
  | .string => "String"
  | .array element => wrapped "Array" (ofType element)
  | .object className => wrapped "Object" (quoted className)
  | .classRef className => wrapped "Class" (quoted className)
  | .this => "This"
  | .void => "Void"

/-- The shape of an operand. -/
def ofElement : Element → String
  | .literal value t => labelled "Literal" [("value", quoted value), ("ty", ofType t)]
  | .var name t => labelled "Operand" [("name", quoted name), ("ty", ofType t)]
  | .item array index t =>
      labelled "ArrayOperand"
        [("name", quoted array), ("index", ofElement index), ("ty", ofType t)]

/-- The shape of an operator with its type. -/
def ofOperation (o : Operation) : String :=
  labelled "Operation" [("op", o.op.title), ("ty", ofType o.type)]

def callTitle : CallKind → String
  | .new => "New"
  | .invokeSpecial => "InvokeSpecial"
  | .invokeVirtual => "InvokeVirtual"
  | .invokeStatic => "InvokeStatic"
  | .loadConstant => "LoadConstant"
  | .arrayLength => "ArrayLength"

def ofCall (c : Call) : String :=
  labelled "CallInstruction"
    [("kind", callTitle c.kind), ("target", optional (c.target.map ofElement)),
      ("method", optional (c.method.map quoted)),
      ("args", "[" ++ ", ".intercalate (c.args.map ofElement) ++ "]"),
      ("return_type", ofType c.returnType)]

def ofInstruction : Instruction → String
  | .assign dest t rhs =>
      labelled "Assign" [("dest", ofElement dest), ("ty", ofType t), ("rhs", ofInstruction rhs)]
  | .binary lhs o rhs =>
      labelled "BinaryOp"
        [("lhs", ofElement lhs), ("operation", ofOperation o), ("rhs", ofElement rhs)]
  | .unary o operand =>
      labelled "UnaryOp" [("operation", ofOperation o), ("operand", ofElement operand)]
  | .single operand => wrapped "SingleOp" (ofElement operand)
  | .call c => wrapped "Call" (ofCall c)
  | .getField object field =>
      labelled "GetField" [("object", ofElement object), ("field", ofElement field)]
  | .putField object field value =>
      labelled "PutField"
        [("object", ofElement object), ("field", ofElement field), ("value", ofElement value)]
  | .goto label => wrapped "Goto" (quoted label)
  | .branch condition label =>
      labelled "CondBranch" [("condition", ofInstruction condition), ("label", quoted label)]
  | .return _ value => wrapped "Return" (optional (some (ofElement value)))
  | .returnVoid => wrapped "Return" (optional none)

end JavaMinus.Ir.Shape
